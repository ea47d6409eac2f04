import Mathlib

/-! # Lists of reals as vectors

A list that is scaled to length one, and the coordinatewise weighted mean of a list of lists, are
`NormedSpace.normalize` and `Finset.centerMass` of the vectors. -/

namespace RepoPilot
namespace Vectors

/-- The first `d` numbers of a list as a vector; what is missing is zero. -/
noncomputable def coords (d : Nat) (xs : List ℝ) : EuclideanSpace ℝ (Fin d) := WithLp.toLp 2 fun i => xs.getD i 0

variable {d : Nat}

theorem sum_getD {M : Type*} [AddCommMonoid M] {α : Type*} (f : α → M) (xs : List α) (hlength : xs.length = d) (a : α) :
    ∑ i : Fin d, f (xs.getD i a) = (xs.map f).sum := by
  rw [← List.sum_ofFn]
  congr 1
  refine List.ext_getElem (by rw [List.length_ofFn, List.length_map, hlength]) fun i hi hi' => ?_
  rw [List.length_map] at hi'
  rw [List.getElem_ofFn, List.getElem_map, List.getD_eq_getElem _ _ hi']

theorem norm_coords (xs : List ℝ) (hlength : xs.length = d) :
    ‖coords d xs‖ = √((xs.map fun v => v * v).sum) := by
  rw [EuclideanSpace.norm_eq, ← sum_getD (fun v : ℝ => v * v) xs hlength 0]
  refine congrArg Real.sqrt (Finset.sum_congr rfl fun i _ => ?_)
  rw [Real.norm_eq_abs, sq_abs, sq]
  rfl

theorem coords_div (xs : List ℝ) (c : ℝ) : coords d (xs.map (· / c)) = c⁻¹ • coords d xs := by
  ext i
  show (xs.map (· / c)).getD i 0 = c⁻¹ * xs.getD i 0
  rw [List.getD_eq_getElem?_getD, List.getD_eq_getElem?_getD, List.getElem?_map]
  cases xs[(i : Nat)]? with
  | none => simp
  | some x => exact div_eq_inv_mul x c

theorem coords_normalize (xs : List ℝ) (hlength : xs.length = d) :
    coords d (xs.map fun v => v / √((xs.map fun v => v * v).sum)) = NormedSpace.normalize (coords d xs) := by
  rw [coords_div, ← norm_coords xs hlength]
  rfl

/-- Taking a weighted mean coordinate by coordinate gives the centre of mass. -/
theorem coords_mean {p : Nat} (vs : List (List ℝ)) (weights : List Nat) (hvs : vs.length = p)
    (hweights : weights.length = p) :
    coords d ((List.range d).map fun i =>
        (List.zipWith (fun (v : List ℝ) (n : Nat) => v.getD i 0 * n / (weights.sum : Nat)) vs weights).sum) =
      Finset.univ.centerMass (fun j : Fin p => (weights.getD j 0 : ℝ)) fun j => coords d (vs.getD j []) := by
  have htotal : ∑ j : Fin p, (weights.getD j 0 : ℝ) = (weights.sum : Nat) := by
    rw [sum_getD (fun n : Nat => (n : ℝ)) weights hweights 0, Nat.cast_list_sum]
  ext i
  unfold Finset.centerMass
  rw [htotal]
  have hleft : (coords d ((List.range d).map fun i =>
      (List.zipWith (fun (v : List ℝ) (n : Nat) => v.getD i 0 * n / (weights.sum : Nat)) vs weights).sum)) i =
      (List.zipWith (fun (v : List ℝ) (n : Nat) => v.getD i 0 * n / (weights.sum : Nat)) vs weights).sum := by
    show List.getD _ _ _ = _
    rw [List.getD_eq_getElem _ _ (by simp)]
    simp
  have hpairs : (vs.zip weights).length = p := by rw [List.length_zip, hvs, hweights, Nat.min_self]
  rw [hleft, PiLp.smul_apply, WithLp.ofLp_sum, Finset.sum_apply, smul_eq_mul, Finset.mul_sum,
    ← List.map_uncurry_zip_eq_zipWith, ← sum_getD _ _ hpairs ([], 0)]
  refine Finset.sum_congr rfl fun j _ => ?_
  have hv : (j : Nat) < vs.length := by omega
  have hn : (j : Nat) < weights.length := by omega
  dsimp only
  rw [List.getD_eq_getElem _ _ (by rw [List.length_zip]; omega), List.getElem_zip, List.getD_eq_getElem _ _ hv,
    List.getD_eq_getElem _ _ hn]
  show vs[(j : Nat)].getD i 0 * weights[(j : Nat)] / _ = _ * (weights[(j : Nat)] * vs[(j : Nat)].getD i 0)
  ring

end Vectors
end RepoPilot
