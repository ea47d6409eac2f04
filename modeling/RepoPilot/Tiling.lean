import Mathlib

/-! # Tilings

Consecutive labelled intervals of natural numbers, and the pieces of a list they cut out. A tiling may be
refined piece by piece, and its pieces concatenate to what it covers. -/

namespace RepoPilot
namespace Tiling

variable {α γ δ : Type} {a b c : Nat} {ps qs : List (Nat × Nat × γ)}

/-- The elements of `xs` from `i` up to `j`. -/
def piece (xs : List α) (i j : Nat) : List α := (xs.drop i).take (j - i)

/-- The pieces are consecutive intervals from `a` to `b`. -/
def Tiles (a b : Nat) : List (Nat × Nat × γ) → Prop
  | [] => a = b
  | p :: ps => p.1 = a ∧ a ≤ p.2.1 ∧ Tiles p.2.1 b ps

theorem tiles_nil : Tiles a b ([] : List (Nat × Nat × γ)) ↔ a = b := Iff.rfl

theorem tiles_cons {p : Nat × Nat × γ} :
    Tiles a b (p :: ps) ↔ p.1 = a ∧ a ≤ p.2.1 ∧ Tiles p.2.1 b ps := Iff.rfl

theorem Tiles.singleton {l : γ} (h : a ≤ b) : Tiles a b [(a, b, l)] := ⟨rfl, h, rfl⟩

theorem Tiles.le (h : Tiles a b ps) : a ≤ b := by
  induction ps generalizing a with
  | nil => exact Nat.le_of_eq h
  | cons p ps ih =>
    obtain ⟨-, hle, hps⟩ := tiles_cons.1 h
    exact hle.trans (ih hps)

theorem Tiles.append (h : Tiles a b ps) (h' : Tiles b c qs) : Tiles a c (ps ++ qs) := by
  induction ps generalizing a with
  | nil =>
    rw [tiles_nil] at h
    exact h ▸ h'
  | cons p ps ih =>
    obtain ⟨hp, hle, hps⟩ := tiles_cons.1 h
    exact ⟨hp, hle, ih hps⟩

theorem Tiles.mem (h : Tiles a b ps) {p : Nat × Nat × γ} (hp : p ∈ ps) : a ≤ p.1 ∧ p.1 ≤ p.2.1 ∧ p.2.1 ≤ b := by
  induction ps generalizing a with
  | nil => cases hp
  | cons q ps ih =>
    obtain ⟨hq, hle, hps⟩ := tiles_cons.1 h
    rcases List.mem_cons.1 hp with rfl | hp
    · exact ⟨hq.ge, hq ▸ hle, hps.le⟩
    · obtain ⟨h1, h2, h3⟩ := ih hps hp
      exact ⟨hle.trans h1, h2, h3⟩

/-- Every point covered lies in a piece. -/
theorem Tiles.covers (h : Tiles a b ps) {o : Nat} (ha : a ≤ o) (hb : o < b) : ∃ p ∈ ps, p.1 ≤ o ∧ o < p.2.1 := by
  induction ps generalizing a with
  | nil =>
    rw [tiles_nil] at h
    omega
  | cons p ps ih =>
    obtain ⟨hp, -, hps⟩ := tiles_cons.1 h
    by_cases ho : o < p.2.1
    · exact ⟨p, List.mem_cons_self, hp ▸ ha, ho⟩
    · obtain ⟨q, hq, h1, h2⟩ := ih hps (Nat.le_of_not_lt ho)
      exact ⟨q, List.mem_cons_of_mem _ hq, h1, h2⟩

/-- Each piece may be cut further. -/
theorem Tiles.flatMap {f : Nat × Nat × γ → List (Nat × Nat × δ)} (h : Tiles a b ps)
    (hf : ∀ p ∈ ps, Tiles p.1 p.2.1 (f p)) : Tiles a b (ps.flatMap f) := by
  induction ps generalizing a with
  | nil => exact h
  | cons p ps ih =>
    obtain ⟨hp, -, hps⟩ := tiles_cons.1 h
    rw [List.flatMap_cons]
    have hhead := hf p List.mem_cons_self
    rw [hp] at hhead
    exact hhead.append (ih hps fun q hq => hf q (List.mem_cons_of_mem _ hq))

/-! ### Pieces of a list -/

theorem piece_self (xs : List α) (i : Nat) : piece xs i i = [] := by
  simp [piece]

theorem piece_append (xs : List α) {i j k : Nat} (hij : i ≤ j) (hjk : j ≤ k) :
    piece xs i j ++ piece xs j k = piece xs i k := by
  have hk : k - i = (j - i) + (k - j) := by omega
  have hj : i + (j - i) = j := by omega
  unfold piece
  rw [hk, List.take_add, List.drop_drop, hj]

theorem piece_succ (xs : List α) {i j : Nat} (hij : i ≤ j) (hj : j < xs.length) :
    piece xs i (j + 1) = piece xs i j ++ [xs[j]] := by
  have hone : piece xs j (j + 1) = [xs[j]] := by
    unfold piece
    rw [List.drop_eq_getElem_cons hj, show j + 1 - j = 0 + 1 by omega, List.take_succ_cons, List.take_zero]
  rw [← piece_append xs hij (Nat.le_succ j), hone]

theorem piece_all (xs : List α) : piece xs 0 xs.length = xs := by
  simp [piece]

theorem length_piece (xs : List α) {i j : Nat} (hj : j ≤ xs.length) : (piece xs i j).length = j - i := by
  unfold piece
  rw [List.length_take, List.length_drop]
  omega

/-- The pieces of a tiling concatenate to what it covers. -/
theorem Tiles.flatten (xs : List α) (h : Tiles a b ps) :
    (ps.map fun p => piece xs p.1 p.2.1).flatten = piece xs a b := by
  induction ps generalizing a with
  | nil =>
    rw [tiles_nil] at h
    rw [h, piece_self]
    rfl
  | cons p ps ih =>
    obtain ⟨hp, hle, hps⟩ := tiles_cons.1 h
    rw [List.map_cons, List.flatten_cons, ih hps, hp, piece_append xs hle hps.le]

/-! ### Parts of bounded length -/

/-- Consecutive parts of a list: none is empty or longer than `n`, and there are no more than it takes. -/
structure Parts (n : Nat) (xs : List α) (parts : List (List α)) : Prop where
  flatten : parts.flatten = xs
  part : ∀ p ∈ parts, p ≠ [] ∧ p.length ≤ n
  count : parts.length * n < xs.length + n

theorem parts_go {n : Nat} (xs : List α) (acc : Array α) (done : Array (List α))
    (hdone : ∀ p ∈ done.toList, p.length = n)
    (hpos : 0 < acc.size) (hsize : acc.size ≤ n) :
    Parts n (done.toList.flatten ++ acc.toList ++ xs) (List.toChunks.go n xs acc done) := by
  induction xs generalizing acc done with
  | nil =>
    unfold List.toChunks.go
    rw [Array.toList_push, List.append_nil]
    have hfull : done.toList.flatten.length = done.toList.length * n := by
      rw [List.length_flatten, List.sum_eq_card_nsmul _ n (by simpa using hdone), List.length_map]
      rfl
    constructor
    · simp
    · intro p hp
      rcases List.mem_append.1 hp with hp | hp
      · have hn := hdone p hp
        exact ⟨fun h => by rw [h] at hn; simp at hn; omega, hn.le⟩
      · rw [List.mem_singleton.1 hp]
        exact ⟨fun h => by rw [← Array.length_toList, h] at hpos; exact absurd hpos (Nat.lt_irrefl 0),
          by simpa using hsize⟩
    · have hacc : acc.toList.length = acc.size := Array.length_toList
      rw [List.length_append, List.length_append, hfull, List.length_singleton, Nat.add_mul, hacc]
      omega
  | cons x xs ih =>
    unfold List.toChunks.go
    split
    · rename_i hfull
      have hacc : acc.toList.length = n := by simpa using hfull
      have hnext := ih ((Array.mkEmpty n).push x) (done.push acc.toList) (fun p hp => ?_) (by simp) (by simp; omega)
      · simpa using hnext
      · rw [Array.toList_push] at hp
        rcases List.mem_append.1 hp with hp | hp
        · exact hdone p hp
        · rw [List.mem_singleton.1 hp, hacc]
    · rename_i hfull
      have hne : acc.size ≠ n := by simpa using hfull
      have hnext := ih (acc.push x) done hdone (by simp) (by simp; omega)
      simpa using hnext

theorem parts_toChunks {n : Nat} (hn : 0 < n) (xs : List α) : Parts n xs (xs.toChunks n) := by
  cases xs with
  | nil => exact ⟨rfl, nofun, by simpa [List.toChunks] using hn⟩
  | cons x xs =>
    cases n with
    | zero => exact absurd hn (Nat.lt_irrefl 0)
    | succ n =>
      have hgo := parts_go (n := n + 1) xs #[x] #[] (by simp) (by simp) (by simp)
      unfold List.toChunks
      simpa using hgo

end Tiling
end RepoPilot
