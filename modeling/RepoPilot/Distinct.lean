import Mathlib

/-! # The first distinct elements

`eraseDups` keeps the first of equal elements. When elements are put in between, the first `n` distinct ones
may change: `take_subset_iff` says when none of them is lost. -/

namespace RepoPilot
namespace Distinct

variable {α : Type} [BEq α] [LawfulBEq α]

/-- Elements that are already there add nothing. -/
theorem eraseDups_append (as bs : List α) :
    (as ++ bs).eraseDups = as.eraseDups ++ (bs.filter (· ∉ as)).eraseDups := by
  rw [List.eraseDups_append]
  congr 2
  refine List.filter_congr fun b _ => ?_
  rw [List.elem_eq_mem, decide_not]

theorem nodup_eraseDups (as : List α) : as.eraseDups.Nodup := by
  induction h : as.length using Nat.strong_induction_on generalizing as with
  | _ n ih =>
    cases as with
    | nil => exact List.nodup_nil
    | cons a as =>
      rw [List.eraseDups_cons, List.nodup_cons]
      constructor
      · simp
      · refine ih _ ?_ _ rfl
        have hle := List.length_filter_le (fun b => !b == a) as
        rw [← h, List.length_cons]
        omega

theorem filter_eraseDups (p : α → Bool) (as : List α) : as.eraseDups.filter p = (as.filter p).eraseDups := by
  induction h : as.length using Nat.strong_induction_on generalizing as with
  | _ n ih =>
    cases as with
    | nil => rfl
    | cons a as =>
      have hle := List.length_filter_le (fun b => !b == a) as
      have hrest := ih _ (by rw [← h, List.length_cons]; omega) (as.filter fun b => !b == a) rfl
      rw [List.eraseDups_cons]
      by_cases hp : p a = true
      · rw [List.filter_cons_of_pos hp, List.filter_cons_of_pos hp, List.eraseDups_cons, hrest, List.filter_filter,
          List.filter_filter]
        simp only [Bool.and_comm]
      · rw [List.filter_cons_of_neg hp, List.filter_cons_of_neg hp, hrest, List.filter_filter]
        refine congrArg List.eraseDups (List.filter_congr fun b _ => ?_)
        by_cases hb : b = a
        · rw [hb, Bool.eq_false_iff.2 hp]
          rfl
        · simp [hb]

theorem eraseDups_eq_self {as : List α} (h : as.Nodup) : as.eraseDups = as := by
  induction as with
  | nil => rfl
  | cons a as ih =>
    obtain ⟨ha, has⟩ := List.nodup_cons.1 h
    have hfilter : as.filter (fun b => !b == a) = as := by
      refine List.filter_eq_self.2 fun b hb => ?_
      have hne : b ≠ a := fun he => ha (he ▸ hb)
      simp [hne]
    rw [List.eraseDups_cons, hfilter, ih has]

omit [BEq α] [LawfulBEq α] in
/-- An element of a front part is among the first `n` if it is among the first `n` of the front part. -/
theorem mem_take_of_initial {n : Nat} {front all : List α} (h : front <+: all) (hn : all.Nodup) {a : α}
    (ha : a ∈ front) : a ∈ all.take n ↔ a ∈ front.take n := by
  obtain ⟨rest, rfl⟩ := h
  rw [List.take_append, List.mem_append, or_iff_left]
  intro hrest
  exact (List.nodup_append'.1 hn).2.2 ha (List.mem_of_mem_take hrest)

omit [BEq α] [LawfulBEq α] in
/-- The end of a front part is among the first `n` exactly if the front part is not longer. -/
theorem suffix_subset_take {n : Nat} {front back all : List α} (h : front ++ back <+: all) (hn : all.Nodup)
    (hback : back ≠ []) : (∀ a ∈ back, a ∈ all.take n) ↔ (front ++ back).length ≤ n := by
  constructor
  · intro hall
    have hnodup : (front ++ back).Nodup := hn.sublist h.sublist
    have hlast : back.getLast hback ∈ (front ++ back).take n :=
      (mem_take_of_initial h hn (List.mem_append_right _ (List.getLast_mem hback))).1 (hall _ (List.getLast_mem hback))
    by_contra hlong
    have hsplit : front ++ back = (front ++ back.dropLast) ++ [back.getLast hback] := by
      rw [List.append_assoc, List.dropLast_append_getLast]
    have hlength : (front ++ back).length = (front ++ back.dropLast).length + 1 := by
      rw [hsplit, List.length_append]
      rfl
    rw [hsplit] at hlast hnodup
    rw [List.take_append_of_le_length (by omega)] at hlast
    exact (List.nodup_append'.1 hnodup).2.2 (List.mem_of_mem_take hlast) (List.mem_singleton_self _)
  · intro hle a ha
    have htake : (front ++ back).take n = front ++ back := List.take_of_length_le hle
    have hmem : a ∈ (front ++ back).take n := by
      rw [htake]
      exact List.mem_append_right _ ha
    exact (mem_take_of_initial h hn (List.mem_append_right _ ha)).2 hmem

/-- What is new among the first elements of `as ++ bs` comes first among what is new in `bs`. -/
theorem filter_take_initial (n : Nat) (as hs bs : List α) :
    ((as ++ bs).eraseDups.take n).filter (· ∉ as ++ hs) <+: (bs.filter (· ∉ as ++ hs)).eraseDups := by
  rw [eraseDups_append, List.take_append, List.filter_append]
  have hold : (as.eraseDups.take n).filter (· ∉ as ++ hs) = [] := by
    refine List.filter_eq_nil_iff.2 fun a ha hnot => ?_
    have hmem : a ∈ as := List.mem_eraseDups.1 (List.mem_of_mem_take ha)
    exact of_decide_eq_true hnot (List.mem_append_left _ hmem)
  have hnew : (bs.filter (· ∉ as ++ hs)).eraseDups = ((bs.filter (· ∉ as)).eraseDups).filter (· ∉ as ++ hs) := by
    rw [filter_eraseDups, List.filter_filter]
    refine congrArg List.eraseDups (List.filter_congr fun b _ => ?_)
    simp only [List.mem_append, not_or, Bool.decide_and, Bool.and_comm, Bool.and_self_left]
  rw [hold, hnew, List.nil_append]
  exact (List.take_prefix _ _).filter _

/-- None of the first `n` distinct elements of `as ++ bs` is lost when `hs` and `cs` are put in exactly if they
are among the first `n` of `as ++ hs`, or there are at most `n` of all these. -/
theorem take_subset_iff (n : Nat) (as hs bs cs : List α) :
    (∀ a ∈ (as ++ bs).eraseDups.take n, a ∈ (as ++ hs ++ bs ++ cs).eraseDups.take n) ↔
      (∀ a ∈ (as ++ bs).eraseDups.take n, a ∈ (as ++ hs).eraseDups.take n) ∨
        (as ++ hs ++ (as ++ bs).eraseDups.take n).eraseDups.length ≤ n := by
  have hall : (as ++ hs ++ bs ++ cs).eraseDups = (as ++ hs).eraseDups ++
    ((bs ++ cs).filter (· ∉ as ++ hs)).eraseDups := by
    rw [List.append_assoc (as ++ hs), eraseDups_append]
  have hnodup := nodup_eraseDups (as ++ hs ++ bs ++ cs)
  have hbs : (bs.filter (· ∉ as ++ hs)).eraseDups <+: ((bs ++ cs).filter (· ∉ as ++ hs)).eraseDups := by
    rw [List.filter_append, eraseDups_append]
    exact List.prefix_append _ _
  have hfront : (as ++ hs).eraseDups ++ ((as ++ bs).eraseDups.take n).filter (· ∉ as ++ hs) <+:
      (as ++ hs ++ bs ++ cs).eraseDups := by
    rw [hall, List.prefix_append_right_inj]
    exact (filter_take_initial n as hs bs).trans hbs
  have hold : ∀ a ∈ as ++ hs, a ∈ (as ++ hs ++ bs ++ cs).eraseDups.take n ↔
    a ∈ (as ++ hs).eraseDups.take n := fun a ha =>
    mem_take_of_initial ((List.prefix_append _ _).trans hfront) hnodup (List.mem_eraseDups.2 ha)
  have hunion : (as ++ hs ++ (as ++ bs).eraseDups.take n).eraseDups =
      (as ++ hs).eraseDups ++ ((as ++ bs).eraseDups.take n).filter (· ∉ as ++ hs) := by
    have hnew : (((as ++ bs).eraseDups.take n).filter (· ∉ as ++ hs)).Nodup :=
      ((nodup_eraseDups (as ++ bs)).sublist (List.take_sublist _ _)).filter _
    rw [eraseDups_append (as ++ hs), eraseDups_eq_self hnew]
  rw [hunion]
  constructor
  · intro h
    by_cases hnew : ((as ++ bs).eraseDups.take n).filter (· ∉ as ++ hs) = []
    · refine .inl fun a ha => (hold a ?_).1 (h a ha)
      by_contra hnot
      exact List.filter_eq_nil_iff.1 hnew a ha (decide_eq_true hnot)
    · exact .inr ((suffix_subset_take hfront hnodup hnew).1 fun a ha => h a (List.mem_filter.1 ha).1)
  · rintro (h | h) a ha
    · have hmem : a ∈ as ++ hs := List.mem_eraseDups.1 (List.mem_of_mem_take (h a ha))
      exact (hold a hmem).2 (h a ha)
    · have hmem : a ∈ (as ++ hs).eraseDups ++ ((as ++ bs).eraseDups.take n).filter (· ∉ as ++ hs) := by
        by_cases hold : a ∈ as ++ hs
        · exact List.mem_append_left _ (List.mem_eraseDups.2 hold)
        · exact List.mem_append_right _ (List.mem_filter.2 ⟨ha, decide_eq_true hold⟩)
      refine (mem_take_of_initial hfront hnodup hmem).2 ?_
      rw [List.take_of_length_le h]
      exact hmem

end Distinct
end RepoPilot
