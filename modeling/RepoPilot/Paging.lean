import Mathlib

/-! # Reading a list by offset and limit

A server that holds a list of rows serves a page of it and the offset of the next page. A client that follows the
offsets comes to the end, and its pages are the rows in order, as long as the server keeps answering from the same
rows; it may answer each request in a different state, and any request may fail. -/

namespace RepoPilot
namespace Paging
variable {α β ρ ε : Type}

/-- The page of `limit` rows at `offset`, and the offset of the next one. -/
def page (limit : Nat) (rows : List α) (offset : Nat) : List α × Option Nat :=
  ((rows.drop offset).take limit, if offset + limit < rows.length then some (offset + limit) else none)

/-- A client that starts at `offset` with its `n`-th request; `none` when it is not at the end after so many. -/
def walk (request : Nat → Nat → Except ε ρ) (next : ρ → Option Nat) :
    Nat → Nat → Nat → Option (Except ε (List ρ))
  | 0, _, _ => none
  | requests + 1, n, offset =>
    match request n offset with
    | .error e => some (.error e)
    | .ok p =>
      match next p with
      | none => some (.ok [p])
      | some o => (walk request next requests (n + 1) o).map (·.map (p :: ·))

theorem page_map (f : α → β) (limit : Nat) (rows : List α) (offset : Nat) :
    page limit (rows.map f) offset = (((page limit rows offset).1).map f, (page limit rows offset).2) := by
  simp [page, List.map_take, List.map_drop]

/-- A server that reads one row more than it returns knows whether there is a next page. -/
theorem page_of_lookahead (limit : Nat) (rows : List α) (offset : Nat) :
    (((rows.drop offset).take (limit + 1)).take limit,
      if limit < ((rows.drop offset).take (limit + 1)).length then some (offset + limit) else none) =
        page limit rows offset := by
  unfold page
  rw [List.take_take, Nat.min_eq_left (Nat.le_succ limit), List.length_take, List.length_drop]
  congr 1
  by_cases h : offset + limit < rows.length
  · rw [if_pos h, if_pos (by omega)]
  · rw [if_neg h, if_neg (by omega)]

theorem page_length_le (limit : Nat) (rows : List α) (offset : Nat) : (page limit rows offset).1.length ≤ limit :=
  List.length_take_le _ _

/-- Where a client stops: at an error of a request, or with pages that are the rows from `offset` on. -/
def Ends (request : Nat → Nat → Except ε ρ) (items : ρ → List α) (rows : List α) (offset : Nat) :
    Except ε (List ρ) → Prop
  | .ok pages => (pages.flatMap items) = rows.drop offset ∧ pages ≠ [] ∧ ∀ p ∈ pages, ∃ n o, request n o = .ok p
  | .error e => ∃ n o, o ≤ rows.length ∧ request n o = .error e

/-- Enough requests come to the end. After the first request the rows need only be the same while there are any. -/
theorem walk_ends {request : Nat → Nat → Except ε ρ} {items : ρ → List α} {next : ρ → Option Nat} {limit : Nat}
    {rows : List α}
    (hpage : ∀ n o p, n = 0 ∨ o < rows.length → request n o = .ok p → (items p, next p) = page limit rows o)
    (requests n offset : Nat) (hoffset : offset ≤ rows.length) (hn : n = 0 ∨ offset < rows.length)
    (hrequests : 0 < requests) (henough : rows.length ≤ offset + limit * requests) :
    ∃ result, walk request next requests n offset = some result ∧ Ends request items rows offset result := by
  induction requests generalizing n offset with
  | zero => omega
  | succ requests ih =>
    unfold walk
    cases hr : request n offset with
    | error e => exact ⟨.error e, rfl, n, offset, hoffset, hr⟩
    | ok p =>
      obtain ⟨hitems, hnext⟩ := Prod.mk.inj (hpage n offset p hn hr)
      dsimp only
      by_cases hmore : offset + limit < rows.length
      · rw [if_pos hmore] at hnext
        rw [hnext]
        have hroom : 0 < requests := by
          rcases Nat.eq_zero_or_pos requests with rfl | h
          · omega
          · exact h
        have hleft : rows.length ≤ offset + limit + limit * requests := by
          rw [Nat.mul_succ] at henough
          omega
        obtain ⟨result, hwalk, hends⟩ := ih (n + 1) (offset + limit) hmore.le (.inr hmore) hroom hleft
        dsimp only
        rw [hwalk]
        cases result with
        | error e => exact ⟨.error e, rfl, hends⟩
        | ok pages =>
          obtain ⟨hflat, -, hall⟩ := hends
          refine ⟨.ok (p :: pages), rfl, ?_, List.cons_ne_nil _ _, List.forall_mem_cons.2 ⟨⟨n, offset, hr⟩, hall⟩⟩
          rw [List.flatMap_cons, hflat, hitems, ← List.drop_drop]
          exact List.take_append_drop limit _
      · rw [if_neg hmore] at hnext
        rw [hnext]
        refine ⟨.ok [p], rfl, ?_, List.cons_ne_nil _ _, List.forall_mem_singleton.2 ⟨n, offset, hr⟩⟩
        rw [List.flatMap_singleton, hitems]
        exact List.take_of_length_le (by rw [List.length_drop]; omega)

/-- From the start, one request for each full page and one more are enough. -/
theorem walk_from_start {request : Nat → Nat → Except ε ρ} {items : ρ → List α} {next : ρ → Option Nat} {limit : Nat}
    {rows : List α}
    (hpage : ∀ n o p, n = 0 ∨ o < rows.length → request n o = .ok p → (items p, next p) = page limit rows o)
    {requests : Nat} (hrequests : 0 < requests) (henough : rows.length ≤ limit * requests) :
    ∃ result, walk request next requests 0 0 = some result ∧ Ends request items rows 0 result :=
  walk_ends hpage requests 0 0 (Nat.zero_le _) (.inl rfl) hrequests (by rwa [Nat.zero_add])

end Paging
end RepoPilot
