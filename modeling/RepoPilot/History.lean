import RepoPilot.Generation

/-! # Which turns are remembered

`bounded_history` and `build_context` both drop the oldest turns until the rest fits. What is kept is the
longest end of the turns that fits, whatever the count of tokens is; so keeping it again changes nothing. -/

namespace RepoPilot

/-! ### The longest end that passes -/

/-- `kept` is the longest end of `all` that passes. -/
structure Longest {α : Type} (P : List α → Prop) (all kept : List α) : Prop where
  ending : kept <:+ all
  passes : P kept
  longest : ∀ other, other <:+ all → P other → other.length ≤ kept.length

namespace Longest
variable {α : Type} {P : List α → Prop} {all kept other : List α} {x : α}

theorem self (h : P all) : Longest P all all := ⟨List.suffix_refl _, h, fun _ ho _ => ho.length_le⟩

theorem unique (h : Longest P all kept) (h' : Longest P all other) : kept = other := by
  have hlength : kept.length = other.length :=
    Nat.le_antisymm (h'.longest _ h.ending h.passes) (h.longest _ h'.ending h'.passes)
  obtain ⟨_, ha⟩ := h.ending
  obtain ⟨_, hb⟩ := h'.ending
  exact (List.append_inj' (ha.trans hb.symm) hlength).2

/-- If the whole does not pass, the first element may go. -/
theorem cons (hx : ¬ P (x :: all)) (h : Longest P all kept) : Longest P (x :: all) kept := by
  refine ⟨h.ending.trans (List.suffix_cons _ _), h.passes, fun other ho hp => ?_⟩
  rcases List.suffix_cons_iff.1 ho with rfl | ho
  · exact absurd hp hx
  · exact h.longest other ho hp

/-- What is kept stays when it is bounded again. -/
theorem idem {f : List α → List α} (h : ∀ xs, Longest P xs (f xs)) (xs : List α) : f (f xs) = f xs :=
  (h (f xs)).unique (.self (h xs).passes)

end Longest

namespace Generation
variable (env : Env)

/-! ### `bounded_history` -/

/-- The bounds of the history. -/
def Within (turns : List HistoryTurn) : Prop :=
  turns.length ≤ 3 ∧ historyTokens env turns ≤ 1000 ∧ Source.utf8Length (historyJson turns) ≤ 8192

variable {env} {turns : List HistoryTurn}

theorem within_nil : Within env [] := ⟨Nat.zero_le _, Nat.zero_le _, by decide⟩

theorem fit_longest (env : Env) (h : turns.length ≤ 3) : Longest (Within env) turns (fit env turns) := by
  induction turns with
  | nil => exact .self within_nil
  | cons t ts ih =>
    rw [List.length_cons] at h
    unfold fit
    split
    · rename_i hlarge
      refine (ih (by omega)).cons fun hw => ?_
      obtain ⟨-, htokens, hbytes⟩ := hw
      omega
    · rename_i hsmall
      refine .self ⟨h, ?_, ?_⟩ <;> omega

/-- Three turns are the longest end of at most three. -/
theorem suffix_drop {other : List HistoryTurn} (h : other <:+ turns) (hlength : other.length ≤ 3) :
    other <:+ turns.drop (turns.length - 3) := by
  refine List.suffix_of_suffix_length_le h (List.drop_suffix _ _) ?_
  rw [List.length_drop]
  have hle := h.length_le
  omega

/-- `bounded_history` keeps the longest end within the bounds. -/
theorem boundedHistory_longest (env : Env) (turns : List HistoryTurn) :
    Longest (Within env) turns (boundedHistory env turns) := by
  have hshort : (turns.drop (turns.length - 3)).length ≤ 3 := by
    rw [List.length_drop]
    omega
  have hfit := fit_longest env hshort
  exact ⟨hfit.ending.trans (List.drop_suffix _ _), hfit.passes,
    fun other ho hw => hfit.longest other (suffix_drop ho hw.1) hw⟩

theorem boundedHistory_idem (env : Env) (turns : List HistoryTurn) :
    boundedHistory env (boundedHistory env turns) = boundedHistory env turns :=
  Longest.idem (boundedHistory_longest env) turns

/-! ### `build_context` -/

/-- The payload with these turns fits. -/
def Packed (env : Env) (question : Text) (evidence : List Evidence) (turns : List HistoryTurn) : Prop :=
  Fits env (payload question evidence turns)

def contextLimit : AppError := ⟨"answer_context_limit", "Retrieved context exceeds the answer limit.", 422⟩

/-- `pack` keeps the longest end that fits, or none does. -/
theorem pack_cases (env : Env) (question : Text) (evidence : List Evidence) (turns : List HistoryTurn) :
    (∃ kept, pack env question evidence turns = .ok (payload question evidence kept, kept) ∧
        Longest (Packed env question evidence) turns kept) ∨
      pack env question evidence turns = .error contextLimit ∧ ∀ kept, kept <:+ turns →
        ¬ Packed env question evidence kept := by
  induction turns with
  | nil =>
    unfold pack
    split
    · rename_i hfits
      exact .inl ⟨[], rfl, .self hfits⟩
    · rename_i hfits
      refine .inr ⟨rfl, fun kept hk => ?_⟩
      rwa [List.suffix_nil.1 hk]
  | cons t ts ih =>
    unfold pack
    split
    · rename_i hfits
      exact .inl ⟨t :: ts, rfl, .self hfits⟩
    · rename_i hfits
      refine ih.imp (fun ⟨kept, hpack, hlongest⟩ => ⟨kept, hpack, hlongest.cons hfits⟩) fun ⟨hpack, hnone⟩ =>
        ⟨hpack, ?_⟩
      intro kept hk
      rcases List.suffix_cons_iff.1 hk with rfl | hk
      · exact hfits
      · exact hnone kept hk

/-- What the payload reads as. -/
def payloadOf (question : Text) (evidence : List Evidence) (turns : List HistoryTurn) : Json :=
  .obj [("question".toList, .str question), ("evidence".toList, .arr (evidence.map Retrieval.Evidence.dump)),
    ("conversation_history".toList, .arr (turns.map turnDump))]

/-- For every count of tokens: the payload holds the whole question, all evidence and the longest end of the
bounded history that fits; there is an error exactly if no end of it fits; and the bounded history is the longest
end within its bounds, so that bounding it again changes neither it nor the context. -/
theorem buildContext_longest (env : Env) (question : Text) (evidence : List Evidence) (history : List HistoryTurn) :
    (∀ text kept, buildContext env question evidence history = .ok (text, kept) →
        Json.parse text = some (payloadOf question evidence kept) ∧
          Longest (fun turns => Fits env (payload question evidence turns)) (boundedHistory env history) kept) ∧
      (∀ e, buildContext env question evidence history = .error e → e = contextLimit) ∧
      ((∃ e, buildContext env question evidence history = .error e) ↔
        ∀ kept, kept <:+ boundedHistory env history → ¬ Fits env (payload question evidence kept)) ∧
      Longest (Within env) history (boundedHistory env history) ∧
      boundedHistory env (boundedHistory env history) = boundedHistory env history ∧
      buildContext env question evidence (boundedHistory env history) = buildContext env question evidence history := by
  have hidem := boundedHistory_idem env history
  have hagain : buildContext env question evidence (boundedHistory env history) =
    buildContext env question evidence history := by
    unfold buildContext
    rw [hidem]
  have hcases := pack_cases env question evidence (boundedHistory env history)
  have hpack : buildContext env question evidence history = pack env question evidence (boundedHistory env history) := rfl
  rw [← hpack] at hcases
  refine ⟨?_, ?_, ?_, boundedHistory_longest env history, hidem, hagain⟩
  · intro text kept hok
    rcases hcases with ⟨kept', hok', hlongest⟩ | ⟨herror, -⟩
    · rw [hok'] at hok
      cases hok
      exact ⟨Json.parse_dumps _ _, hlongest⟩
    · rw [herror] at hok
      cases hok
  · intro e he
    rcases hcases with ⟨kept, hok, -⟩ | ⟨herror, -⟩
    · rw [hok] at he
      cases he
    · rw [herror] at he
      cases he
      rfl
  · rcases hcases with ⟨kept, hok, hlongest⟩ | ⟨herror, hnone⟩
    · refine iff_of_false (fun ⟨e, he⟩ => ?_) fun hnone => hnone kept hlongest.ending hlongest.passes
      rw [hok] at he
      cases he
    · exact iff_of_true ⟨_, herror⟩ hnone

/-- One turn. -/
def recent : HistoryTurn := ⟨1, ['q'], ['a'], by decide, by decide⟩

/-- Counts too many tokens without history only. -/
def uneven : Env :=
  { Env.plain with
    encode := fun text => if text = payload ['q'] [] [] then List.replicate 8001 0 else [] }

set_option maxRecDepth 2000 in
/-- The payload without history does not fit, the longer one with a turn does. -/
theorem not_error_iff_empty :
    ¬ ∀ (env : Env) (question : Text) (evidence : List Evidence) (history : List HistoryTurn),
      (∃ e, buildContext env question evidence history = .error e) ↔ ¬ Fits env (payload question evidence []) := by
  intro h
  have hempty : ¬ Fits uneven (payload ['q'] [] []) := by
    rintro ⟨-, htokens⟩
    have hcount : uneven.countTokens (uneven.instructions ++ payload ['q'] [] []) = 8001 := by
      change (if payload ['q'] [] [] = payload ['q'] [] [] then List.replicate 8001 0 else []).length = 8001
      rw [if_pos rfl, List.length_replicate]
    omega
  have hbounded : boundedHistory uneven [recent] = [recent] := by
    have hjson : ¬ historyJson [recent] = payload ['q'] [] [] := by decide
    have htokens : historyTokens uneven [recent] = 0 := by
      change (if historyJson [recent] = payload ['q'] [] [] then List.replicate 8001 0 else []).length = 0
      rw [if_neg hjson]
      rfl
    have hbytes : Source.utf8Length (historyJson [recent]) ≤ 8192 := by decide
    have hfit : fit uneven [recent] = [recent] := by
      unfold fit
      rw [if_neg (by omega)]
    exact hfit
  have hfits : Fits uneven (payload ['q'] [] [recent]) := by
    have hpayload : ¬ payload ['q'] [] [recent] = payload ['q'] [] [] := by decide
    refine ⟨by decide, ?_⟩
    change (if payload ['q'] [] [recent] = payload ['q'] [] [] then List.replicate 8001 0 else []).length ≤ 8000
    rw [if_neg hpayload]
    exact Nat.zero_le _
  obtain ⟨e, he⟩ := (h uneven ['q'] [] [recent]).2 hempty
  unfold buildContext at he
  rw [hbounded] at he
  unfold pack at he
  rw [if_pos hfits] at he
  cases he

end Generation
end RepoPilot
