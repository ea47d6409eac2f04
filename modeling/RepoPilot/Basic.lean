import Mathlib

/-! # Identifiers, times, texts and statuses -/

namespace RepoPilot

/-- A UUID; only equality and the order of ties matter. -/
abbrev Uuid := Nat

/-- A timestamp in microseconds. -/
abbrev Time := Int

/-- A Python string as its code points. -/
abbrev Text := List Char

def seconds (n : Nat) : Time := (n * 1000000 : Nat)

def hours (n : Nat) : Time := seconds (n * 3600)

theorem seconds_pos {n : Nat} (h : 0 < n) : 0 < seconds n :=
  Int.natCast_pos.2 (Nat.mul_pos h (by decide))

/-- The characters `[i, j)` of `s`. -/
def slice (s : Text) (i j : Nat) : Text := (s.drop i).take (j - i)

/-- The five statuses of jobs and answer runs. -/
inductive Status
  | queued | running | completed | failed | cancelled
  deriving DecidableEq, Repr

namespace Status

/-- `status IN ('queued', 'running')`. -/
def Active (s : Status) : Prop := s = .queued ∨ s = .running

def Terminal (s : Status) : Prop := s = .completed ∨ s = .failed ∨ s = .cancelled

instance (s : Status) : Decidable s.Active := inferInstanceAs (Decidable (_ ∨ _))

instance (s : Status) : Decidable s.Terminal := inferInstanceAs (Decidable (_ ∨ _ ∨ _))

theorem terminal_iff_not_active {s : Status} : s.Terminal ↔ ¬ s.Active := by
  cases s <;> decide

end Status

/-- Search modes. -/
inductive Mode
  | keyword | hybrid
  deriving DecidableEq, Repr

/-- An application error: its code, its message and the HTTP status. -/
structure AppError where
  code : String
  message : String
  status : Nat
  deriving DecidableEq, Repr

/-- What a Python coroutine of this program may raise. -/
inductive Raised
  | app (error : AppError)
  | importFailure (code message : String) (retryable : Bool)
  | leaseLost
  | timeout
  | other
  deriving DecidableEq

/-- The transaction raises when `p` holds. -/
def refuse (p : Prop) [Decidable p] (e : AppError) : Except Raised Unit :=
  if p then .error (.app e) else .ok ()

/-- An error that no handler expects, unless `p`. -/
def demand (p : Prop) [Decidable p] : Except Raised Unit := if p then .ok () else .error .other

/-- The answer of the rate limiter. -/
def check (limit : Option AppError) : Except Raised Unit :=
  match limit with
  | some e => .error (.app e)
  | none => .ok ()

/-- An application error inside a coroutine. -/
def lift {α : Type} (x : Except AppError α) : Except Raised α := x.mapError .app

section Except
variable {α β : Type}

theorem bind_ok {x : Except Raised α} {f : α → Except Raised β} {r : β} :
    (x >>= f) = .ok r ↔ ∃ a, x = .ok a ∧ f a = .ok r := by
  cases x with
  | error e =>
    constructor
    · intro h; cases h
    · rintro ⟨a, h, -⟩; cases h
  | ok a =>
    constructor
    · intro h; exact ⟨a, rfl, h⟩
    · rintro ⟨b, h, hf⟩; cases h; exact hf

theorem refuse_ok {p : Prop} [Decidable p] {e : AppError} {u : Unit} : refuse p e = .ok u ↔ ¬ p := by
  unfold refuse
  split <;> rename_i hp
  · exact ⟨nofun, fun h => absurd hp h⟩
  · exact ⟨fun _ => hp, fun _ => rfl⟩

theorem demand_ok {p : Prop} [Decidable p] {u : Unit} : demand p = .ok u ↔ p := by
  unfold demand
  split <;> rename_i hp
  · exact ⟨fun _ => hp, fun _ => rfl⟩
  · exact ⟨nofun, fun h => absurd h hp⟩

/-- What every step of a fold keeps holds after the fold. -/
theorem foldlM_keeps {β : Type} {P : β → Prop} {f : β → α → Except Raised β} {xs : List α} {b b' : β}
    (hf : ∀ b, ∀ x ∈ xs, ∀ b', P b → f b x = .ok b' → P b') (hb : P b) (h : xs.foldlM f b = .ok b') : P b' := by
  induction xs generalizing b with
  | nil =>
    cases h
    exact hb
  | cons x xs ih =>
    rw [List.foldlM_cons, bind_ok] at h
    obtain ⟨b₁, h₁, h⟩ := h
    exact ih (fun b y hy => hf b y (List.mem_cons_of_mem _ hy)) (hf b x List.mem_cons_self b₁ hb h₁) h

theorem lift_ok {x : Except AppError α} {a : α} : lift x = .ok a ↔ x = .ok a := by
  cases x <;> simp [lift, Except.mapError]

theorem exists_ok {ε : Type} {x : Except ε α} (h : x.toOption.isSome = true) : ∃ a, x = .ok a := by
  cases x with
  | error e => cases h
  | ok a => exact ⟨a, rfl⟩

end Except

/-- A nullable time column that is set and lies before `now` (`column < now` in SQL). -/
def Past (o : Option Time) (now : Time) : Prop := ∃ t, o = some t ∧ t < now

instance (o : Option Time) (now : Time) : Decidable (Past o now) :=
  decidable_of_iff (o.any (· < now) = true) (by cases o <;> simp [Past])

/-- A nullable time column that is set and lies after `now` (`column > now` in SQL). -/
def Future (o : Option Time) (now : Time) : Prop := ∃ t, o = some t ∧ now < t

instance (o : Option Time) (now : Time) : Decidable (Future o now) :=
  decidable_of_iff (o.any (now < ·) = true) (by cases o <;> simp [Future])

theorem Past.mono {o : Option Time} {now now' : Time} (h : Past o now) (hn : now ≤ now') : Past o now' :=
  let ⟨t, ht, hlt⟩ := h
  ⟨t, ht, lt_of_lt_of_le hlt hn⟩

end RepoPilot
