import Mathlib

/-! # Machines and their runs

A machine has one initial state and a total step function: an action that is not enabled in a state
leaves it alone, so every list of actions is a run and every interleaving of several parties is some
list. The rules below are the only inductions over runs: an invariant of every state, a relation
between the two ends of a run, and an invariant of a state together with the values an observation
took on the way there. -/

namespace RepoPilot

/-- A deterministic machine; nondeterminism is in the choice of actions. -/
structure Machine (σ α : Type) where
  init : σ
  step : σ → α → σ

namespace Machine
variable {σ α β : Type} (m : Machine σ α)

/-- The state after the actions `acts`, started in `s`. -/
def exec (s : σ) (acts : List α) : σ := acts.foldl m.step s

/-- The state after the actions `acts`. -/
def run (acts : List α) : σ := m.exec m.init acts

@[simp] theorem exec_nil (s : σ) : m.exec s [] = s := rfl

@[simp] theorem exec_cons (s : σ) (a : α) (acts : List α) :
    m.exec s (a :: acts) = m.exec (m.step s a) acts := rfl

theorem exec_append (s : σ) (as bs : List α) : m.exec s (as ++ bs) = m.exec (m.exec s as) bs :=
  List.foldl_append

theorem run_append (as bs : List α) : m.run (as ++ bs) = m.exec (m.run as) bs :=
  m.exec_append _ _ _

variable {m}

theorem exec_invariant {P : σ → Prop} {ok : α → Prop} (hs : ∀ s a, ok a → P s → P (m.step s a)) {s : σ}
    (h : P s) {acts : List α} (hok : ∀ a ∈ acts, ok a) : P (m.exec s acts) := by
  induction acts generalizing s with
  | nil => exact h
  | cons a acts ih =>
    exact ih (hs s a (hok a List.mem_cons_self) h) fun b hb => hok b (List.mem_cons_of_mem _ hb)

/-- What every step keeps holds after every run. -/
theorem exec_always {P : σ → Prop} (hs : ∀ s a, P s → P (m.step s a)) {s : σ} (h : P s) (acts : List α) :
    P (m.exec s acts) := by
  induction acts generalizing s with
  | nil => exact h
  | cons a acts ih => exact ih (hs s a h)

/-- What holds at the start and is kept by every step holds in every reachable state. -/
theorem invariant {P : σ → Prop} (h0 : P m.init) (hs : ∀ s a, P s → P (m.step s a)) (acts : List α) :
    P (m.run acts) :=
  exec_always hs h0 acts

/-- The same for the runs all of whose actions satisfy `ok`. -/
theorem invariant_of {P : σ → Prop} {ok : α → Prop} (h0 : P m.init)
    (hs : ∀ s a, ok a → P s → P (m.step s a)) {acts : List α} (hok : ∀ a ∈ acts, ok a) : P (m.run acts) :=
  exec_invariant hs h0 hok

/-- Every action of `acts` meets the condition in the state it is taken in. -/
def Along (m : Machine σ α) (ok : σ → α → Prop) (s : σ) : List α → Prop
  | [] => True
  | a :: acts => ok s a ∧ Along m ok (m.step s a) acts

instance Along.decidable (m : Machine σ α) (ok : σ → α → Prop) [∀ s a, Decidable (ok s a)] :
    ∀ s acts, Decidable (m.Along ok s acts)
  | _, [] => isTrue trivial
  | s, a :: acts =>
    have := Along.decidable m ok (m.step s a) acts
    inferInstanceAs (Decidable (ok s a ∧ m.Along ok (m.step s a) acts))

/-- The same for a condition on the state an action is taken in. -/
theorem along_invariant {P : σ → Prop} {ok : σ → α → Prop} (hs : ∀ s a, ok s a → P s → P (m.step s a)) {s : σ}
    (h : P s) {acts : List α} (hok : m.Along ok s acts) : P (m.exec s acts) := by
  induction acts generalizing s with
  | nil => exact h
  | cons a acts ih => exact ih (hs s a hok.1 h) hok.2

/-- The same when every state on the way satisfies `Q`. -/
theorem invariant_while {P Q : σ → Prop} (h0 : P m.init) (hs : ∀ s a, Q s → P s → P (m.step s a)) {acts : List α}
    (hq : ∀ pre, pre <+: acts → Q (m.run pre)) : P (m.run acts) := by
  have hpre : ∀ pre, pre <+: acts → P (m.run pre) := by
    intro pre
    induction pre using List.reverseRecOn with
    | nil => exact fun _ => h0
    | append_singleton pre a ih =>
      intro h
      have h' : pre <+: acts := (List.prefix_append pre [a]).trans h
      rw [run_append]
      exact hs _ a (hq pre h') (ih h')
  exact hpre acts (List.prefix_refl acts)

/-- A preorder every step from a good state moves along relates the two ends of every run. -/
theorem relates {P : σ → Prop} {R : σ → σ → Prop} (hP : ∀ s a, P s → P (m.step s a))
    (refl : ∀ s, R s s) (trans : ∀ {s t u}, R s t → R t u → R s u)
    (hR : ∀ s a, P s → R s (m.step s a)) {s : σ} (h : P s) (acts : List α) : R s (m.exec s acts) := by
  induction acts generalizing s with
  | nil => exact refl s
  | cons a acts ih => exact trans (hR s a h) (ih (hP s a h))

/-- The state `t` comes after `s` in some run. -/
def Reaches (m : Machine σ α) (s t : σ) : Prop := ∃ acts, m.exec s acts = t

theorem Reaches.refl (s : σ) : m.Reaches s s := ⟨[], rfl⟩

theorem Reaches.step {s t : σ} (h : m.Reaches s t) (a : α) : m.Reaches s (m.step t a) := by
  obtain ⟨acts, rfl⟩ := h
  exact ⟨acts ++ [a], m.exec_append s acts [a]⟩

/-! ### The values an observation took -/

/-- Record a value that has appeared or changed; forget the past of what is gone. -/
def note [DecidableEq β] (before after : Option β) (past : List β) : List β :=
  match after with
  | none => []
  | some b => if before = some b then past else past ++ [b]

section Note
variable [DecidableEq β] {before : Option β} {b : β} (past : List β)

theorem note_none : note before none past = [] := rfl

theorem note_same : note (some b) (some b) past = past := if_pos rfl

theorem note_of_ne (h : before ≠ some b) : note before (some b) past = past ++ [b] := if_neg h

end Note

/-- The successive distinct values of `obs` on the run of `acts` from `s`, after `past`. -/
def trail [DecidableEq β] (m : Machine σ α) (obs : σ → Option β) (past : List β) (s : σ) : List α → List β
  | [] => past
  | a :: acts => trail m obs (note (obs s) (obs (m.step s a)) past) (m.step s a) acts

/-- The successive distinct values of `obs` on the run of `acts`. -/
def history [DecidableEq β] (m : Machine σ α) (obs : σ → Option β) (acts : List α) : List β :=
  m.trail obs (note none (obs m.init) []) m.init acts

theorem trail_invariant [DecidableEq β] {obs : σ → Option β} {P : σ → Prop} {Q : σ → List β → Prop}
    (hP : ∀ s a, P s → P (m.step s a))
    (hQ : ∀ s a past, P s → Q s past → Q (m.step s a) (note (obs s) (obs (m.step s a)) past))
    {s : σ} {past : List β} (h : P s) (hq : Q s past) (acts : List α) :
    Q (m.exec s acts) (m.trail obs past s acts) := by
  induction acts generalizing s past with
  | nil => exact hq
  | cons a acts ih => exact ih (hP s a h) (hQ s a past h hq)

/-! ### Watching a run -/

/-- The machine with a record that every action adds to. -/
def watch (m : Machine σ α) (note : σ → α → β → β) (b : β) : Machine (σ × β) α :=
  ⟨(m.init, b), fun p a => (m.step p.1 a, note p.1 a p.2)⟩

/-- A record does not change the run. -/
theorem watch_run (m : Machine σ α) (note : σ → α → β → β) (b : β) (acts : List α) :
    ((m.watch note b).run acts).1 = m.run acts := by
  have hexec : ∀ (acts : List α) (p : σ × β), ((m.watch note b).exec p acts).1 = m.exec p.1 acts := by
    intro acts
    induction acts with
    | nil => exact fun _ => rfl
    | cons a acts ih => exact fun p => ih _
  exact hexec acts _

end Machine
end RepoPilot
