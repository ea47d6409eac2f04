import RepoPilot.Machine
import RepoPilot.Table

/-! # Screens that poll

A screen asks a server for a value again and again. Every run of its effect is a loop of its own: it asks, shows the
answer, sleeps and asks again. A refresh ends the loop and begins another one, while answers to the loop that has ended
are still on their way. What a screen shows in the course of time are the answers of successive states of the server
(`history_moments`), and until its session has expired one loop is at work (`awake`). -/

namespace RepoPilot

/-- What a screen asks for, and how it takes the answers. -/
structure Poller (σ β ε : Type) where
  answer : σ → Except ε β
  /-- The session of the user is over. -/
  expires : ε → Bool
  /-- The milliseconds until it asks again. -/
  delay : β → Nat
  /-- What it says when it got an error, or no answer. -/
  message : Option ε → String

namespace Poller
variable {σ α β ε : Type}

/-- One run of the effect; its request is under way, perhaps with the answer on the way back. -/
structure Loop (β ε : Type) where
  active : Bool
  timer : Option Nat
  request : Option (Option (Except ε β))

namespace Loop

def begun : Loop β ε := ⟨true, none, some none⟩

/-- After its cleanup. -/
def ended (l : Loop β ε) : Loop β ε := { l with active := false, timer := none }

end Loop

structure Screen (σ β ε : Type) where
  server : σ
  loops : List (Loop β ε)
  shown : Option β
  error : Option String
  expired : Bool

inductive Action (α ε : Type)
  | server (action : α)
  | refresh
  | wake (loop : Nat)
  | serve (loop : Nat)
  | turnAway (loop : Nat) (error : ε)
  | receive (loop : Nat)
  | lose (loop : Nat)

/-- The `i`-th loop goes on after its request. -/
def settled (p : Poller σ β ε) (s : Screen σ β ε) (i : Nat) (l : Loop β ε) (result : Option (Except ε β)) :
    Screen σ β ε :=
  if l.active = false then { s with loops := s.loops.set i { l with request := none } }
  else
    match result with
    | some (.ok v) =>
      { s with
        loops := s.loops.set i { l with request := none, timer := some (p.delay v) }
        shown := some v
        error := none }
    | some (.error e) =>
      if p.expires e then
        -- the screen is taken down
        { s with loops := (s.loops.set i { l with request := none }).map Loop.ended, expired := true }
      else
        { s with
          loops := s.loops.set i { l with request := none, timer := some 5000 }
          error := some (p.message (some e)) }
    | none =>
      { s with
        loops := s.loops.set i { l with request := none, timer := some 5000 }
        error := some (p.message none) }

def step (m : Machine σ α) (p : Poller σ β ε) (s : Screen σ β ε) : Action α ε → Screen σ β ε
  | .server a => { s with server := m.step s.server a }
  | .refresh => if s.expired then s else { s with loops := s.loops.map Loop.ended ++ [.begun] }
  | .wake i =>
    match s.loops[i]? with
    | some ⟨active, some _, _⟩ => { s with loops := s.loops.set i ⟨active, none, some none⟩ }
    | _ => s
  | .serve i =>
    match s.loops[i]? with
    | some ⟨active, timer, some none⟩ =>
      { s with loops := s.loops.set i ⟨active, timer, some (some (p.answer s.server))⟩ }
    | _ => s
  | .turnAway i e =>
    match s.loops[i]? with
    | some ⟨active, timer, some none⟩ => { s with loops := s.loops.set i ⟨active, timer, some (some (.error e))⟩ }
    | _ => s
  | .receive i =>
    match s.loops[i]? with
    | some ⟨active, timer, some (some result)⟩ => p.settled s i ⟨active, timer, some (some result)⟩ (some result)
    | _ => s
  | .lose i =>
    match s.loops[i]? with
    | some ⟨active, timer, some request⟩ => p.settled s i ⟨active, timer, some request⟩ none
    | _ => s

/-- The screen from its mounting on. -/
def machine (m : Machine σ α) (p : Poller σ β ε) (server : σ) : Machine (Screen σ β ε) (Action α ε) :=
  ⟨⟨server, [.begun], none, none, false⟩, step m p⟩

variable {m : Machine σ α} {p : Poller σ β ε} {s : Screen σ β ε} {server : σ} {i : Nat} {l l' : Loop β ε}

/-! ### One loop is at work -/

theorem map_set_eq {γ δ : Type} {t : List γ} {f : γ → δ} {x x' : γ} (h : t[i]? = some x) (hf : f x' = f x) :
    (t.set i x').map f = t.map f := by
  obtain ⟨hi, rfl⟩ := List.getElem?_eq_some_iff.1 h
  rw [List.map_set, hf, ← List.getElem_map f (h := by simpa using hi)]
  exact List.set_getElem_self _

/-- Only the last loop may be active; an ended one has no timer, an active one either a timer or a request. -/
structure Awake (s : Screen σ β ε) : Prop where
  loops : s.loops.map (·.active) = List.replicate (s.loops.length - 1) false ++ [!s.expired]
  timers : ∀ l ∈ s.loops, l.active = false → l.timer = none
  busy : ∀ l ∈ s.loops, l.active = true → (l.timer.isSome ↔ l.request = none)

theorem Awake.mounted (server : σ) : Awake (⟨server, [Loop.begun], none, none, false⟩ : Screen σ β ε) :=
  ⟨rfl, by simp [Loop.begun], by simp [Loop.begun]⟩

/-- A loop goes on. -/
theorem Awake.set (h : Awake s) (hl : s.loops[i]? = some l) (l' : Loop β ε) (hact : l'.active = l.active)
    (htimer : l'.active = false → l'.timer = none) (hbusy : l'.active = true → (l'.timer.isSome ↔ l'.request = none))
    (shown : Option β) (error : Option String) :
    Awake { s with loops := s.loops.set i l', shown := shown, error := error } := by
  refine ⟨?_, fun x hx => ?_, fun x hx => ?_⟩
  · simp only [List.length_set]
    rw [map_set_eq (f := (·.active)) hl hact]
    exact h.loops
  · rcases List.mem_or_eq_of_mem_set hx with hx | rfl
    · exact h.timers x hx
    · exact htimer
  · rcases List.mem_or_eq_of_mem_set hx with hx | rfl
    · exact h.busy x hx
    · exact hbusy

/-- All loops are ended. -/
theorem map_ended (t : List (Loop β ε)) :
    (t.map Loop.ended).map (·.active) = List.replicate t.length false ∧
      ∀ l ∈ t.map Loop.ended, l.active = false ∧ l.timer = none := by
  refine ⟨?_, fun l hl => ?_⟩
  · rw [List.map_map]
    exact List.map_const' ..
  · obtain ⟨x, -, rfl⟩ := List.mem_map.1 hl
    exact ⟨rfl, rfl⟩

theorem Awake.pos (h : Awake s) : 0 < s.loops.length := by
  have := congrArg List.length h.loops
  simp at this
  omega

theorem Awake.settled (h : Awake s) {result : Option (Except ε β)} (hl : s.loops[i]? = some l) :
    Awake (p.settled s i l result) := by
  have hm := Table.mem_of_getElem? hl
  unfold Poller.settled
  split
  · rename_i hact
    exact h.set hl { l with request := none } rfl (fun _ => h.timers l hm hact)
      (fun ha => absurd (hact.symm.trans ha) (by decide)) _ _
  · rename_i hact
    rw [Bool.not_eq_false] at hact
    have hsleep : ∀ (delay : Nat) shown error,
        Awake { s with
          loops := s.loops.set i { l with request := none, timer := some delay }, shown := shown, error := error } :=
      fun delay => h.set hl { l with request := none, timer := some delay } rfl
        (fun hf => absurd (hact.symm.trans hf) (by decide)) fun _ => by simp
    split
    · exact hsleep _ _ _
    · split
      · have hlen := h.pos
        obtain ⟨hmap, hall⟩ := map_ended (s.loops.set i { l with request := none })
        refine ⟨?_, fun x hx _ => (hall x hx).2, fun x hx ha => absurd ((hall x hx).1.symm.trans ha) (by decide)⟩
        simp only [hmap, List.length_map, List.length_set, Bool.not_true]
        rw [← List.replicate_succ', Nat.sub_add_cancel hlen]
      · exact hsleep _ _ _
    · exact hsleep _ _ _

/-- The server has answered a loop. -/
theorem Awake.answered (h : Awake s) {active : Bool} {timer : Option Nat}
    (hl : s.loops[i]? = some ⟨active, timer, some none⟩) (result : Except ε β) :
    Awake { s with loops := s.loops.set i ⟨active, timer, some (some result)⟩ } := by
  have hm := Table.mem_of_getElem? hl
  refine h.set hl ⟨active, timer, some (some result)⟩ rfl (fun hf => h.timers ⟨active, timer, some none⟩ hm hf)
    (fun ha => ?_) s.shown s.error
  have hnone : ¬ timer.isSome := fun ht => absurd ((h.busy _ hm ha).1 ht) (by simp)
  simpa using hnone

theorem awake_step (s : Screen σ β ε) (a : Action α ε) (h : Awake s) : Awake (step m p s a) := by
  cases a with
  | server a => exact ⟨h.loops, h.timers, h.busy⟩
  | refresh =>
    simp only [step]
    split
    · exact h
    · rename_i hx
      obtain ⟨hmap, hall⟩ := map_ended s.loops
      refine ⟨?_, fun l hl hf => ?_, fun l hl ha => ?_⟩
      · simp only [List.map_append, hmap, List.length_append, List.length_map]
        simp [Loop.begun, hx]
      · rcases List.mem_append.1 hl with hl | hl
        · exact (hall l hl).2
        · rw [List.mem_singleton.1 hl]
          rfl
      · rcases List.mem_append.1 hl with hl | hl
        · exact absurd ((hall l hl).1.symm.trans ha) (by decide)
        · rw [List.mem_singleton.1 hl]
          simp [Loop.begun]
  | wake i =>
    simp only [step]
    split
    · rename_i active _ _ hl
      have hm := Table.mem_of_getElem? hl
      have ht := h.timers _ hm
      cases active with
      | false => exact absurd (ht rfl) (by simp)
      | true => exact h.set hl ⟨true, none, some none⟩ rfl (fun hf => (by cases hf)) (fun _ => by simp) _ _
    · exact h
  | serve i =>
    simp only [step]
    split
    · exact h.answered ‹_› _
    · exact h
  | turnAway i e =>
    simp only [step]
    split
    · exact h.answered ‹_› _
    · exact h
  | receive i =>
    simp only [step]
    split
    · exact h.settled ‹_›
    · exact h
  | lose i =>
    simp only [step]
    split
    · exact h.settled ‹_›
    · exact h

/-- No other loop than an active one is active. -/
theorem Awake.alone (h : Awake s) (hl : s.loops[i]? = some l) (ha : l.active = true) {x : Loop β ε}
    (hm : l' ∈ s.loops.set i x) (ha' : l'.active = true) : l' = x := by
  have hlast : ∀ {j : Nat} {y : Loop β ε}, s.loops[j]? = some y → y.active = true → j = s.loops.length - 1 := by
    intro j y hy hya
    have hj : (s.loops.map (·.active))[j]? = some true := by rw [List.getElem?_map, hy, Option.map_some, hya]
    obtain ⟨hlt, -⟩ := List.getElem?_eq_some_iff.1 hy
    by_contra hne
    rw [h.loops, List.getElem?_append_left (by simp; omega), List.getElem?_replicate] at hj
    split at hj <;> cases hj
  obtain ⟨j, hj⟩ := List.mem_iff_getElem?.1 hm
  rw [List.getElem?_set] at hj
  split at hj
  · split at hj
    · exact (Option.some.inj hj).symm
    · cases hj
  · rename_i hne
    exact absurd ((hlast hl ha).trans (hlast hj ha').symm) hne

/-- Until the session has expired one loop is at work: it has asked for one answer, or sleeps before it asks again. The
loops before it are ended. -/
def AtWork (s : Screen σ β ε) : Prop :=
  s.expired = false → ∃ old l, s.loops = old ++ [l] ∧ (∀ o ∈ old, o.active = false ∧ o.timer = none) ∧
    l.active = true ∧ (l.timer.isSome ↔ l.request = none)

theorem awake (m : Machine σ α) (p : Poller σ β ε) (server : σ) (acts : List (Action α ε)) :
    AtWork ((machine m p server).run acts) := by
  intro hx
  have h : Awake ((machine m p server).run acts) := Machine.invariant (.mounted server) awake_step acts
  obtain ⟨old, tail, hs, hold, htail⟩ := List.map_eq_append_iff.1 h.loops
  obtain ⟨l, rfl, hl⟩ := List.map_eq_singleton_iff.1 htail
  rw [hx] at hl
  refine ⟨old, l, hs, fun o ho => ?_, hl, h.busy l (by simp [hs]) hl⟩
  have hfalse : o.active = false := List.eq_of_mem_replicate (hold ▸ List.mem_map_of_mem ho)
  exact ⟨hfalse, h.timers o (by simp [hs, ho]) hfalse⟩

/-! ### The answers are those of successive states -/

/-- The values shown so far are the answers of the `moments`, and an answer that is awaited is of a later one. -/
structure Dated (m : Machine σ α) (p : Poller σ β ε) (server : σ) (s : Screen σ β ε) (past : List β)
    (moments : List σ) : Prop where
  answers : past.map Except.ok = moments.map p.answer
  blank : s.shown = none → past = []
  now : m.Reaches server s.server
  reached : ∀ t ∈ moments, m.Reaches server t ∧ m.Reaches t s.server
  ordered : moments.Pairwise m.Reaches
  coming : ∀ l ∈ s.loops, l.active = true → ∀ v, l.request = some (some (.ok v)) →
    ∃ t, p.answer t = .ok v ∧ m.Reaches server t ∧ m.Reaches t s.server ∧ ∀ u ∈ moments, m.Reaches u t

section
variable {past : List β} {moments : List σ}

/-- Where the screen shows what it did, there is nothing to record. -/
theorem Dated.note_shown [DecidableEq β] (h : Dated m p server s past moments) :
    Machine.note s.shown s.shown past = past := by
  cases hs : s.shown with
  | none => exact (h.blank hs).symm
  | some b => exact Machine.note_same past

/-- Nothing new is shown, and no new answer is awaited. -/
theorem Dated.keep (h : Dated m p server s past moments) {loops : List (Loop β ε)}
    (hl : ∀ l ∈ loops, l.active = true → ∀ v, l.request = some (some (.ok v)) → l ∈ s.loops) (error : Option String)
    (expired : Bool) : Dated m p server { s with loops := loops, error := error, expired := expired } past moments :=
  ⟨h.answers, h.blank, h.now, h.reached, h.ordered, fun l hm ha v hv => h.coming l (hl l hm ha v hv) ha v hv⟩

/-- A loop goes on without an answer. -/
theorem Dated.set (h : Dated m p server s past moments) {x : Loop β ε} (hx : ∀ v, x.request ≠ some (some (.ok v)))
    (error : Option String) : Dated m p server { s with loops := s.loops.set i x, error := error } past moments := by
  refine h.keep (fun l hl _ v hv => ?_) error s.expired
  rcases List.mem_or_eq_of_mem_set hl with hl | rfl
  · exact hl
  · exact absurd hv (hx v)

theorem Dated.settled [DecidableEq β] (h : Dated m p server s past moments) (ha : Awake s)
    {result : Option (Except ε β)} (hl : s.loops[i]? = some l)
    (hr : ∀ v, result = some (.ok v) → l.request = some result) :
    ∃ moments, Dated m p server (p.settled s i l result)
      (Machine.note s.shown (p.settled s i l result).shown past) moments := by
  unfold Poller.settled
  split
  · rw [h.note_shown]
    exact ⟨moments, h.set (fun v => by simp) s.error⟩
  · rename_i hact
    rw [Bool.not_eq_false] at hact
    split
    · rename_i v
      obtain ⟨t, ht, hreach, hnow, hlater⟩ := h.coming l (Table.mem_of_getElem? hl) hact v (hr v rfl)
      have hcoming : ∀ l' ∈ s.loops.set i { l with request := none, timer := some (p.delay v) }, l'.active = true →
          ∀ w, l'.request ≠ some (some (.ok w)) := by
        intro l' hl' ha' w
        rw [ha.alone hl hact hl' ha']
        simp
      by_cases hv : s.shown = some v
      · rw [hv, Machine.note_same]
        exact ⟨moments, h.answers, fun hn => (by cases hn), h.now, h.reached, h.ordered,
          fun l' hl' ha' w hw => absurd hw (hcoming l' hl' ha' w)⟩
      · rw [Machine.note_of_ne past hv]
        refine ⟨moments ++ [t], ?_, fun hn => (by cases hn), h.now, fun u hu => ?_, ?_,
          fun l' hl' ha' w hw => absurd hw (hcoming l' hl' ha' w)⟩
        · rw [List.map_append, List.map_append, h.answers, List.map_singleton, List.map_singleton, ht]
        · rcases List.mem_append.1 hu with hu | hu
          · exact h.reached u hu
          · rw [List.mem_singleton.1 hu]
            exact ⟨hreach, hnow⟩
        · refine List.pairwise_append.2 ⟨h.ordered, List.pairwise_singleton _ _, fun u hu t' ht' => ?_⟩
          rw [List.mem_singleton.1 ht']
          exact hlater u hu
    · split
      · rw [h.note_shown]
        refine ⟨moments, h.keep (fun l' hl' ha' => ?_) s.error true⟩
        exact absurd (((map_ended _).2 l' hl').1.symm.trans ha') (by decide)
      · rw [h.note_shown]
        exact ⟨moments, h.set (fun v => by simp) _⟩
    · rw [h.note_shown]
      exact ⟨moments, h.set (fun v => by simp) _⟩

theorem dated_step [DecidableEq β] (s : Screen σ β ε) (a : Action α ε) (past : List β) (ha : Awake s)
    (h : ∃ moments, Dated m p server s past moments) :
    ∃ moments, Dated m p server (step m p s a) (Machine.note s.shown (step m p s a).shown past) moments := by
  obtain ⟨moments, h⟩ := h
  cases a with
  | server a =>
    simp only [step, h.note_shown]
    refine ⟨moments, h.answers, h.blank, h.now.step a, fun t ht => ?_, h.ordered, fun l hl hact v hv => ?_⟩
    · exact ⟨(h.reached t ht).1, (h.reached t ht).2.step a⟩
    · obtain ⟨t, ht, hreach, hnow, hlater⟩ := h.coming l hl hact v hv
      exact ⟨t, ht, hreach, hnow.step a, hlater⟩
  | refresh =>
    simp only [step]
    split
    · rw [h.note_shown]
      exact ⟨moments, h⟩
    · rw [h.note_shown]
      refine ⟨moments, h.keep (fun l hl hact v hv => ?_) s.error s.expired⟩
      rcases List.mem_append.1 hl with hl | hl
      · exact absurd (((map_ended _).2 l hl).1.symm.trans hact) (by decide)
      · rw [List.mem_singleton.1 hl] at hv
        exact absurd hv (by simp [Loop.begun])
  | wake i =>
    simp only [step]
    split <;> rw [h.note_shown]
    · exact ⟨moments, h.set (fun v => by simp) s.error⟩
    · exact ⟨moments, h⟩
  | serve i =>
    simp only [step]
    split <;> rw [h.note_shown]
    · refine ⟨moments, h.answers, h.blank, h.now, h.reached, h.ordered, fun l hl hact v hv => ?_⟩
      rcases List.mem_or_eq_of_mem_set hl with hl | rfl
      · exact h.coming l hl hact v hv
      · exact ⟨s.server, Option.some.inj (Option.some.inj hv), h.now, .refl _, fun u hu => (h.reached u hu).2⟩
    · exact ⟨moments, h⟩
  | turnAway i e =>
    simp only [step]
    split <;> rw [h.note_shown]
    · exact ⟨moments, h.set (fun v => by simp) s.error⟩
    · exact ⟨moments, h⟩
  | receive i =>
    simp only [step]
    split
    · exact h.settled ha ‹_› fun v hv => rfl
    · rw [h.note_shown]
      exact ⟨moments, h⟩
  | lose i =>
    simp only [step]
    split
    · exact h.settled ha ‹_› fun v hv => (by cases hv)
    · rw [h.note_shown]
      exact ⟨moments, h⟩

/-- What a screen shows in the course of time are the answers of successive states of the server. -/
theorem history_moments [DecidableEq β] (m : Machine σ α) (p : Poller σ β ε) (server : σ) (acts : List (Action α ε)) :
    ∃ moments : List σ, ((machine m p server).history (·.shown) acts).map Except.ok = moments.map p.answer ∧
      (∀ t ∈ moments, m.Reaches server t) ∧ moments.Pairwise m.Reaches := by
  have hstart : ∃ moments, Dated m p server (machine m p server).init [] moments := by
    refine ⟨[], rfl, fun _ => rfl, .refl _, List.forall_mem_nil _, .nil, fun l hl _ v hv => ?_⟩
    rw [List.mem_singleton.1 hl] at hv
    exact absurd hv (by simp [Loop.begun])
  obtain ⟨moments, h⟩ := Machine.trail_invariant (m := machine m p server) (P := Awake)
    (Q := fun s past => ∃ moments, Dated m p server s past moments) awake_step dated_step (.mounted server) hstart acts
  exact ⟨moments, h.answers, fun t ht => (h.reached t ht).1, h.ordered⟩

/-- So are the values of any looks at it. -/
theorem history_sublist [DecidableEq β] {m : Machine σ α} {p : Poller σ β ε} {server : σ} {acts : List (Action α ε)}
    {looks : List β} (h : List.Sublist looks ((machine m p server).history (·.shown) acts)) :
    ∃ moments : List σ, looks.map Except.ok = moments.map p.answer ∧ (∀ t ∈ moments, m.Reaches server t) ∧
      moments.Pairwise m.Reaches := by
  obtain ⟨moments, ha, hr, ho⟩ := history_moments m p server acts
  have hs := h.map (Except.ok : β → Except ε β)
  rw [ha] at hs
  obtain ⟨chosen, hsub, he⟩ := List.sublist_map_iff.1 hs
  exact ⟨chosen, he, fun t ht => hr t (hsub.subset ht), ho.sublist hsub⟩

end

end Poller
end RepoPilot
