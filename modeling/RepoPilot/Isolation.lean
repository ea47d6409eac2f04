import RepoPilot.Confinement

/-! # Work for others leaves a user's rows alone

The frames of the conversations, and the whole system: however the work for other users interleaves, the
rows of a user stay the same until some action works for that user. -/

namespace RepoPilot
open Generation

namespace Tables
variable {now : Time} {db : Db} {t t' : Tables} {userId conversationId runId : Uuid}

/-- The rows of the user are the same. -/
structure Frame (userId : Uuid) (t t' : Tables) : Prop where
  conversations : Table.Same (·.userId = userId) t.conversations t'.conversations
  messages : Table.Same (·.conversationId ∈ (t.own userId).conversations.map (·.id)) t.messages t'.messages
  runs : Table.Same (·.conversationId ∈ (t.own userId).conversations.map (·.id)) t.runs t'.runs
  events : Table.Same (·.runId ∈ (t.own userId).runs.map (·.id)) t.events t'.events
  receipts : Table.Same (·.runId ∈ (t.own userId).runs.map (·.id)) t.receipts t'.receipts

theorem Frame.refl (userId : Uuid) (t : Tables) : Frame userId t t :=
  ⟨.refl _ _, .refl _ _, .refl _ _, .refl _ _, .refl _ _⟩

theorem Frame.own (h : Frame userId t t') : t'.own userId = t.own userId := by
  have hconversations : (t'.own userId).conversations = (t.own userId).conversations := h.conversations
  have hmessages : (t'.own userId).messages = (t.own userId).messages := by
    show t'.messages.filter (·.conversationId ∈ (t'.own userId).conversations.map (·.id)) = _
    rw [hconversations]
    exact h.messages
  have hruns : (t'.own userId).runs = (t.own userId).runs := by
    show t'.runs.filter (·.conversationId ∈ (t'.own userId).conversations.map (·.id)) = _
    rw [hconversations]
    exact h.runs
  have hevents : (t'.own userId).events = (t.own userId).events := by
    show t'.events.filter (·.runId ∈ (t'.own userId).runs.map (·.id)) = _
    rw [hruns]
    exact h.events
  have hreceipts : (t'.own userId).receipts = (t.own userId).receipts := by
    show t'.receipts.filter (·.runId ∈ (t'.own userId).runs.map (·.id)) = _
    rw [hruns]
    exact h.receipts
  show Tables.mk _ _ _ _ _ = Tables.mk _ _ _ _ _
  rw [Tables.mk.injEq]
  exact ⟨hconversations, hmessages, hruns, hevents, hreceipts⟩

/-! ### Rows of other users -/

theorem foreign_conversation (hk : Table.Keyed (·.id) t.conversations) {c : Conversation} (hc : c ∈ t.conversations)
    (hu : c.userId ≠ userId) : c.id ∉ (t.own userId).conversations.map (·.id) := by
  intro hm
  obtain ⟨c', hc', hid⟩ := List.mem_map.1 hm
  obtain ⟨hc', hu'⟩ := List.mem_filter.1 hc'
  cases hk.eq hc' hc hid
  exact hu (of_decide_eq_true hu')

theorem foreign_run (h : runId ∉ (t.own userId).runs.map (·.id)) :
    ∀ r ∈ t.runs, r.id = runId → r.conversationId ∉ (t.own userId).conversations.map (·.id) :=
  fun _ hr hid hc => h (hid ▸ mem_own_runs hr hc)

/-- The run of another user's conversation is not the user's. -/
theorem not_mem_runs (hk : Table.Keyed (·.id) t.runs) {r : AnswerRun} (hr : r ∈ t.runs)
    (hc : r.conversationId ∉ (t.own userId).conversations.map (·.id)) : r.id ∉ (t.own userId).runs.map (·.id) := by
  intro hm
  obtain ⟨r', hr', hid⟩ := List.mem_map.1 hm
  obtain ⟨hr', hc'⟩ := List.mem_filter.1 hr'
  cases hk.eq hr' hr hid
  exact hc (of_decide_eq_true hc')

/-- A run that is new is not the user's. -/
theorem not_mem_of_new (h : ∀ r ∈ t.runs, r.id ≠ runId) : runId ∉ (t.own userId).runs.map (·.id) := by
  intro hm
  obtain ⟨r, hr, hid⟩ := List.mem_map.1 hm
  exact h r (List.mem_of_mem_filter hr) hid

/-! ### Deletions, appends and transitions -/

theorem frame_delete (hs : t.Schema db) {p : Conversation → Bool}
    (hp : ∀ c ∈ t.conversations, p c = true → c.userId ≠ userId) : Frame userId t (t.deleteConversations p) := by
  have hgone : ∀ {id : Uuid}, id ∈ (t.own userId).conversations.map (·.id) →
      id ∉ (t.conversations.filter p).map (·.id) := by
    intro id hid hg
    obtain ⟨c, hc, rfl⟩ := List.mem_map.1 hg
    obtain ⟨hc, hpc⟩ := List.mem_filter.1 hc
    exact foreign_conversation hs.conversationKeys hc (hp c hc hpc) hid
  have hgoneRuns : ∀ {id : Uuid}, id ∈ (t.own userId).runs.map (·.id) →
      id ∉ (t.runs.filter (·.conversationId ∈ (t.conversations.filter p).map (·.id))).map (·.id) := by
    intro id hid hg
    obtain ⟨r, hr, rfl⟩ := List.mem_map.1 hg
    obtain ⟨hr, hrc⟩ := List.mem_filter.1 hr
    exact not_mem_runs hs.runKeys hr (fun hc => hgone hc (of_decide_eq_true hrc)) hid
  refine ⟨.delete fun c hc hu => ?_, .delete fun m _ hm => decide_eq_true (hgone (of_decide_eq_true hm)),
    .delete fun r _ hr => decide_eq_true (hgone (of_decide_eq_true hr)),
    .delete fun e _ he => decide_eq_true (hgoneRuns (of_decide_eq_true he)),
    .delete fun q _ hq => decide_eq_true (hgoneRuns (of_decide_eq_true hq))⟩
  have hpc : ¬ p c = true := fun hpc => hp c hc hpc (of_decide_eq_true hu)
  simpa using hpc

/-- What `append_state` adds. -/
theorem appendState_events (now : Time) (t : Tables) (runId : Uuid) :
    ∃ es, (appendState now t runId).events = t.events ++ es ∧ ∀ e ∈ es, e.runId = runId := by
  unfold appendState
  split
  · exact ⟨[], (List.append_nil _).symm, List.forall_mem_nil _⟩
  · exact ⟨_, rfl, fun e he => by rw [List.mem_singleton.1 he]⟩

theorem foldl_events (now : Time) (ids : List Uuid) (t : Tables) :
    ∃ es, (ids.foldl (appendState now) t).events = t.events ++ es ∧ ∀ e ∈ es, e.runId ∈ ids := by
  induction ids generalizing t with
  | nil => exact ⟨[], (List.append_nil _).symm, List.forall_mem_nil _⟩
  | cons i ids ih =>
    obtain ⟨es, he, hes⟩ := appendState_events now t i
    obtain ⟨es', he', hes'⟩ := ih (appendState now t i)
    refine ⟨es ++ es', ?_, fun e hm => ?_⟩
    · rw [List.foldl_cons, he', he, List.append_assoc]
    · rcases List.mem_append.1 hm with hm | hm
      · rw [hes e hm]
        exact List.mem_cons_self
      · exact List.mem_cons_of_mem _ (hes' e hm)

@[simp] theorem settled_conversationId (r : AnswerRun) : (settled r).conversationId = r.conversationId := by
  unfold settled
  split <;> rfl

/-- A transition of runs of other users. -/
theorem frame_transition (hk : Table.Keyed (·.id) t.runs) {p : AnswerRun → Prop} [DecidablePred p]
    {f : AnswerRun → AnswerRun} (hid : ∀ r, (f r).id = r.id) (hconv : ∀ r, (f r).conversationId = r.conversationId)
    (hp : ∀ r ∈ t.runs, p r → r.conversationId ∉ (t.own userId).conversations.map (·.id)) :
    Frame userId t (t.transition now p f) := by
  have h := transitioned now hk (p := p) (f := f) fun r _ _ => hid r
  obtain ⟨es, he, hes⟩ := foldl_events now ((t.runs.filter p).map (·.id)) { t with runs := Table.update p f t.runs }
  refine ⟨?_, ?_, ?_, ?_, ?_⟩
  · rw [h.conversations]
    exact .refl _ _
  · rw [h.messages]
    exact .refl _ _
  · rw [h.runs]
    refine .update fun r hr hpr => ⟨decide_eq_false (hp r hr hpr), decide_eq_false ?_⟩
    rw [Function.comp_apply, settled_conversationId, hconv]
    exact hp r hr hpr
  · show Table.Same _ t.events (t.transition now p f).events
    unfold transition
    rw [he]
    refine .append fun e hm => decide_eq_false ?_
    obtain ⟨r, hr, hre⟩ := List.mem_map.1 (hes e hm)
    obtain ⟨hr, hpr⟩ := List.mem_filter.1 hr
    rw [← hre]
    exact not_mem_runs hk hr (hp r hr (of_decide_eq_true hpr))
  · rw [h.receipts]
    exact .refl _ _

/-- A conversation of another user is counted on. -/
theorem same_counted {other : Uuid} (hne : other ≠ userId) :
    Table.Same (·.userId = userId) t.conversations
      (Table.update (HasRoom other conversationId) (counted now) t.conversations) :=
  .update fun _ _ hp => ⟨decide_eq_false (hp.2.1.trans_ne hne), decide_eq_false (hp.2.1.trans_ne hne)⟩

/-- A pair for a conversation of another user. -/
theorem same_pair {count : Nat} {question : Text} {answer : AnswerResponse}
    (h : conversationId ∉ (t.own userId).conversations.map (·.id)) :
    Table.Same (·.conversationId ∈ (t.own userId).conversations.map (·.id)) t.messages
      (t.messages ++ pair conversationId count question answer) := by
  refine .append fun m hm => decide_eq_false ?_
  unfold pair at hm
  simp only [List.mem_cons, List.not_mem_nil, or_false] at hm
  rcases hm with rfl | rfl <;> exact h

theorem frame_appendPair (hk : Table.Keyed (·.id) t.conversations) {other : Uuid} (hne : other ≠ userId)
    {question : Text} {answer : AnswerResponse}
    (h : t.appendPair now db other conversationId question answer = .ok t') : Frame userId t t' := by
  obtain ⟨c, hc, hroom, rfl⟩ := appendPair_eq h
  have hcid := foreign_conversation hk hc (hroom.2.1.trans_ne hne)
  rw [hroom.1] at hcid
  exact { Frame.refl userId t with conversations := same_counted hne, messages := same_pair hcid }

/-- The writes of an answer for another user. -/
theorem frame_writes {env : Env} {c : Call} {input : Answers.Input} {pc : Answers.Pc}
    (hrun : ∀ runId token, c.run = some (runId, token) → runId ∉ (t.own userId).runs.map (·.id))
    (hreceipt : ∀ id, pc.receipt = some id → ∀ q ∈ t.receipts, q.id = id → q.runId ∉ (t.own userId).runs.map (·.id))
    (h : Answers.Writes env now c input pc t t') : Frame userId t t' := by
  cases h with
  | none => exact .refl userId t
  | @began runId token _ _ _ _ _ _ hc hin h =>
    obtain ⟨-, -, rfl⟩ := begin_eq h
    refine { Frame.refl userId t with receipts := .append fun q hq => decide_eq_false ?_ }
    rw [List.mem_singleton.1 hq]
    exact hrun runId token hc
  | @finished id i o _ hr h =>
    obtain ⟨-, -, rfl⟩ := finish_eq h
    refine { Frame.refl userId t with receipts := .update fun q hq hp => ?_ }
    have hnot := hreceipt id hr q hq hp.1
    exact ⟨decide_eq_false hnot, decide_eq_false hnot⟩
  | @previewed runId token raw hc =>
    refine { Frame.refl userId t with runs := .update fun r hr hp => ?_ }
    have hnot := foreign_run (hrun runId token hc) r hr hp.1.1
    exact ⟨decide_eq_false hnot, decide_eq_false hnot⟩

end Tables

namespace Runs
variable {now : Time} {db : Db} {t t' : Tables} {userId : Uuid}

/-- A new run for a conversation of another user. -/
theorem frame_insertRun {run : AnswerRun} (hk : Table.Keyed (·.id) t.runs) (hnew : ∀ r ∈ t.runs, r.id ≠ run.id)
    (hact : run.status.Active)
    (hc : ∀ c ∈ t.conversations, c.id = run.conversationId → c.id ∉ (t.own userId).conversations.map (·.id))
    (h : insertRun now run t = some t') : Tables.Frame userId t t' := by
  obtain ⟨hr, rfl⟩ := insertRun_eq hk hnew hact h
  have hconv : ∃ c ∈ t.conversations, c.id = run.conversationId := not_not.1 fun hno => hr (.inl hno)
  obtain ⟨c, hcm, hid⟩ := hconv
  refine { Tables.Frame.refl userId t with
    runs := .append fun r hm => decide_eq_false ?_
    events := .append fun e hm => decide_eq_false ?_ }
  · rw [List.mem_singleton.1 hm, ← hid]
    exact hc c hcm hid
  · rw [List.mem_singleton.1 hm]
    exact Tables.not_mem_of_new hnew

/-- A step of the cycle writes to the run. -/
def Cycle.Writes (succeeded : Bool) (run : AnswerRun) : Cycle → Prop
  | .expireRunning start => LostWhere start run
  | .expireQueued start => ExpiredWhere start run
  | .publishing _ (id :: _) => succeeded = true ∧ StampWhere id run
  | _ => False

instance (succeeded : Bool) (run : AnswerRun) : DecidablePred (Cycle.Writes succeeded run)
  | .expireRunning start => inferInstanceAs (Decidable (LostWhere start run))
  | .expireQueued start => inferInstanceAs (Decidable (ExpiredWhere start run))
  | .select _ => inferInstanceAs (Decidable False)
  | .publishing _ [] => inferInstanceAs (Decidable False)
  | .publishing _ (id :: _) => inferInstanceAs (Decidable (succeeded = true ∧ StampWhere id run))

/-- A dispatcher cycle that writes to runs of other users. -/
theorem frame_cycle (hk : Table.Keyed (·.id) t.runs) {c : Cycle} {succeeded : Bool}
    (h : ∀ r ∈ t.runs, c.Writes succeeded r → r.conversationId ∉ (t.own userId).conversations.map (·.id)) :
    Tables.Frame userId t (c.step now succeeded t).2 := by
  cases c with
  | expireRunning start => exact Tables.frame_transition hk (fun _ => rfl) (fun _ => rfl) h
  | expireQueued start => exact Tables.frame_transition hk (fun _ => rfl) (fun _ => rfl) h
  | select start => exact .refl userId t
  | publishing start ids =>
    match ids, succeeded with
    | [], _ => exact .refl userId t
    | id :: ids, false => exact .refl userId t
    | id :: ids, true =>
      refine { Tables.Frame.refl userId t with runs := .update fun r hr hp => ?_ }
      have hnot := h r hr ⟨rfl, hp⟩
      exact ⟨decide_eq_false hnot, decide_eq_false hnot⟩

/-- A published answer of another user's run. -/
theorem frame_publish (hk : Table.Keyed (·.id) t.runs) {runId token other conversationId : Uuid}
    {question : Text} {answer : AnswerResponse} (hrun : runId ∉ (t.own userId).runs.map (·.id))
    (hbound : ∀ r ∈ t.runs, r.id = runId → r.conversationId = conversationId)
    (h : publish now runId token other conversationId question answer db t = some (.ok t')) :
    Tables.Frame userId t t' := by
  obtain ⟨run, hrm, hheld, c, hc, hroom, ht⟩ := publish_eq hk h
  have hcid : conversationId ∉ (t.own userId).conversations.map (·.id) := by
    rw [← hbound run hrm hheld.1]
    exact Tables.foreign_run hrun run hrm hheld.1
  have hne : other ≠ userId := fun he => hcid (hroom.1 ▸ Tables.mem_own_conversations hc (hroom.2.1.trans he))
  have hevents : ∃ es, t'.events = t.events ++ es ∧ ∀ e ∈ es, e.runId = runId := by
    unfold publish at h
    split at h
    swap
    · cases h
    cases hp : ({ t with runs := Table.update (Tables.Held now runId token) (completed now answer) t.runs } :
        Tables).appendPair now db other conversationId question answer with
    | error e => rw [hp] at h; cases h
    | ok t₁ =>
      rw [hp] at h
      cases h
      obtain ⟨-, -, -, rfl⟩ := Tables.appendPair_eq hp
      exact Tables.appendState_events now _ runId
  obtain ⟨es, he, hes⟩ := hevents
  refine ⟨?_, ?_, ?_, ?_, ?_⟩
  · rw [ht.conversations]
    exact Tables.same_counted hne
  · rw [ht.messages]
    exact Tables.same_pair hcid
  · rw [ht.runs]
    refine .update fun r hr hp => ?_
    have hnot := Tables.foreign_run hrun r hr hp.1
    exact ⟨decide_eq_false hnot, decide_eq_false (by rwa [Function.comp_apply, Tables.settled_conversationId])⟩
  · rw [he]
    exact .append fun e hm => decide_eq_false (hes e hm ▸ hrun)
  · rw [ht.receipts]
    exact .refl _ _

end Runs

namespace Chat
variable {env : Env} {now : Time} {db : Db} {s : Chat} {w : World} {userId : Uuid}

/-- The user the action works for, or one of the users. -/
def Serves (s : Chat) (userId : Uuid) : Action → Prop
  | .create other _ _ _ _ | .remove other _ | .ask _ _ _ other _ _ _ _ | .submit _ other _ _ _ _ | .cancel other _ =>
    other = userId
  | .askStep i _ => ∃ p ∈ s.asks[i]?, p.userId = userId
  | .submitStep i _ => ∃ p ∈ s.submits[i]?, p.userId = userId
  | .deliver _ _ _ _ runId _ => runId ∈ (s.tables.own userId).runs.map (·.id)
  | .workerStep i _ => ∃ k ∈ s.workers[i]?, k.runId ∈ (s.tables.own userId).runs.map (·.id)
  | .dispatch => False
  | .cycleStep i succeeded => ∃ c ∈ s.cycles[i]?, ∃ r ∈ (s.tables.own userId).runs, c.Writes succeeded r

instance (s : Chat) (userId : Uuid) : DecidablePred (s.Serves userId) := fun a => by
  cases a <;> unfold Serves <;> infer_instance

/-- Past its first check a submission is on a conversation of its user. -/
def Admitted (w : World) (t : Tables) (p : Runs.Submit) : Prop :=
  p.conversationId ∈ w.issued ∧ ∀ c ∈ t.conversations, c.id = p.conversationId → c.userId = p.userId

/-- The submission has found its conversation, and no run of its key yet. -/
def Begun (pc : Runs.SubmitPc) : Prop := pc.Inner ∨ ∃ repositoryId, pc = .lock repositoryId ∨ pc = .byKey repositoryId

theorem Admitted.effect {p : Runs.Submit} {input : Runs.SubmitInput} {pc' : Runs.SubmitPc} {t t' : Tables}
    (hk : Table.Keyed (·.id) t.conversations) (hids : ∀ c ∈ t.conversations, c.id ∈ w.issued)
    (h : Runs.Submit.Effect env now p input db t pc' t') (hp : Begun p.pc → Admitted w t p) (hpc' : Begun pc') :
    Admitted w t p := by
  cases h with
  | idle => exact hp hpc'
  | owned hpc h =>
    obtain ⟨hc, hid, hu, -⟩ := Tables.owned_eq h
    refine ⟨hid ▸ hids _ hc, fun c' hc' hid' => ?_⟩
    cases hk.eq hc' hc (hid'.trans hid.symm)
    exact hu
  | locked hpc hin => exact hp (.inr ⟨_, .inl hpc⟩)
  | missed hpc h hpc'' => exact hp (.inr ⟨_, .inr hpc⟩)
  | advanced hpc hin hcount => exact hp (.inl hpc)
  | _ => rcases hpc' with hin | ⟨repositoryId, h | h⟩ <;> contradiction

theorem frame_create {other repositoryId conversationId : Uuid} {title : Text} {limit : Option AppError} {t' : Tables}
    (hne : other ≠ userId) (h : create now other repositoryId conversationId title limit db s.tables = .ok t') :
    Tables.Frame userId s.tables t' := by
  unfold create at h
  simp only [bind_ok] at h
  obtain ⟨-, -, -, -, -, -, h⟩ := h
  cases h
  refine { Tables.Frame.refl userId s.tables with conversations := .append fun c hc => ?_ }
  rw [List.mem_singleton.1 hc]
  exact decide_eq_false hne

theorem frame_remove {other conversationId : Uuid} (hs : s.tables.Schema db) (hne : other ≠ userId) :
    Tables.Frame userId s.tables (remove other conversationId db s.tables) := by
  unfold remove
  split
  · exact .refl userId s.tables
  · exact Tables.frame_delete hs fun c _ hp => (of_decide_eq_true hp).2.trans_ne hne

theorem frame_cancel {other runId : Uuid} (hs : s.tables.Schema db) (hne : other ≠ userId) {t' : Tables}
    (h : Runs.cancel now other runId db s.tables = .ok t') : Tables.Frame userId s.tables t' := by
  unfold Runs.cancel at h
  cases ho : s.tables.ownedRun db other runId with
  | error e => rw [ho] at h; cases h
  | ok run =>
    cases ht : s.tables.transitionOne now (Runs.CancelWhere runId) (Runs.cancelled now) with
    | none =>
      simp only [ho, ht] at h
      cases h
    | some t₁ =>
      simp only [ho, ht] at h
      cases h
      obtain ⟨-, rfl⟩ := Tables.transitionOne_eq ht
      obtain ⟨hrun, hid, hc⟩ := Tables.ownedRun_eq ho
      refine Tables.frame_transition hs.runKeys (fun _ => rfl) (fun _ => rfl) fun r hr hp => ?_
      cases hs.runKeys.eq hr hrun (hp.1.trans hid.symm)
      obtain ⟨c, hc, hcid⟩ := List.mem_map.1 hc
      obtain ⟨hc, hu⟩ := List.mem_filter.1 hc
      rw [← hcid]
      exact Tables.foreign_conversation hs.conversationKeys hc ((of_decide_eq_true hu).trans_ne hne)

theorem frame_askStep {p : Ask} {input : Answers.Input} {pc' : AskPc} {t' : Tables} (hs : s.tables.Schema db)
    (hp : p.Separate w s.tables) (hne : p.userId ≠ userId) (h : Ask.Effect env now p input db s.tables pc' t') :
    Tables.Frame userId s.tables t' := by
  cases h with
  | idle | ended | began => exact .refl userId s.tables
  | answering hpc h =>
    refine Tables.frame_writes (fun _ _ hrun => ?_) (fun id hid => ?_) h.writes
    · cases hrun
    · rw [(hp.receipt hpc).1] at hid
      cases hid
  | appended hpc h => exact Tables.frame_appendPair hs.conversationKeys hne h

theorem frame_submitStep {p : Runs.Submit} {input : Runs.SubmitInput} {pc' : Runs.SubmitPc} {t' : Tables}
    (hs : s.tables.Schema db) (hids : ∀ r ∈ s.tables.runs, r.id ∈ w.issued)
    (hf : ∀ id, input = .insert id → id ∉ w.issued) (hp : p.pc.Inner → Admitted w s.tables p)
    (hne : p.userId ≠ userId) (h : Runs.Submit.Effect env now p input db s.tables pc' t') :
    Tables.Frame userId s.tables t' := by
  cases h with
  | @inserted source history runId _ hpc hin h =>
    have hadmitted := hp (by rw [hpc]; trivial)
    have hnew : ∀ r ∈ s.tables.runs, r.id ≠ runId := fun r hr he => hf runId hin (he ▸ hids r hr)
    refine Runs.frame_insertRun hs.runKeys hnew (.inl rfl) (fun c hc hcid => ?_) h
    exact Tables.foreign_conversation hs.conversationKeys hc ((hadmitted.2 c hc hcid).trans_ne hne)
  | _ => exact .refl userId s.tables

theorem frame_workerStep {k : Runs.Worker} {input : Answers.Input} {pc' : Runs.Pc} {t' : Tables}
    (hs : s.tables.Schema db) (hk : k.Serves s.tables)
    (hheld : ∀ id, k.pc.receipt = some id → ∀ q ∈ s.tables.receipts, q.id = id → q.runId = k.runId)
    (hrun : k.runId ∉ (s.tables.own userId).runs.map (·.id))
    (h : Runs.Worker.Effect env now k input db s.tables pc' t') : Tables.Frame userId s.tables t' := by
  unfold Runs.Worker.Serves at hk
  cases h with
  | idle | ending | loaded => exact .refl userId s.tables
  | answering hpc h =>
    rw [hpc] at hk
    refine Tables.frame_writes (fun runId token hc => ?_) (fun id hid q hq hqid => ?_) h.writes
    · rw [hk.1.run] at hc
      cases hc
      exact hrun
    · rw [hheld id (by rw [hpc]; exact hid) q hq hqid]
      exact hrun
  | published hpc h =>
    rw [hpc] at hk
    exact Runs.frame_publish hs.runKeys hrun (fun r hr hid => (hk.1.row r hr hid).1) h
  | failed hpc hr =>
    exact Tables.frame_transition hs.runKeys (fun _ => rfl) (fun _ => rfl)
      fun r hr hp => Tables.foreign_run hrun r hr hp.1

/-- An action that does not work for the user leaves the user's rows alone. -/
theorem frame_step (hs : s.tables.Schema db) (hi : RunInv w s) (hr : ReceiptInv w s)
    (hp : ∀ p ∈ s.submits, p.pc.Inner → Admitted w s.tables p) {a : Action} (hf : ∀ i ∈ a.ids, i ∉ w.issued)
    (ha : ¬ s.Serves userId a) : Tables.Frame userId s.tables (step env now a db s).tables := by
  cases a with
  | create other repositoryId conversationId title limit =>
    simp only [step]
    split
    · exact .refl userId s.tables
    · split
      · exact .refl userId s.tables
      · exact frame_create ha ‹_›
  | remove other conversationId =>
    simp only [step]
    split
    · exact .refl userId s.tables
    · exact frame_remove hs ha
  | ask settings embedder model other conversationId question mode answerId =>
    simp only [step]
    split <;> exact .refl userId s.tables
  | askStep i input =>
    simp only [step, askStep]
    split
    · exact .refl userId s.tables
    · rename_i p hpi
      split
      · exact .refl userId s.tables
      · exact frame_askStep hs (hi.asks p (Table.mem_of_getElem? hpi)) (fun hu => ha ⟨p, hpi, hu⟩)
          (p.step_effect env now input db s.tables)
  | submit settings other conversationId requestKey question mode =>
    simp only [step]
    split <;> exact .refl userId s.tables
  | submitStep i input =>
    simp only [step, submitStep]
    split
    · exact .refl userId s.tables
    · rename_i p hpi
      split
      · exact .refl userId s.tables
      · refine frame_submitStep hs hi.ids (fun id hin => hf id ?_) (hp p (Table.mem_of_getElem? hpi))
          (fun hu => ha ⟨p, hpi, hu⟩) (p.step_effect env now input db s.tables)
        rw [hin]
        exact List.mem_singleton_self _
  | cancel other runId =>
    simp only [step]
    split
    · exact .refl userId s.tables
    · exact frame_cancel hs ha ‹_›
  | deliver settings embedder model streaming runId token =>
    simp only [step, deliver]
    split
    · exact .refl userId s.tables
    · rename_i t' h
      obtain ⟨-, rfl⟩ := Tables.transitionOne_eq h
      exact Tables.frame_transition hs.runKeys (fun _ => rfl) (fun _ => rfl)
        fun r hr hp => Tables.foreign_run ha r hr hp.1
  | workerStep i input =>
    simp only [step, workerStep]
    split
    · exact .refl userId s.tables
    · rename_i k hki
      split
      · exact .refl userId s.tables
      · have hk := Table.mem_of_getElem? hki
        exact frame_workerStep hs (hi.workers k hk) (fun id hid => (hr.held k hk id hid).2)
          (fun hm => ha ⟨k, hki, hm⟩) (k.step_effect env now input db s.tables)
  | dispatch => exact .refl userId s.tables
  | cycleStep i succeeded =>
    simp only [step]
    split
    · exact .refl userId s.tables
    · rename_i c hc
      refine Runs.frame_cycle hs.runKeys fun r hr hw ho => ha ⟨c, hc, r, ?_, hw⟩
      exact List.mem_filter.2 ⟨hr, decide_eq_true ho⟩

end Chat

namespace System
variable {env : Env} {s : System} {userId : Uuid}

/-- Every submission past its first check is on a conversation of its user. -/
def AdmitInv (s : System) : Prop :=
  ∀ p ∈ s.chat.submits, Chat.Begun p.pc → Chat.Admitted s.world s.chat.tables p

theorem admitInv_step (s : System) (a : Action) (h : JobsInv env s ∧ ChatInv env s ∧ AdmitInv s) :
    AdmitInv (step env s a) := by
  obtain ⟨hj, hc, ha⟩ := h
  have hd := descends_step s a ⟨hj, hc⟩
  obtain ⟨ids, hf, hw, he⟩ := chatStep env s a
  have hkept : ∀ {p : Runs.Submit}, Chat.Admitted s.world s.chat.tables p →
      Chat.Admitted (step env s a).world (step env s a).chat.tables p := by
    intro p hp
    refine ⟨hd.issued _ hp.1, fun c' hc' hid => ?_⟩
    obtain ⟨c, hcm, hcid, hu, -⟩ := hd.conversations c' hc' (hid ▸ hp.1)
    exact hu.trans (hp.2 c hcm (hcid.trans hid))
  intro p' hp' hpc'
  obtain ⟨i, hi⟩ := List.mem_iff_getElem?.1 hp'
  rcases Chat.submits_effect he hi with howned | hold | ⟨p, input, pc', hp, rfl, -, -, heff⟩
  · rw [howned] at hpc'
    rcases hpc' with hin | ⟨repositoryId, h | h⟩ <;> contradiction
  · exact hkept (ha p' (Table.mem_of_getElem? hold) hpc')
  · have hbefore : Chat.Admitted s.world s.chat.tables p :=
      .effect hc.conversations.keyed hc.conversations.ids heff (ha p (Table.mem_of_getElem? hp)) hpc'
    exact hkept hbefore

theorem admitInv (env : Env) (acts : List Action) : AdmitInv (run env acts) :=
  (Machine.invariant (P := fun s => JobsInv env s ∧ ChatInv env s ∧ AdmitInv s)
    ⟨jobsInv env [], chatInv env [], fun _ hp => by cases hp⟩
    (fun s a h => ⟨jobsInv_step s a h.1, chatInv_step s a h.2.1, admitInv_step s a h⟩) acts).2.2

/-- The user the action works for, or one of the users. -/
def Serves (s : System) (userId : Uuid) : Action → Prop
  | .tick _ => False
  | .jobs a => s.jobs.Serves s.world.clock userId a
  | .chat a => s.chat.Serves userId a

instance (s : System) (userId : Uuid) : DecidablePred (s.Serves userId)
  | .tick _ => inferInstanceAs (Decidable False)
  | .jobs a => inferInstanceAs (Decidable (s.jobs.Serves s.world.clock userId a))
  | .chat a => inferInstanceAs (Decidable (s.chat.Serves userId a))

/-- The rows of the user are the same. -/
structure Spared (userId : Uuid) (s s' : System) : Prop where
  db : s'.jobs.db.own userId = s.jobs.db.own userId
  tables : s'.chat.tables.own userId = s.chat.tables.own userId

theorem frame_cascade (hs : Schema s) {a : Jobs.Action} (ha : ¬ s.jobs.Serves s.world.clock userId a) :
    Tables.Frame userId s.chat.tables (s.cascade a).tables := by
  unfold cascade
  split
  swap
  · exact .refl userId _
  rename_i other repositoryId
  unfold Chat.removeRepository
  split
  · exact .refl userId _
  · rename_i ho
    refine Tables.frame_delete hs.tables fun c hc hp hu => ?_
    refine Db.Owns.ne hs.db (Db.owns_of_owned ho) ha ?_
    rw [← of_decide_eq_true hp, ← hu]
    exact hs.tables.conversations c hc

theorem spared_step (hj : JobsInv env s) (hc : ChatInv env s) (hs : Schema s) (had : AdmitInv s) {a : Action}
    (ha : ¬ s.Serves userId a) : Spared userId s (step env s a) := by
  cases a with
  | tick elapsed => exact ⟨rfl, rfl⟩
  | jobs a =>
    simp only [step]
    split
    · rename_i hfr
      exact ⟨(Jobs.frame_step env s.world.clock hs.db hj.inv hc.owners.ids hfr.1.2 ha).own, (frame_cascade hs ha).own⟩
    · exact ⟨rfl, rfl⟩
  | chat a =>
    simp only [step]
    split
    · rename_i hfr
      have hinner : ∀ p ∈ s.chat.submits, p.pc.Inner → Chat.Admitted s.world s.chat.tables p :=
        fun p hp hin => had p hp (.inl hin)
      exact ⟨rfl, (Chat.frame_step hs.tables hc.runs hc.receipts hinner hfr.2 ha).own⟩
    · exact ⟨rfl, rfl⟩

theorem Spared.trans {s' s'' : System} (h : Spared userId s s') (h' : Spared userId s' s'') : Spared userId s s'' :=
  ⟨h'.db.trans h.db, h'.tables.trans h.tables⟩

/-- However the work for other users interleaves, what the user owns stays as it is. -/
theorem others_spare (env : Env) (acts more : List Action) (userId : Uuid)
    (h : (machine env).Along (fun s a => ¬ s.Serves userId a) (run env acts) more) :
    Spared userId (run env acts) ((machine env).exec (run env acts) more) := by
  have hstep : ∀ (s : System) (a : Action), ¬ s.Serves userId a →
      (∃ acts, s = run env acts) ∧ Spared userId (run env acts) s →
      (∃ acts, step env s a = run env acts) ∧ Spared userId (run env acts) (step env s a) := by
    rintro s a ha ⟨⟨before, rfl⟩, hs⟩
    have hschema := schema env before
    refine ⟨⟨before ++ [a], ((machine env).run_append before [a]).symm⟩, hs.trans ?_⟩
    exact spared_step (jobsInv env before) (chatInv env before) hschema (admitInv env before) ha
  exact (Machine.along_invariant (P := fun s => (∃ before, s = run env before) ∧ Spared userId (run env acts) s) hstep
    ⟨⟨acts, rfl⟩, rfl, rfl⟩ h).2

/-- A worker has the import of the first user. -/
def busy : List Action :=
  [.jobs (.createImport 1 (.ok (['a'], ['b'])) none 10 11), .jobs (.claimImport 11 12)]

/-- Another user connects a repository, and both dispatchers make a cycle: one publishes the new job, the other finds
nothing. -/
def elsewhere : List Action :=
  [.jobs (.createImport 2 (.ok (['a'], ['b'])) none 20 21), .jobs (.importCycle .expire), .jobs (.importCycle (.select 0)),
    .jobs (.importCycle (.publish 0 true)), .jobs (.claimImport 21 22), .chat .dispatch, .chat (.cycleStep 0 true),
    .chat (.cycleStep 0 true), .chat (.cycleStep 0 true)]

theorem others_spare_elsewhere :
    Spared 1 (run Env.plain busy) ((machine Env.plain).exec (run Env.plain busy) elsewhere) :=
  others_spare Env.plain busy elsewhere 1 (by decide +kernel)

end System
end RepoPilot
