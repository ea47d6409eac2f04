import RepoPilot.ChatSteps

/-! # What happens to a run

`Chat.Change` says what one action does to the row of a run, its events and the messages of its turn.
`Chat.RunInv` is the invariant this needs: one worker for each run that was ever claimed, and every
question and answer under an identifier of its own. -/

namespace RepoPilot
open Generation

namespace Answers
variable {env : Env} {now : Time} {c : Call} {input : Input} {pc pc' : Pc} {db : Db} {t t' : Tables}

/-- The answer that a process returned goes by the name it was given. -/
def Pc.Names (answerId : Uuid) : Pc → Prop
  | .answered answer => answer.answerId = answerId
  | _ => True

theorem Pc.Raising.receipt (h : pc.Raising) : pc.receipt = none := by
  cases pc <;> first | rfl | exact absurd h id

theorem Pc.Raising.names {answerId : Uuid} (h : pc.Raising) : pc.Names answerId := by
  cases pc <;> trivial

theorem respond_answerId {settings : Settings} {answerId : Uuid} {retrieved : Retrieved}
    {result : Option GenerationResult} {history included : List HistoryTurn} {answer : AnswerResponse}
    (h : respond env settings answerId retrieved result history included = some answer) :
    answer.answerId = answerId := by
  unfold respond at h
  split at h
  · cases h
    rfl
  · cases h

theorem Effect.names (h : Effect env now c input pc db t pc' t') (hp : pc.Names c.answerId) :
    pc'.Names c.answerId := by
  cases h with
  | idle => exact hp
  | raised h => exact h.names
  | selected hpc h => cases h with
    | raised h => exact h.names
    | _ => exact trivial
  | finishedEmbedding hpc hf h => cases h with
    | raised h => exact h.names
    | _ => exact trivial
  | loaded hpc hf h => cases h with
    | raised h => exact h.names
    | empty hs h => exact respond_answerId h
    | found => exact trivial
  | finishedGeneration hpc hf h => cases h with
    | raised h => exact h.names
    | answered hc h => exact respond_answerId h
  | _ => exact trivial

/-- Without a run there are no receipts and no previews. -/
theorem Effect.of_none (h : Effect env now c input pc db t pc' t') (hrun : c.run = none) (hr : pc.receipt = none) :
    pc'.receipt = none ∧ t' = t := by
  have hbegin : ∀ {kind : ReceiptKind} {model : Text} {i o : ℚ} {receipt : Option Uuid} {t' : Tables},
      beginReceipt now c input kind model i o t = some (.ok (receipt, t')) → receipt = none ∧ t' = t := by
    intro kind model i o receipt t' h
    rcases beginReceipt_eq h with ⟨-, hr, ht⟩ | ⟨runId, token, id, hsome, -⟩
    · exact ⟨hr, ht⟩
    · rw [hrun] at hsome
      cases hsome
  have hfinish : ∀ {receipt : Option Uuid} {i o : Int} {t' : Tables}, receipt = none →
      finishReceipt now receipt i o t = .ok t' → t' = t := by
    intro receipt i o t' hn hf
    subst hn
    exact (Except.ok.inj hf).symm
  cases h with
  | idle => exact ⟨hr, rfl⟩
  | raised h => exact ⟨h.receipt, rfl⟩
  | selected hpc h => cases h with
    | raised h => exact ⟨h.receipt, rfl⟩
    | _ => exact ⟨rfl, rfl⟩
  | beganEmbedding hpc h => exact hbegin h
  | calledEmbed hpc => subst hpc; exact ⟨hr, rfl⟩
  | embedded hpc => subst hpc; exact ⟨hr, rfl⟩
  | failedCall hpc =>
    rcases hpc with ⟨plan, channels, p, rfl⟩ | ⟨retrieved, included, preview, rfl⟩ <;> exact ⟨hr, rfl⟩
  | finishedEmbedding hpc hf h =>
    subst hpc
    refine ⟨?_, hfinish hr hf⟩
    cases h with
    | raised h => exact h.receipt
    | used => rfl
  | loaded hpc hf h => cases h with
    | raised h => exact ⟨h.receipt, rfl⟩
    | _ => exact ⟨rfl, rfl⟩
  | beganGeneration hpc h => exact hbegin h
  | calledGenerate hpc => subst hpc; exact ⟨hr, rfl⟩
  | streamed hpc => subst hpc; exact ⟨hr, rfl⟩
  | previewed hpc hsome =>
    rw [hrun] at hsome
    cases hsome
  | generated hpc => subst hpc; exact ⟨hr, rfl⟩
  | finishedGeneration hpc hf h =>
    subst hpc
    refine ⟨?_, hfinish hr hf⟩
    cases h with
    | raised h => exact h.receipt
    | answered => rfl
  | recorded hpc hf => subst hpc; exact ⟨rfl, hfinish hr hf⟩
  | _ => exact ⟨rfl, rfl⟩

end Answers

/-! ### The statuses of a run -/

/-- The statuses a run has gone through, and the one it has reached. -/
inductive Path : List Status → Status → Prop
  | submitted : Path [.queued] .queued
  | claimed {l : List Status} (h : Path l .queued) : Path (l ++ [.running]) .running
  | completed {l : List Status} (h : Path l .running) : Path (l ++ [.completed]) .completed
  | stopped {l : List Status} {s s' : Status} (h : Path l s) (hs : s.Active) (hs' : s' = .failed ∨ s' = .cancelled) :
    Path (l ++ [s']) s'

namespace Path
variable {l : List Status} {s : Status}

theorem length (h : Path l s) : l.length = if s = .queued then 1 else if s = .running then 2 else l.length := by
  induction h with
  | submitted => rfl
  | claimed h ih => simp at ih ⊢; exact ih
  | completed h ih => simp
  | stopped h hs hs' ih => rcases hs' with rfl | rfl <;> simp

theorem length_le (h : Path l s) : l.length ≤ 3 := by
  cases h with
  | submitted => decide
  | claimed h => have := h.length; simp at this ⊢; omega
  | completed h => have := h.length; simp at this ⊢; omega
  | stopped h hs hs' =>
    have := h.length
    rcases hs with rfl | rfl <;> simp at this ⊢ <;> omega

theorem getLast? (h : Path l s) : l.getLast? = some s := by
  cases h <;> simp

theorem ne_nil (h : Path l s) : l ≠ [] := by
  cases h <;> simp

end Path

namespace Tables
variable {now : Time} {t t' : Tables} {r' : AnswerRun}

/-- The messages of a turn in its conversation. -/
def turn (t : Tables) (conversationId turnId : Uuid) : List Message :=
  t.messages.filter fun m => m.conversationId = conversationId ∧ m.turnId = turnId

theorem turn_congr (h : t'.messages = t.messages) (conversationId turnId : Uuid) :
    t'.turn conversationId turnId = t.turn conversationId turnId := by
  unfold turn
  rw [h]

theorem turn_append (ms : List Message) (h : t'.messages = t.messages ++ ms) (conversationId turnId : Uuid) :
    t'.turn conversationId turnId = t.turn conversationId turnId ++
      ms.filter fun m => m.conversationId = conversationId ∧ m.turnId = turnId := by
  unfold turn
  rw [h, List.filter_append]

theorem Transitioned.change {p : AnswerRun → Prop} [DecidablePred p] {f : AnswerRun → AnswerRun}
    (h : Transitioned now p f t t') (hk : Table.Keyed (·.id) t.runs) (hr' : r' ∈ t'.runs) :
    ∃ r ∈ t.runs,
      (p r ∧ r' = settled (f r) ∧
        t'.eventsOf r.id = t.eventsOf r.id ++ [⟨r.id, t.lastSequence r.id + 1, (f r).status, now⟩]) ∨
      (r' = r ∧ t'.eventsOf r.id = t.eventsOf r.id) := by
  rw [h.runs] at hr'
  obtain ⟨r, hr, rfl⟩ := Table.mem_update.1 hr'
  by_cases hp : p r
  · exact ⟨r, hr, .inl ⟨hp, if_pos hp, h.events r hr hp⟩⟩
  · refine ⟨r, hr, .inr ⟨if_neg hp, h.others r.id fun q hq hid => ?_⟩⟩
    rw [hk.eq hq hr hid]
    exact hp

/-- What hangs on a run that stays is not deleted. -/
theorem kept_deleteConversations {β : Type} (p : Conversation → Bool) (hk : Table.Keyed (·.id) t.runs)
    (hr' : r' ∈ (t.deleteConversations p).runs) (runId : β → Uuid) (rows : List β) :
    (rows.filter fun e => runId e ∉ (t.runs.filter fun q =>
        q.conversationId ∈ (t.conversations.filter p).map (·.id)).map (·.id)).filter (runId · = r'.id) =
      rows.filter (runId · = r'.id) := by
  obtain ⟨hr, hno⟩ := List.mem_filter.1 hr'
  have hstay : r'.id ∉ (t.runs.filter fun q =>
      q.conversationId ∈ (t.conversations.filter p).map (·.id)).map (·.id) := by
    intro hm
    obtain ⟨q, hq, hid⟩ := List.mem_map.1 hm
    obtain ⟨hq, hgone⟩ := List.mem_filter.1 hq
    rw [hk.eq hq hr hid] at hgone
    exact of_decide_eq_true hno (of_decide_eq_true hgone)
  rw [List.filter_filter]
  refine List.filter_congr fun e _ => ?_
  by_cases he : runId e = r'.id
  · simpa [he] using hstay
  · simp [he]

theorem eventsOf_deleteConversations (p : Conversation → Bool) (hk : Table.Keyed (·.id) t.runs)
    (hr' : r' ∈ (t.deleteConversations p).runs) : (t.deleteConversations p).eventsOf r'.id = t.eventsOf r'.id :=
  kept_deleteConversations p hk hr' RunEvent.runId t.events

theorem turn_deleteConversations (p : Conversation → Bool) (hr' : r' ∈ (t.deleteConversations p).runs) (turnId : Uuid) :
    (t.deleteConversations p).turn r'.conversationId turnId = t.turn r'.conversationId turnId := by
  obtain ⟨hr, hno⟩ := List.mem_filter.1 hr'
  have hno := of_decide_eq_true hno
  unfold turn deleteConversations
  dsimp only
  rw [List.filter_filter]
  refine List.filter_congr fun m _ => ?_
  by_cases hm : m.conversationId = r'.conversationId
  · simpa [hm] using fun _ => hno
  · simp [hm]

end Tables

/-! ### The invariant -/

namespace Runs

/-- What a worker took from its run. -/
structure Bound (t : Tables) (k : Worker) (conversationId : Uuid) (question : Text) (call : Call) : Prop where
  answerId : call.answerId = k.runId
  run : call.run = some (k.runId, k.token)
  settings : call.settings = k.settings
  row : ∀ r ∈ t.runs, r.id = k.runId →
    r.conversationId = conversationId ∧ r.question = question ∧ call.expectedSourceId = some r.sourceIndexId

/-- Where a worker is agrees with its run. -/
def Worker.Serves (t : Tables) (k : Worker) : Prop :=
  match k.pc with
  | .answering conversationId question call pc => Bound t k conversationId question call ∧ pc.Names k.runId
  | .publish conversationId question call answer => Bound t k conversationId question call ∧ answer.answerId = k.runId
  | _ => True

end Runs

namespace Ask

/-- No receipt is held, and the answer goes by its name. -/
def Quiet (answerId : Uuid) : AskPc → Prop
  | .answering _ pc => pc.receipt = none ∧ pc.Names answerId
  | .append answer => answer.answerId = answerId
  | _ => True

/-- A question has an identifier that no run has, and no receipt. -/
structure Separate (w : World) (t : Tables) (p : Ask) : Prop where
  issued : p.answerId ∈ w.issued
  runs : ∀ r ∈ t.runs, r.id ≠ p.answerId
  quiet : Quiet p.answerId p.pc

theorem Separate.receipt {w : World} {t : Tables} {p : Ask} (h : p.Separate w t) {repositoryId : Uuid} {pc : Answers.Pc}
    (hpc : p.pc = .answering repositoryId pc) : pc.receipt = none ∧ pc.Names p.answerId := by
  have hq := h.quiet
  rw [hpc] at hq
  exact hq

theorem Separate.answer {w : World} {t : Tables} {p : Ask} (h : p.Separate w t) {answer : AnswerResponse}
    (hpc : p.pc = .append answer) : answer.answerId = p.answerId := by
  have hq := h.quiet
  rw [hpc] at hq
  exact hq

end Ask

namespace Chat

/-- A delivery has passed the claim of the run. -/
def Claimed (ws : List Runs.Worker) (runId : Uuid) : Prop := runId ∈ ws.map (·.runId)

/-- The columns, the events and the messages of a run agree with its status. -/
structure RunRow (t : Tables) (ws : List Runs.Worker) (r : AnswerRun) : Prop where
  lease : r.leaseToken.isSome ↔ r.status = .running
  preview : r.status ≠ .running → r.previewText = []
  unclaimed : r.usageState = .notStarted ↔ ¬ Claimed ws r.id
  queued : r.status = .queued → r.usageState = .notStarted
  running : r.status = .running → r.usageState = .unknown
  recorded : r.usageState = .recorded ↔ r.status = .completed
  numbered : (t.eventsOf r.id).map (·.sequence) = List.range' 1 (t.eventsOf r.id).length
  path : Path ((t.eventsOf r.id).map (·.status)) r.status
  turn : (t.turn r.conversationId r.id).map (·.role) = if r.status = .completed then [.user, .assistant] else []

structure RunInv (w : World) (s : Chat) : Prop where
  keyed : Table.Keyed (·.id) s.tables.runs
  ids : ∀ r ∈ s.tables.runs, r.id ∈ w.issued
  events : ∀ e ∈ s.tables.events, e.runId ∈ w.issued
  turns : ∀ m ∈ s.tables.messages, m.turnId ∈ w.issued
  once : Table.Keyed (·.runId) s.workers
  claims : ∀ k ∈ s.workers, k.runId ∈ w.issued
  rows : ∀ r ∈ s.tables.runs, RunRow s.tables s.workers r
  workers : ∀ k ∈ s.workers, k.Serves s.tables
  asks : ∀ p ∈ s.asks, p.Separate w s.tables

/-! ### What one action does to a run -/

/-- What a run cost, as its columns say. -/
def bill (r : AnswerRun) : Option Nat × Option Nat × Option ℚ := (r.inputTokens, r.outputTokens, r.estimatedCostUsd)

/-- What an answer cost. -/
def billOf (answer : AnswerResponse) : Option Nat × Option Nat × Option ℚ :=
  (some answer.inputTokens, some answer.outputTokens,
    some (answer.estimatedGenerationCostUsd + answer.estimatedRetrievalCostUsd))

/-- A run that stays keeps its status, or makes one move and has one event for it. -/
inductive Change (now : Time) (s : Chat) (t' : Tables) (ws' : List Runs.Worker) (r r' : AnswerRun) : Prop
  | quiet (status : r'.status = r.status) (lease : r'.leaseToken = r.leaseToken) (usage : r'.usageState = r.usageState)
    (preview : r'.previewText = r.previewText ∨ r.status = .running) (bill : bill r' = bill r)
    (events : t'.eventsOf r.id = s.tables.eventsOf r.id)
    (turn : t'.turn r.conversationId r.id = s.tables.turn r.conversationId r.id)
    (workers : Claimed ws' r.id ↔ Claimed s.workers r.id)
  | claimed (was : r.status = .queued) (status : r'.status = .running) (lease : r'.leaseToken.isSome)
    (usage : r'.usageState = .unknown)
    (events : t'.eventsOf r.id = s.tables.eventsOf r.id ++ [⟨r.id, s.tables.lastSequence r.id + 1, r'.status, now⟩])
    (turn : t'.turn r.conversationId r.id = s.tables.turn r.conversationId r.id)
    (workers : Claimed ws' r.id)
  | stopped (was : r.status.Active) (status : r'.status = .failed ∨ r'.status = .cancelled)
    (lease : r'.leaseToken = none ∨ r.status = .queued ∧ r'.leaseToken = r.leaseToken)
    (usage : r'.usageState = r.usageState) (preview : r'.previewText = [])
    (events : t'.eventsOf r.id = s.tables.eventsOf r.id ++ [⟨r.id, s.tables.lastSequence r.id + 1, r'.status, now⟩])
    (turn : t'.turn r.conversationId r.id = s.tables.turn r.conversationId r.id)
    (workers : Claimed ws' r.id ↔ Claimed s.workers r.id)
  | completed (was : r.status = .running) (status : r'.status = .completed) (lease : r'.leaseToken = none)
    (usage : r'.usageState = .recorded) (preview : r'.previewText = [])
    (events : t'.eventsOf r.id = s.tables.eventsOf r.id ++ [⟨r.id, s.tables.lastSequence r.id + 1, r'.status, now⟩])
    (turn : (t'.turn r.conversationId r.id).map (·.role) =
      (s.tables.turn r.conversationId r.id).map (·.role) ++ [.user, .assistant])
    (workers : Claimed ws' r.id ↔ Claimed s.workers r.id)
    (bill : ∃ k ∈ s.workers, ∃ conversationId question call answer,
      k.runId = r.id ∧ k.pc = .publish conversationId question call answer ∧ bill r' = billOf answer ∧
        { k with pc := .published call answer } ∈ ws')

/-- A run that was just submitted. -/
structure Submitted (now : Time) (ids : List Uuid) (t' : Tables) (ws' : List Runs.Worker) (r' : AnswerRun) : Prop where
  id : r'.id ∈ ids
  status : r'.status = .queued
  lease : r'.leaseToken = none
  usage : r'.usageState = .notStarted
  preview : r'.previewText = []
  events : t'.eventsOf r'.id = [⟨r'.id, 1, .queued, now⟩]
  turn : t'.turn r'.conversationId r'.id = []
  workers : ¬ Claimed ws' r'.id
  conversation : ∃ c ∈ t'.conversations, c.id = r'.conversationId

section Changes
variable {env : Env} {now : Time} {ids : List Uuid} {db : Db} {w : World} {s : Chat} {t' : Tables}
  {as' : List Ask} {sb' : List Runs.Submit} {ws' : List Runs.Worker} {log' : List Entry} {r r' : AnswerRun}

theorem change_self (he : t'.events = s.tables.events) (hm : t'.messages = s.tables.messages)
    (hw : Claimed ws' r.id ↔ Claimed s.workers r.id) : Change now s t' ws' r r :=
  .quiet rfl rfl rfl (.inl rfl) rfl (by unfold Tables.eventsOf; rw [he]) (Tables.turn_congr hm _ _) hw

theorem claimed_set {i : Nat} {k : Runs.Worker} (hk : s.workers[i]? = some k) (pc' : Runs.Pc) (runId : Uuid) :
    Claimed (s.workers.set i { k with pc := pc' }) runId ↔ Claimed s.workers runId := by
  have h : (s.workers.set i { k with pc := pc' }).map (·.runId) = s.workers.map (·.runId) :=
    Table.map_set_of_eq (x := { k with pc := pc' }) (·.runId) hk rfl
  unfold Claimed
  rw [h]

/-- The pair of messages of an answer lies in one turn of one conversation. -/
theorem pair_turn (conversationId : Uuid) (count : Nat) (question : Text) (answer : AnswerResponse) (x y : Uuid) :
    ((Tables.pair conversationId count question answer).filter fun m => m.conversationId = x ∧ m.turnId = y) =
      if conversationId = x ∧ answer.answerId = y then Tables.pair conversationId count question answer else [] := by
  unfold Tables.pair
  by_cases h : conversationId = x ∧ answer.answerId = y <;> simp [h]

theorem changes_claimed (hi : RunInv w s) {k : Runs.Worker} (hr : ∃ r ∈ s.tables.runs, Runs.ClaimWhere now k.runId r)
    (hr' : r' ∈ (s.tables.transition now (Runs.ClaimWhere now k.runId) (Runs.claimed now k.token)).runs) :
    ∃ r ∈ s.tables.runs, Runs.Same r r' ∧
      Change now s (s.tables.transition now (Runs.ClaimWhere now k.runId) (Runs.claimed now k.token))
        (s.workers ++ [k]) r r' := by
  have ht := Tables.transitioned now (t := s.tables) (p := Runs.ClaimWhere now k.runId) (f := Runs.claimed now k.token)
    hi.keyed fun _ _ _ => rfl
  have hclaimed : ∀ id, Claimed (s.workers ++ [k]) id ↔ Claimed s.workers id ∨ id = k.runId := by
    intro id
    unfold Claimed
    simp
  obtain ⟨r, hrm, ⟨hp, rfl, he⟩ | ⟨rfl, he⟩⟩ := ht.change hi.keyed hr'
  · have hact : (Runs.claimed now k.token r).status.Active := .inr rfl
    rw [Tables.settled_of_active hact]
    exact ⟨r, hrm, ⟨rfl, rfl, rfl, rfl, rfl, rfl, rfl⟩,
      .claimed hp.2.1 rfl rfl rfl he (Tables.turn_congr ht.messages _ _) ((hclaimed _).2 (.inr hp.1))⟩
  · refine ⟨r', hrm, ⟨rfl, rfl, rfl, rfl, rfl, rfl, rfl⟩, ?_⟩
    by_cases hid : r'.id = k.runId
    · -- the row with the claimed identifier is not a row that stays as it is
      obtain ⟨q, hq, hqw⟩ := hr
      have hqr : q = r' := hi.keyed.eq hq hrm (hqw.1.trans hid.symm)
      rw [hqr] at hqw
      have hnew := ht.events r' hrm hqw
      rw [he] at hnew
      exact absurd (congrArg List.length hnew) (by simp)
    · refine .quiet rfl rfl rfl (.inl rfl) rfl he (Tables.turn_congr ht.messages _ _) ?_
      rw [hclaimed, or_iff_left hid]

theorem changes_stopped (hi : RunInv w s) {p : AnswerRun → Prop} [DecidablePred p] {f : AnswerRun → AnswerRun}
    (hm : ∀ r ∈ s.tables.runs, p r → Runs.Stops r (f r)) (hw : ∀ id, Claimed ws' id ↔ Claimed s.workers id)
    (hr' : r' ∈ (s.tables.transition now p f).runs) :
    ∃ r ∈ s.tables.runs, Runs.Same r r' ∧ Change now s (s.tables.transition now p f) ws' r r' := by
  have ht := Tables.transitioned now (t := s.tables) (p := p) (f := f) hi.keyed fun r hr hp => (hm r hr hp).same.id
  obtain ⟨r, hrm, ⟨hp, rfl, he⟩ | ⟨rfl, he⟩⟩ := ht.change hi.keyed hr'
  · obtain ⟨hs, hact, hst, husage, hlease⟩ := hm r hrm hp
    have hterm : (f r).status.Terminal := by rcases hst with h | h <;> rw [h] <;> decide
    rw [Tables.settled_of_terminal hterm]
    exact ⟨r, hrm, ⟨hs.id, hs.conversationId, hs.requestKey, hs.requestHash, hs.question, hs.mode, hs.sourceIndexId⟩,
      .stopped hact hst hlease husage rfl he (Tables.turn_congr ht.messages _ _) (hw _)⟩
  · exact ⟨r', hrm, ⟨rfl, rfl, rfl, rfl, rfl, rfl, rfl⟩,
      .quiet rfl rfl rfl (.inl rfl) rfl he (Tables.turn_congr ht.messages _ _) (hw _)⟩

theorem changes_published (hi : RunInv w s) {k : Runs.Worker} (hk : k ∈ s.workers) {conversationId : Uuid}
    {question : Text} {call : Call} {answer : AnswerResponse}
    (hpc : k.pc = .publish conversationId question call answer)
    (h : Runs.publish now k.runId k.token call.userId conversationId question answer db s.tables = some (.ok t'))
    (hw : ∀ id, Claimed ws' id ↔ Claimed s.workers id) (hws : { k with pc := .published call answer } ∈ ws')
    (hr' : r' ∈ t'.runs) :
    ∃ r ∈ s.tables.runs, Runs.Same r r' ∧ Change now s t' ws' r r' := by
  obtain ⟨run, hrun, hheld, c, -, -, ht⟩ := Runs.publish_eq hi.keyed h
  have hserves := hi.workers k hk
  unfold Runs.Worker.Serves at hserves
  rw [hpc] at hserves
  obtain ⟨hbound, hname⟩ := hserves
  have hturn : ∀ x y, t'.turn x y = s.tables.turn x y ++
      if conversationId = x ∧ answer.answerId = y then
        Tables.pair conversationId (c.messageCount + 2) question answer else [] := by
    intro x y
    rw [Tables.turn_append _ ht.messages, pair_turn]
  obtain ⟨r, hrm, ⟨hp, rfl, he⟩ | ⟨rfl, he⟩⟩ := ht.change hi.keyed hr'
  · have hterm : (Runs.completed now answer r).status.Terminal := .inl rfl
    rw [Tables.settled_of_terminal hterm]
    refine ⟨r, hrm, ⟨rfl, rfl, rfl, rfl, rfl, rfl, rfl⟩, .completed hp.2.1 rfl rfl rfl rfl he ?_ (hw _)
      ⟨k, hk, conversationId, question, call, answer, hp.1.symm, hpc, rfl, hws⟩⟩
    have hmine : conversationId = r.conversationId ∧ answer.answerId = r.id :=
      ⟨(hbound.row r hrm hp.1).1.symm, hname.trans hp.1.symm⟩
    rw [hturn, if_pos hmine, List.map_append]
    rfl
  · refine ⟨r', hrm, ⟨rfl, rfl, rfl, rfl, rfl, rfl, rfl⟩, .quiet rfl rfl rfl (.inl rfl) rfl he ?_ (hw _)⟩
    rw [hturn, if_neg, List.append_nil]
    rintro ⟨-, hid⟩
    have hrun' : run = r' := hi.keyed.eq hrun hrm (hheld.1.trans (hname.symm.trans hid))
    subst hrun'
    have hnew := ht.events run hrm hheld
    rw [he] at hnew
    exact absurd (congrArg List.length hnew) (by simp)

theorem changes_written {c : Call} {input : Answers.Input} {pc : Answers.Pc}
    (h : Answers.Writes env now c input pc s.tables t')
    (hw : ∀ id, Claimed ws' id ↔ Claimed s.workers id) (hr' : r' ∈ t'.runs) :
    ∃ r ∈ s.tables.runs, Runs.Same r r' ∧ Change now s t' ws' r r' := by
  cases h with
  | none => exact ⟨r', hr', ⟨rfl, rfl, rfl, rfl, rfl, rfl, rfl⟩, change_self rfl rfl (hw _)⟩
  | began hrun hin h =>
    obtain ⟨-, -, rfl⟩ := Tables.begin_eq h
    exact ⟨r', hr', ⟨rfl, rfl, rfl, rfl, rfl, rfl, rfl⟩, change_self rfl rfl (hw _)⟩
  | finished hr h =>
    obtain ⟨-, -, rfl⟩ := Tables.finish_eq h
    exact ⟨r', hr', ⟨rfl, rfl, rfl, rfl, rfl, rfl, rfl⟩, change_self rfl rfl (hw _)⟩
  | previewed hrun =>
    obtain ⟨r, hr, rfl⟩ := Table.mem_update.1 hr'
    refine ⟨r, hr, ?_⟩
    split
    · rename_i hp
      exact ⟨⟨rfl, rfl, rfl, rfl, rfl, rfl, rfl⟩, .quiet rfl rfl rfl (.inr hp.1.2.1) rfl rfl rfl (hw _)⟩
    · exact ⟨⟨rfl, rfl, rfl, rfl, rfl, rfl, rfl⟩, change_self rfl rfl (hw _)⟩

theorem changes_worked (hi : RunInv w s) {i : Nat} {k : Runs.Worker} {input : Answers.Input} {pc' : Runs.Pc}
    (hk : s.workers[i]? = some k) (h : Runs.Worker.Effect env now k input db s.tables pc' t') (hr' : r' ∈ t'.runs) :
    ∃ r ∈ s.tables.runs, Runs.Same r r' ∧ Change now s t' (s.workers.set i { k with pc := pc' }) r r' := by
  have hw := claimed_set hk pc'
  cases h with
  | idle | ending | loaded => exact ⟨r', hr', ⟨rfl, rfl, rfl, rfl, rfl, rfl, rfl⟩, change_self rfl rfl (hw _)⟩
  | answering hpc h => exact changes_written h.writes hw hr'
  | published hpc h =>
    exact changes_published hi (Table.mem_of_getElem? hk) hpc h hw (Table.mem_set_self hk) hr'
  | failed hpc hr => exact changes_stopped hi (fun r _ hp => Runs.stops_failed (.inr hp.2.1)) hw hr'

theorem changes_inserted (hi : RunInv w s) (hf : ∀ i ∈ ids, i ∉ w.issued) {p : Runs.Submit} {runId : Uuid}
    {source : RepositoryIndex} {history : List HistoryTurn} (hid : runId ∈ ids)
    (h : Runs.insertRun now (Runs.newRun env now p runId source history) s.tables = some t') (hr' : r' ∈ t'.runs) :
    (∃ r ∈ s.tables.runs, Runs.Same r r' ∧ Change now s t' s.workers r r') ∨ Submitted now ids t' s.workers r' := by
  have hnew : runId ∉ w.issued := hf _ hid
  have hne : ∀ r ∈ s.tables.runs, r.id ≠ runId := fun r hr he => hnew (he ▸ hi.ids r hr)
  obtain ⟨hrejects, rfl⟩ := Runs.insertRun_eq hi.keyed hne (.inl rfl) h
  have hno : s.tables.eventsOf runId = [] := by
    refine List.filter_eq_nil_iff.2 fun e he hid => hnew ?_
    rw [← of_decide_eq_true hid]
    exact hi.events e he
  have hlast : s.tables.lastSequence runId = 0 := by
    unfold Tables.lastSequence
    rw [hno]
    rfl
  rcases List.mem_append.1 hr' with hr | hr
  · refine .inl ⟨r', hr, ⟨rfl, rfl, rfl, rfl, rfl, rfl, rfl⟩, .quiet rfl rfl rfl (.inl rfl) rfl ?_ rfl .rfl⟩
    refine (Tables.eventsOf_append _ _ r'.id).trans ?_
    rw [if_neg fun he => hne r' hr he.symm, List.append_nil]
  · rw [List.mem_singleton] at hr
    subst hr
    refine .inr ⟨hid, rfl, rfl, rfl, rfl, ?_, ?_, ?_, not_not.1 fun hno => hrejects (.inl hno)⟩
    · refine (Tables.eventsOf_append _ _ runId).trans ?_
      rw [hno]
      show [] ++ (if runId = runId then [RunEvent.mk runId (s.tables.lastSequence runId + 1) .queued now] else []) = _
      rw [if_pos rfl, hlast]
      rfl
    · refine List.filter_eq_nil_iff.2 fun m hm he => hnew ?_
      have hturn : m.turnId = runId := (of_decide_eq_true he).2
      exact hturn ▸ hi.turns m hm
    · intro hc
      obtain ⟨k, hk, he⟩ := List.mem_map.1 hc
      have hrun : k.runId = runId := he
      exact hnew (hrun ▸ hi.claims k hk)

theorem changes_asked (hi : RunInv w s) {p : Ask} {answer : AnswerResponse} (hp : p ∈ s.asks)
    (hpc : p.pc = .append answer)
    (h : s.tables.appendPair now db p.userId p.conversationId p.request.question answer = .ok t') (hr' : r' ∈ t'.runs) :
    ∃ r ∈ s.tables.runs, Runs.Same r r' ∧ Change now s t' s.workers r r' := by
  obtain ⟨c, -, -, rfl⟩ := Tables.appendPair_eq h
  refine ⟨r', hr', ⟨rfl, rfl, rfl, rfl, rfl, rfl, rfl⟩, .quiet rfl rfl rfl (.inl rfl) rfl rfl ?_ .rfl⟩
  have hname := (hi.asks p hp).answer hpc
  have hne : r'.id ≠ p.answerId := (hi.asks p hp).runs r' hr'
  rw [Tables.turn_append _ rfl, pair_turn, if_neg, List.append_nil]
  rintro ⟨-, he⟩
  exact hne (he.symm.trans hname)

/-- Every run after an action is an old one that changed in one of the four ways, or the new one. -/
theorem changes (hi : RunInv w s) (hf : ∀ i ∈ ids, i ∉ w.issued) (h : Effect env now ids db s t' as' sb' ws' log')
    (hr' : r' ∈ t'.runs) :
    (∃ r ∈ s.tables.runs, Runs.Same r r' ∧ Change now s t' ws' r r') ∨ Submitted now ids t' ws' r' := by
  cases h with
  | same | asking | submitting => exact .inl ⟨r', hr', ⟨rfl, rfl, rfl, rfl, rfl, rfl, rfl⟩, change_self rfl rfl .rfl⟩
  | claimed hid hpc hr => exact .inl (changes_claimed hi hr hr')
  | worked hk hids h => exact .inl (changes_worked hi hk h hr')
  | stopped hm => exact .inl (changes_stopped hi hm (fun _ => .rfl) hr')
  | stamped =>
    obtain ⟨r, hr, rfl⟩ := Table.mem_update.1 hr'
    refine .inl ⟨r, hr, ?_, ?_⟩
    · split <;> exact ⟨rfl, rfl, rfl, rfl, rfl, rfl, rfl⟩
    · split
      · exact .quiet rfl rfl rfl (.inl rfl) rfl rfl rfl .rfl
      · exact change_self rfl rfl .rfl
  | created => exact .inl ⟨r', hr', ⟨rfl, rfl, rfl, rfl, rfl, rfl, rfl⟩, change_self rfl rfl .rfl⟩
  | removed p =>
    refine .inl ⟨r', List.mem_of_mem_filter hr', ⟨rfl, rfl, rfl, rfl, rfl, rfl, rfl⟩, ?_⟩
    exact .quiet rfl rfl rfl (.inl rfl) rfl (Tables.eventsOf_deleteConversations p hi.keyed hr')
      (Tables.turn_deleteConversations p hr' _) .rfl
  | submitted hp hids _ h =>
    cases h with
    | inserted hpc hin h => exact changes_inserted hi hf (hids _ hin) h hr'
    | _ => exact .inl ⟨r', hr', ⟨rfl, rfl, rfl, rfl, rfl, rfl, rfl⟩, change_self rfl rfl .rfl⟩
  | asked hp h =>
    have hpm := Table.mem_of_getElem? hp
    cases h with
    | idle | ended | began => exact .inl ⟨r', hr', ⟨rfl, rfl, rfl, rfl, rfl, rfl, rfl⟩, change_self rfl rfl .rfl⟩
    | answering hpc h =>
      obtain ⟨-, rfl⟩ := h.of_none rfl ((hi.asks _ hpm).receipt hpc).1
      exact .inl ⟨r', hr', ⟨rfl, rfl, rfl, rfl, rfl, rfl, rfl⟩, change_self rfl rfl .rfl⟩
    | appended hpc h => exact .inl (changes_asked hi hpm hpc h hr')

end Changes
end Chat
end RepoPilot
