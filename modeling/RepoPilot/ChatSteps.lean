import RepoPilot.AnswerSteps
import RepoPilot.Transitions

/-! # What one action does to the conversations

`Chat.Effect` lists the writes of all processes once. The invariants of runs, events, messages and
receipts are proved by a case analysis on it. -/

namespace RepoPilot
open Generation

namespace Answers
variable {env : Env} {now : Time} {c : Call} {input : Input} {pc pc' : Pc} {db : Db} {t t' : Tables}

/-- The receipt that a process holds. -/
def Pc.receipt : Pc → Option Uuid
  | .embed _ _ _ receipt | .embedding _ _ _ receipt | .finishEmbedding _ _ _ receipt _ | .generate _ _ _ receipt
  | .generating _ _ receipt _ | .finishGeneration _ _ receipt _ | .recordUsage receipt _ _ _ => receipt
  | _ => none

/-- The writes of an answer: a receipt, its usage, or a preview. -/
inductive Writes (env : Env) (now : Time) (c : Call) (input : Input) (pc : Pc) (t : Tables) : Tables → Prop
  | none : Writes env now c input pc t t
  | began {runId token receiptId : Uuid} {kind : ReceiptKind} {model : Text} {inputRate outputRate : ℚ} {t' : Tables}
    (hrun : c.run = some (runId, token)) (hin : input = .receipt receiptId)
    (h : t.begin now runId token receiptId kind model inputRate outputRate = .ok t') : Writes env now c input pc t t'
  | finished {receiptId : Uuid} {i o : Int} {t' : Tables} (hr : pc.receipt = some receiptId)
    (h : t.finish now receiptId i o = .ok t') : Writes env now c input pc t t'
  | previewed {runId token : Uuid} {raw : Text} (hrun : c.run = some (runId, token)) :
    Writes env now c input pc t
      { t with runs := Table.update (AcceptsPreview now runId token) (previewed (previewText env raw)) t.runs }

/-- A receipt is begun for a run, or there is no run and nothing is written. -/
theorem beginReceipt_eq {kind : ReceiptKind} {model : Text} {inputRate outputRate : ℚ} {receipt : Option Uuid}
    (h : beginReceipt now c input kind model inputRate outputRate t = some (.ok (receipt, t'))) :
    (c.run = none ∧ receipt = none ∧ t' = t) ∨
      ∃ runId token id, c.run = some (runId, token) ∧ input = .receipt id ∧ receipt = some id ∧
        t.begin now runId token id kind model inputRate outputRate = .ok t' := by
  unfold beginReceipt at h
  split at h
  · rename_i hrun
    cases h
    exact .inl ⟨hrun, rfl, rfl⟩
  · rename_i runId token id hrun
    cases hb : t.begin now runId token id kind model inputRate outputRate with
    | error e => rw [hb] at h; cases h
    | ok t₁ =>
      rw [hb] at h
      cases h
      exact .inr ⟨runId, token, id, hrun, rfl, rfl, hb⟩
  · cases h

theorem writes_of_beginReceipt {kind : ReceiptKind} {model : Text} {inputRate outputRate : ℚ} {receipt : Option Uuid}
    (h : beginReceipt now c input kind model inputRate outputRate t = some (.ok (receipt, t'))) :
    Writes env now c input pc t t' := by
  rcases beginReceipt_eq h with ⟨-, -, rfl⟩ | ⟨runId, token, id, hrun, hin, -, hb⟩
  · exact .none
  · exact .began hrun hin hb

theorem writes_of_finishReceipt {i o : Int} (h : finishReceipt now pc.receipt i o t = .ok t') :
    Writes env now c input pc t t' := by
  unfold finishReceipt at h
  split at h
  · cases h
    exact .none
  · exact .finished ‹_› h

theorem Effect.writes (h : Effect env now c input pc db t pc' t') : Writes env now c input pc t t' := by
  cases h with
  | beganEmbedding hpc h => exact writes_of_beginReceipt h
  | finishedEmbedding hpc hf h =>
    subst hpc
    exact writes_of_finishReceipt hf
  | beganGeneration hpc h => exact writes_of_beginReceipt h
  | previewed hpc hrun => exact .previewed hrun
  | finishedGeneration hpc hf h =>
    subst hpc
    exact writes_of_finishReceipt hf
  | recorded hpc hf =>
    subst hpc
    exact writes_of_finishReceipt hf
  | _ => exact .none

end Answers

namespace Runs

/-- The columns no transaction rewrites. -/
structure Same (r r' : AnswerRun) : Prop where
  id : r'.id = r.id
  conversationId : r'.conversationId = r.conversationId
  requestKey : r'.requestKey = r.requestKey
  requestHash : r'.requestHash = r.requestHash
  question : r'.question = r.question
  mode : r'.mode = r.mode
  sourceIndexId : r'.sourceIndexId = r.sourceIndexId

/-- A run is stopped without an answer: failed, expired or cancelled. -/
structure Stops (r r' : AnswerRun) : Prop where
  same : Same r r'
  active : r.status.Active
  status : r'.status = .failed ∨ r'.status = .cancelled
  usage : r'.usageState = r.usageState
  lease : r'.leaseToken = none ∨ r.status = .queued ∧ r'.leaseToken = r.leaseToken

theorem stops_failed {now : Time} {code message : String} {r : AnswerRun} (h : r.status.Active) :
    Stops r (failed now code message r) := ⟨⟨rfl, rfl, rfl, rfl, rfl, rfl, rfl⟩, h, .inl rfl, rfl, .inl rfl⟩

theorem stops_cancelled {now : Time} {r : AnswerRun} (h : r.status.Active) : Stops r (cancelled now r) :=
  ⟨⟨rfl, rfl, rfl, rfl, rfl, rfl, rfl⟩, h, .inr rfl, rfl, .inl rfl⟩

theorem stops_queueExpired {start : Time} {r : AnswerRun} (h : r.status = .queued) : Stops r (queueExpired start r) :=
  ⟨⟨rfl, rfl, rfl, rfl, rfl, rfl, rfl⟩, .inl h, .inl rfl, rfl, .inr ⟨h, rfl⟩⟩

/-! ### Submissions -/

/-- The submission found no run under its key, and holds on to the conversation. -/
def SubmitPc.Inner : SubmitPc → Prop
  | .count _ | .active _ | .total _ | .source _ | .state _ _ | .limit _ | .history _ | .insert _ _ => True
  | _ => False

/-- The number of runs was checked. -/
def SubmitPc.Counted : SubmitPc → Prop
  | .source _ | .state _ _ | .limit _ | .history _ | .insert _ _ => True
  | _ => False

/-- What a step of a submission does. -/
inductive Submit.Effect (env : Env) (now : Time) (p : Submit) (input : SubmitInput) (db : Db) (t : Tables) :
    SubmitPc → Tables → Prop
  | idle : Submit.Effect env now p input db t p.pc t
  | aborted (hpc : ∀ result, p.pc ≠ .done result) : Submit.Effect env now p input db t .aborted t
  | refused {e : Raised} (hpc : p.pc.Inner ∨ p.pc = .replay) : Submit.Effect env now p input db t (.done (.error e)) t
  | notOwned {e : AppError} (hpc : p.pc = .owned) (h : t.owned db p.userId p.conversationId = .error e) :
    Submit.Effect env now p input db t (.done (.error (.app e))) t
  | owned {c : Conversation} (hpc : p.pc = .owned) (h : t.owned db p.userId p.conversationId = .ok c) :
    Submit.Effect env now p input db t (.lock c.repositoryId) t
  | locked {repositoryId : Uuid} (hpc : p.pc = .lock repositoryId) (hin : input = .go) :
    Submit.Effect env now p input db t (.byKey repositoryId) t
  | missed {repositoryId : Uuid} {pc' : SubmitPc} (hpc : p.pc = .byKey repositoryId)
    (h : byKey t p.conversationId p.request.requestKey = none)
    (hpc' : pc' = .count repositoryId ∨ ∃ e, pc' = .done (.error e)) : Submit.Effect env now p input db t pc' t
  | advanced {pc' : SubmitPc} (hpc : p.pc.Inner) (hpc' : pc'.Inner)
    (hc : pc'.Counted → p.pc.Counted ∨ (t.runs.filter (·.conversationId = p.conversationId)).length < 1000) :
    Submit.Effect env now p input db t pc' t
  | replayed {run : AnswerRun} (hpc : (∃ repositoryId, p.pc = .byKey repositoryId) ∨ p.pc = .replay)
    (h : byKey t p.conversationId p.request.requestKey = some run) :
    Submit.Effect env now p input db t (.done (replay run (fingerprint env p.request))) t
  | inserted {source : RepositoryIndex} {history : List HistoryTurn} {runId : Uuid} {t' : Tables}
    (hpc : p.pc = .insert source history) (hin : input = .insert runId)
    (h : insertRun now (newRun env now p runId source history) t = some t') :
    Submit.Effect env now p input db t (.done (.ok (newRun env now p runId source history, true))) t'
  | lost {source : RepositoryIndex} {history : List HistoryTurn} (hpc : p.pc = .insert source history) :
    Submit.Effect env now p input db t .replay t

theorem Submit.step_effect (env : Env) (now : Time) (p : Submit) (input : SubmitInput) (db : Db) (t : Tables) :
    Submit.Effect env now p input db t (p.step env now input db t).1 (p.step env now input db t).2 := by
  unfold Submit.step
  split
  · exact .idle
  · exact .idle
  · exact .aborted ‹_›
  · rename_i hpc
    split
    · exact .notOwned hpc ‹_›
    · exact .owned hpc ‹_›
  · rename_i hpc
    exact .locked hpc rfl
  · rename_i hpc
    split
    · exact .replayed (.inl ⟨_, hpc⟩) ‹_›
    · rename_i hn
      split
      · exact .missed hpc hn (.inr ⟨_, rfl⟩)
      · exact .missed hpc hn (.inl rfl)
  · rename_i hpc
    have hin : p.pc.Inner := by rw [hpc]; exact trivial
    split
    · exact .refused (.inl hin)
    · split
      · exact .refused (.inl hin)
      · exact .advanced hin trivial fun h => absurd h id
  · rename_i hpc
    have hin : p.pc.Inner := by rw [hpc]; exact trivial
    split
    · exact .refused (.inl hin)
    · exact .advanced hin trivial fun h => absurd h id
  · rename_i hpc
    have hin : p.pc.Inner := by rw [hpc]; exact trivial
    split
    · exact .refused (.inl hin)
    · rename_i hlt
      exact .advanced hin trivial fun _ => .inr (Nat.lt_of_not_le hlt)
  · rename_i hpc
    have hin : p.pc.Inner := by rw [hpc]; exact trivial
    split
    · exact .refused (.inl hin)
    · exact .advanced hin trivial fun _ => .inl (by rw [hpc]; exact trivial)
  · rename_i hpc
    have hin : p.pc.Inner := by rw [hpc]; exact trivial
    split
    · exact .refused (.inl hin)
    · split
      · exact .advanced hin trivial fun _ => .inl (by rw [hpc]; exact trivial)
      · exact .refused (.inl hin)
  · rename_i hpc
    have hin : p.pc.Inner := by rw [hpc]; exact trivial
    split
    · exact .refused (.inl hin)
    · exact .advanced hin trivial fun _ => .inl (by rw [hpc]; exact trivial)
  · rename_i hpc
    have hin : p.pc.Inner := by rw [hpc]; exact trivial
    split
    · exact .refused (.inl hin)
    · exact .advanced hin trivial fun _ => .inl (by rw [hpc]; exact trivial)
  · rename_i hpc
    dsimp only
    split
    · exact .inserted hpc rfl ‹_›
    · exact .lost hpc
  · rename_i hpc
    split
    · exact .replayed (.inr hpc) ‹_›
    · exact .refused (.inr hpc)
  · exact .idle

/-! ### Workers -/

/-- The worker is about to record a failure, or done. -/
def Pc.Ending : Pc → Prop
  | .failing _ _ | .done => True
  | _ => False

theorem handler_ending (e : Raised) : (handler e).Ending := by
  cases e <;> exact trivial

/-- What a step of a worker does to the worker and to the tables. -/
inductive Worker.Effect (env : Env) (now : Time) (k : Worker) (input : Answers.Input) (db : Db) (t : Tables) :
    Pc → Tables → Prop
  | idle (hc : k.providerCall input = none) : Worker.Effect env now k input db t k.pc t
  | ending {pc' : Pc} (h : pc'.Ending) (hpc : ∀ call answer, k.pc ≠ .published call answer)
    (hc : k.providerCall input = none) : Worker.Effect env now k input db t pc' t
  | loaded {run : AnswerRun} {conversation : Conversation} {request : AnswerRequest} (hpc : k.pc = .load)
    (hr : run ∈ t.runs) (hid : run.id = k.runId) (hs : run.status = .running) (hc : conversation ∈ t.conversations)
    (hcid : conversation.id = run.conversationId) (hm : request.mode = run.mode) :
    Worker.Effect env now k input db t
      (.answering conversation.id run.question (callOf env k run conversation request) .authorize) t
  | answering {conversationId : Uuid} {question : Text} {call : Call} {pc pc' : Answers.Pc} {t' : Tables}
    (hpc : k.pc = .answering conversationId question call pc) (h : Answers.Effect env now call input pc db t pc' t') :
    Worker.Effect env now k input db t (Pc.resume conversationId question call pc') t'
  | published {conversationId : Uuid} {question : Text} {call : Call} {answer : AnswerResponse} {t' : Tables}
    (hpc : k.pc = .publish conversationId question call answer)
    (h : publish now k.runId k.token call.userId conversationId question answer db t = some (.ok t')) :
    Worker.Effect env now k input db t (.published call answer) t'
  | failed {code message : String} (hpc : k.pc = .failing code message)
    (hr : ∃ r ∈ t.runs, FailWhere k.runId k.token r) :
    Worker.Effect env now k input db t .done
      (t.transition now (FailWhere k.runId k.token) (Runs.failed now code message))

theorem load_effect {env : Env} {now : Time} {k : Worker} {input : Answers.Input} {db : Db} {t : Tables}
    (hpc : k.pc = .load) : Worker.Effect env now k input db t (load env k t) t := by
  have hc : k.providerCall input = none := by unfold Worker.providerCall; rw [hpc]
  have hne : ∀ call answer, k.pc ≠ .published call answer := fun _ _ h => by rw [hpc] at h; cases h
  unfold load
  split
  · exact .ending trivial hne hc
  · rename_i run hf
    split
    · exact .ending trivial hne hc
    · rename_i hs
      rw [not_or, not_not] at hs
      split
      · exact .ending trivial hne hc
      · rename_i conversation hcf
        split
        · exact .ending (handler_ending _) hne hc
        · rename_i hv
          split
          · exact .ending (handler_ending _) hne hc
          · have hid : run.id = k.runId := by simpa using List.find?_some hf
            have hcid : conversation.id = run.conversationId := by simpa using List.find?_some hcf
            exact .loaded hpc (List.mem_of_find?_eq_some hf) hid hs.1 (List.mem_of_find?_eq_some hcf) hcid
              (AnswerRequest.validate_mode hv)

theorem Worker.step_effect (env : Env) (now : Time) (k : Worker) (input : Answers.Input) (db : Db) (t : Tables) :
    Worker.Effect env now k input db t (k.step env now input db t).1 (k.step env now input db t).2 := by
  have hc : (∀ conversationId question call pc, k.pc ≠ .answering conversationId question call pc) →
      k.providerCall input = none := by
    intro h
    unfold Worker.providerCall
    split
    · exact absurd ‹_› (h _ _ _ _)
    · rfl
  unfold Worker.step
  split
  · exact load_effect ‹_›
  · rename_i hpc
    exact .answering hpc (Answers.step_effect env now _ _ _ db t)
  · rename_i hpc
    have hn : k.providerCall .go = none := by unfold Worker.providerCall; rw [hpc]
    have hne : ∀ call answer, k.pc ≠ .published call answer := fun _ _ h => by rw [hpc] at h; cases h
    split
    · exact .ending trivial hne hn
    · rename_i e _
      exact .ending (handler_ending (.app e)) hne hn
    · exact .published hpc ‹_›
  · rename_i code message hpc
    have hn : k.providerCall .go = none := by unfold Worker.providerCall; rw [hpc]
    have hne : ∀ call answer, k.pc ≠ .published call answer := fun _ _ h => by rw [hpc] at h; cases h
    unfold failRun
    cases ht : t.transitionOne now (FailWhere k.runId k.token) (Runs.failed now code message) with
    | none => exact .ending trivial hne hn
    | some t' =>
      obtain ⟨hr, rfl⟩ := Tables.transitionOne_eq ht
      exact .failed hpc hr
  · rename_i hpc
    exact .idle (hc fun _ _ _ _ h => by rw [hpc] at h; cases h)
  · rename_i hpc
    exact .idle (hc fun _ _ _ _ h => by rw [hpc] at h; cases h)
  · rename_i hpc _
    exact .idle (hc fun _ _ _ _ h => by rw [hpc] at h; cases h)
  · rename_i hno _ hne _
    exact .ending (handler_ending _) hne (hc hno)
  · rename_i hno _ _ _ _ _ _
    exact .idle (hc hno)

end Runs

namespace Ask

/-- What a step of a question does. -/
inductive Effect (env : Env) (now : Time) (p : Ask) (input : Answers.Input) (db : Db) (t : Tables) :
    AskPc → Tables → Prop
  | idle : Effect env now p input db t p.pc t
  | ended (result : Except Raised AnswerResponse) : Effect env now p input db t (.done result) t
  | began {c : Conversation} (hpc : p.pc = .owned) (h : t.owned db p.userId p.conversationId = .ok c) :
    Effect env now p input db t (.answering c.repositoryId .authorize) t
  | answering {repositoryId : Uuid} {pc pc' : Answers.Pc} {t' : Tables} (hpc : p.pc = .answering repositoryId pc)
    (h : Answers.Effect env now (p.callOf repositoryId) input pc db t pc' t') :
    Effect env now p input db t (resume repositoryId pc') t'
  | appended {answer : AnswerResponse} {t' : Tables} (hpc : p.pc = .append answer)
    (h : t.appendPair now db p.userId p.conversationId p.request.question answer = .ok t') :
    Effect env now p input db t (.done (.ok answer)) t'

theorem step_effect (env : Env) (now : Time) (p : Ask) (input : Answers.Input) (db : Db) (t : Tables) :
    Effect env now p input db t (p.step env now input db t).1 (p.step env now input db t).2 := by
  unfold step
  split
  · rename_i hpc
    split
    · exact .ended _
    · rename_i c hc
      split
      · exact .ended _
      · exact .began hpc hc
  · rename_i hpc
    exact .answering hpc (Answers.step_effect env now _ _ _ db t)
  · rename_i hpc
    split
    · exact .ended _
    · exact .appended hpc ‹_›
  · exact .idle
  · exact .ended _
  · exact .idle

end Ask

/-- The user owns the repository. -/
def Db.Owns (db : Db) (userId repositoryId : Uuid) : Prop :=
  ∃ r ∈ db.repositories, r.id = repositoryId ∧ r.userId = userId

namespace Chat

/-- What an action does to the tables, the questions, the submissions, the workers and the log. -/
inductive Effect (env : Env) (now : Time) (ids : List Uuid) (db : Db) (s : Chat) :
    Tables → List Ask → List Runs.Submit → List Runs.Worker → List Entry → Prop
  | same : Effect env now ids db s s.tables s.asks s.submits s.workers s.log
  | claimed {k : Runs.Worker} (hid : k.token ∈ ids) (hpc : k.pc = .load)
    (hr : ∃ r ∈ s.tables.runs, Runs.ClaimWhere now k.runId r) :
    Effect env now ids db s (s.tables.transition now (Runs.ClaimWhere now k.runId) (Runs.claimed now k.token))
      s.asks s.submits (s.workers ++ [k]) s.log
  | worked {i : Nat} {k : Runs.Worker} {input : Answers.Input} {pc' : Runs.Pc} {t' : Tables}
    (hk : s.workers[i]? = some k) (hids : ∀ id, input = .receipt id → id ∈ ids)
    (h : Runs.Worker.Effect env now k input db s.tables pc' t') :
    Effect env now ids db s t' s.asks s.submits (s.workers.set i { k with pc := pc' })
      (s.log ++ (t'.receipts.drop s.tables.receipts.length).map .committed ++
        ((k.providerCall input).map (.called k.runId ·)).toList)
  | stopped {p : AnswerRun → Prop} [DecidablePred p] {f : AnswerRun → AnswerRun}
    (hm : ∀ r ∈ s.tables.runs, p r → Runs.Stops r (f r)) :
    Effect env now ids db s (s.tables.transition now p f) s.asks s.submits s.workers s.log
  | stamped {runId : Uuid} {start : Time} :
    Effect env now ids db s
      { s.tables with runs := Table.update (Runs.StampWhere runId) (Runs.stamped start) s.tables.runs }
      s.asks s.submits s.workers s.log
  | created {c : Conversation} (hid : c.id ∈ ids) (hcount : c.messageCount = 0)
    (owns : db.Owns c.userId c.repositoryId) :
    Effect env now ids db s { s.tables with conversations := s.tables.conversations ++ [c] } s.asks s.submits s.workers
      s.log
  | removed (p : Conversation → Bool) : Effect env now ids db s
    (s.tables.deleteConversations p) s.asks s.submits s.workers s.log
  | submitting {p : Runs.Submit} (hpc : p.pc = .owned) :
    Effect env now ids db s s.tables s.asks (s.submits ++ [p]) s.workers s.log
  | submitted {i : Nat} {p : Runs.Submit} {input : Runs.SubmitInput} {pc' : Runs.SubmitPc} {t' : Tables}
    (hp : s.submits[i]? = some p) (hids : ∀ id, input = .insert id → id ∈ ids)
    (hfree : ¬ (p.pc.Waits input ∧ Locked env s p.conversationId))
    (h : Runs.Submit.Effect env now p input db s.tables pc' t') :
    Effect env now ids db s t' s.asks (s.submits.set i { p with pc := pc' }) s.workers s.log
  | asking {p : Ask} (hid : p.answerId ∈ ids) (hpc : p.pc = .owned) :
    Effect env now ids db s s.tables (s.asks ++ [p]) s.submits s.workers s.log
  | asked {i : Nat} {p : Ask} {input : Answers.Input} {pc' : AskPc} {t' : Tables} (hp : s.asks[i]? = some p)
    (h : Ask.Effect env now p input db s.tables pc' t') :
    Effect env now ids db s t' (s.asks.set i { p with pc := pc' }) s.submits s.workers s.log

section Steps
variable {env : Env} {now : Time} {db : Db} {s : Chat} {ids : List Uuid}

theorem create_effect {userId repositoryId conversationId : Uuid} {title : Text} {limit : Option AppError} {t' : Tables}
    (hid : conversationId ∈ ids)
    (h : create now userId repositoryId conversationId title limit db s.tables = .ok t') :
    Effect env now ids db s t' s.asks s.submits s.workers s.log := by
  unfold create at h
  simp only [bind_ok, lift_ok, refuse_ok] at h
  obtain ⟨q, ho, -, -, -, -, h⟩ := h
  cases h
  obtain ⟨hm, hrid, hru, -⟩ := Db.owned_eq ho
  exact .created hid rfl ⟨_, hm, hrid, hru⟩

theorem cycleStep_effect {c : Runs.Cycle} {succeeded : Bool} :
    Effect env now ids db s (c.step now succeeded s.tables).2 s.asks s.submits s.workers s.log := by
  unfold Runs.Cycle.step
  split
  · exact .stopped fun r _ hr => Runs.stops_failed (.inr hr.1)
  · exact .stopped fun r _ hr => Runs.stops_queueExpired hr.1
  · exact .same
  · split
    · exact .stamped
    · exact .same
  · exact .same

theorem cancel_effect {userId runId : Uuid} {t' : Tables} (h : Runs.cancel now userId runId db s.tables = .ok t') :
    Effect env now ids db s t' s.asks s.submits s.workers s.log := by
  unfold Runs.cancel at h
  cases ho : s.tables.ownedRun db userId runId with
  | error e => rw [ho] at h; cases h
  | ok run =>
    cases ht : s.tables.transitionOne now (Runs.CancelWhere runId) (Runs.cancelled now) with
    | none =>
      simp only [ho, ht] at h
      cases h
    | some t₁ =>
      simp only [ho, ht] at h
      cases h
      obtain ⟨-, rfl⟩ := Tables.transitionOne_eq ht
      exact .stopped fun r _ hr => Runs.stops_cancelled hr.2

/-- Every action has one of the effects. -/
theorem step_effect (env : Env) (now : Time) (a : Action) (db : Db) (s : Chat) :
    Effect env now a.ids db s (step env now a db s).tables (step env now a db s).asks (step env now a db s).submits
      (step env now a db s).workers (step env now a db s).log := by
  cases a with
  | create userId repositoryId conversationId title limit =>
    simp only [step]
    split
    · exact .same
    · split
      · exact .same
      · exact create_effect (List.mem_singleton_self _) ‹_›
  | remove userId conversationId =>
    simp only [step]
    split
    · exact .same
    · unfold remove
      split
      · exact .same
      · exact .removed _
  | ask settings embedder model userId conversationId question mode answerId =>
    simp only [step]
    split
    · exact .same
    · exact .asking (List.mem_singleton_self _) rfl
  | askStep i input =>
    simp only [step, askStep]
    split
    · exact .same
    · split
      · exact .same
      · rename_i p hp _
        exact .asked hp (p.step_effect env now input db s.tables)
  | submit settings userId conversationId requestKey question mode =>
    simp only [step]
    split
    · exact .same
    · exact .submitting rfl
  | submitStep i input =>
    simp only [step, submitStep]
    split
    · exact .same
    · split
      · exact .same
      · rename_i p hp hfree
        refine .submitted hp (fun id hin => ?_) hfree (p.step_effect env now input db s.tables)
        subst hin
        exact List.mem_singleton_self _
  | cancel userId runId =>
    simp only [step]
    split
    · exact .same
    · exact cancel_effect ‹_›
  | deliver settings embedder model streaming runId token =>
    simp only [step, deliver]
    split
    · exact .same
    · rename_i t' h
      obtain ⟨hr, rfl⟩ := Tables.transitionOne_eq h
      exact .claimed (k := ⟨runId, token, settings, embedder, model, streaming, .load⟩) (List.mem_singleton_self _)
        rfl hr
  | workerStep i input =>
    simp only [step, workerStep]
    split
    · exact .same
    · split
      · exact .same
      · rename_i k hk _
        refine .worked hk (fun id hin => ?_) (k.step_effect env now input db s.tables)
        subst hin
        exact List.mem_singleton_self _
  | dispatch => exact .same
  | cycleStep i succeeded =>
    simp only [step]
    split
    · exact .same
    · exact cycleStep_effect

/-- A question is old, new, or has taken a step. -/
theorem asks_effect {t' : Tables} {as' : List Ask} {sb' : List Runs.Submit} {ws' : List Runs.Worker}
    {log' : List Entry}
    (h : Effect env now ids db s t' as' sb' ws' log') {p : Ask} (hp : p ∈ as') :
    p ∈ s.asks ∨ (p.pc = .owned ∧ p.answerId ∈ ids ∧ t' = s.tables) ∨
      ∃ q ∈ s.asks, ∃ input pc', p = { q with pc := pc' } ∧ Ask.Effect env now q input db s.tables pc' t' := by
  cases h with
  | asking hid hpc =>
    rcases List.mem_append.1 hp with hp | hp
    · exact .inl hp
    · rw [List.mem_singleton] at hp
      subst hp
      exact .inr (.inl ⟨hpc, hid, rfl⟩)
  | asked hq h =>
    rcases Table.mem_set_cases hp with rfl | ⟨j, -, hj⟩
    · exact .inr (.inr ⟨_, Table.mem_of_getElem? hq, _, _, rfl, h⟩)
    · exact .inl (Table.mem_of_getElem? hj)
  | _ => exact .inl hp

end Steps
end Chat
end RepoPilot
