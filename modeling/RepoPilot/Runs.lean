import RepoPilot.Answers

/-! # Answer runs

Submission, cancellation, the worker (`run_answer`) and the dispatcher (`dispatch_answers`). A worker is
one delivery whose claim succeeded; a delivery whose claim returns no row ends at once. A worker or a
submission that crashes takes no further step. -/

namespace RepoPilot
open Generation

namespace Runs
variable (env : Env)

/-! ### Transitions -/

def ClaimWhere (now : Time) (runId : Uuid) (run : AnswerRun) : Prop :=
  run.id = runId ∧ run.status = .queued ∧ now - hours 1 < run.createdAt

instance (now : Time) (runId : Uuid) : DecidablePred (ClaimWhere now runId) := fun run =>
  inferInstanceAs (Decidable (run.id = runId ∧ run.status = .queued ∧ now - hours 1 < run.createdAt))

def claimed (now : Time) (token : Uuid) (run : AnswerRun) : AnswerRun :=
  { run with
    status := .running
    usageState := .unknown
    startedAt := some now
    leaseToken := some token
    leaseExpiresAt := some (now + seconds 180) }

def claim (now : Time) (runId token : Uuid) (t : Tables) : Option Tables :=
  t.transitionOne now (ClaimWhere now runId) (claimed now token)

def FailWhere (runId token : Uuid) (run : AnswerRun) : Prop :=
  run.id = runId ∧ run.status = .running ∧ run.leaseToken = some token

instance (runId token : Uuid) : DecidablePred (FailWhere runId token) := fun run =>
  inferInstanceAs (Decidable (run.id = runId ∧ run.status = .running ∧ run.leaseToken = some token))

def failed (now : Time) (code message : String) (run : AnswerRun) : AnswerRun :=
  { run with
    status := .failed
    finishedAt := some now
    leaseToken := none
    leaseExpiresAt := none
    errorCode := some code
    errorMessage := some message }

/-- `fail_run`. -/
def failRun (now : Time) (runId token : Uuid) (code message : String) (t : Tables) : Tables :=
  (t.transitionOne now (FailWhere runId token) (failed now code message)).getD t

def completed (now : Time) (answer : AnswerResponse) (run : AnswerRun) : AnswerRun :=
  { run with
    status := .completed
    usageState := .recorded
    inputTokens := some answer.inputTokens
    outputTokens := some answer.outputTokens
    estimatedCostUsd := some (answer.estimatedGenerationCostUsd + answer.estimatedRetrievalCostUsd)
    finishedAt := some now
    leaseToken := none
    leaseExpiresAt := none }

/-- The publishing transaction; `none` when cancellation, expiry or deletion fences the late result. -/
def publish (now : Time) (runId token userId conversationId : Uuid) (question : Text) (answer : AnswerResponse)
    (db : Db) (t : Tables) : Option (Except AppError Tables) :=
  if ∃ run ∈ t.runs, Tables.Held now runId token run then
    some (({ t with runs := Table.update (Tables.Held now runId token) (completed now answer) t.runs }.appendPair
      now db userId conversationId question answer).map (Tables.appendState now · runId))
  else none

/-- The status is queued or running, under the id `runId`. -/
def CancelWhere (runId : Uuid) (run : AnswerRun) : Prop := run.id = runId ∧ run.status.Active

instance (runId : Uuid) : DecidablePred (CancelWhere runId) := fun run =>
  inferInstanceAs (Decidable (run.id = runId ∧ run.status.Active))

def cancelled (now : Time) (run : AnswerRun) : AnswerRun :=
  { run with
    status := .cancelled
    finishedAt := some now
    leaseToken := none
    leaseExpiresAt := none }

/-- `RunService.cancel`. -/
def cancel (now : Time) (userId runId : Uuid) (db : Db) (t : Tables) : Except AppError Tables := do
  let _ ← t.ownedRun db userId runId
  match t.transitionOne now (CancelWhere runId) (cancelled now) with
  | none => .error ⟨"answer_terminal", "This run has already finished. Refresh its status.", 409⟩
  | some t' => .ok t'

/-! ### The dispatcher -/

/-- A cycle of `dispatch_answers` that started at `start`. -/
inductive Cycle
  | expireRunning (start : Time)
  | expireQueued (start : Time)
  | select (start : Time)
  | publishing (start : Time) (ids : List Uuid)
  deriving DecidableEq

def LostWhere (start : Time) (run : AnswerRun) : Prop := run.status = .running ∧ Past run.leaseExpiresAt start

instance (start : Time) : DecidablePred (LostWhere start) := fun run =>
  inferInstanceAs (Decidable (run.status = .running ∧ Past run.leaseExpiresAt start))

def ExpiredWhere (start : Time) (run : AnswerRun) : Prop :=
  run.status = .queued ∧ run.createdAt ≤ start - hours 1

instance (start : Time) : DecidablePred (ExpiredWhere start) := fun run =>
  inferInstanceAs (Decidable (run.status = .queued ∧ run.createdAt ≤ start - hours 1))

def lost (start : Time) (run : AnswerRun) : AnswerRun :=
  failed start "answer_worker_lost" "Worker stopped; usage is unknown. No automatic retry was made." run

def queueExpired (start : Time) (run : AnswerRun) : AnswerRun :=
  { run with
    status := .failed
    finishedAt := some start
    errorCode := some "answer_queue_expired"
    errorMessage := some "Run waited over an hour. Check worker availability." }

def DispatchWhere (start : Time) (run : AnswerRun) : Prop :=
  run.status = .queued ∧ (run.lastDispatchedAt = none ∨ Past run.lastDispatchedAt (start - seconds 30))

instance (start : Time) : DecidablePred (DispatchWhere start) := fun run =>
  inferInstanceAs (Decidable (run.status = .queued ∧
    (run.lastDispatchedAt = none ∨ Past run.lastDispatchedAt (start - seconds 30))))

def dispatchSelect (start : Time) (t : Tables) : List Uuid :=
  (((t.runs.filter (DispatchWhere start ·)).insertionSort fun a b => a.createdAt ≤ b.createdAt).take 50).map (·.id)

def StampWhere (runId : Uuid) (run : AnswerRun) : Prop := run.id = runId ∧ run.status = .queued

instance (runId : Uuid) : DecidablePred (StampWhere runId) := fun run =>
  inferInstanceAs (Decidable (run.id = runId ∧ run.status = .queued))

def stamped (start : Time) (run : AnswerRun) : AnswerRun := { run with lastDispatchedAt := some start }

/-- One statement of a cycle, or one publication; `succeeded` says whether the broker took the message. -/
def Cycle.step (now : Time) (succeeded : Bool) (cycle : Cycle) (t : Tables) : Cycle × Tables :=
  match cycle with
  | .expireRunning start => (.expireQueued start, t.transition now (LostWhere start) (lost start))
  | .expireQueued start => (.select start, t.transition now (ExpiredWhere start) (queueExpired start))
  | .select start => (.publishing start (dispatchSelect start t), t)
  | .publishing start (id :: ids) =>
    (.publishing start ids,
      if succeeded then { t with runs := Table.update (StampWhere id) (stamped start) t.runs } else t)
  | .publishing start [] => (.publishing start [], t)

/-! ### Submission -/

/-- `RunRequest`, validated. -/
structure Request where
  requestKey : Uuid
  question : Text
  mode : Mode
  deriving DecidableEq

def modeText : Mode → Text
  | .keyword => "keyword".toList
  | .hybrid => "hybrid".toList

/-- What is hashed: `json.dumps({"question": …, "mode": …}, sort_keys=True)`. -/
def fingerprintPayload (question : Text) (mode : Mode) : Text :=
  Json.dumps .python (.obj [("mode".toList, .str (modeText mode)), ("question".toList, .str question)])

def fingerprint (r : Request) : Text := env.sha256 (fingerprintPayload r.question r.mode)

/-- Where a submission is: after `lock` it holds the row lock of its conversation, until it is done. -/
inductive SubmitPc
  | owned
  | lock (repositoryId : Uuid)
  | byKey (repositoryId : Uuid)
  | count (repositoryId : Uuid)
  | active (repositoryId : Uuid)
  | total (repositoryId : Uuid)
  | source (repositoryId : Uuid)
  | state (repositoryId : Uuid) (source : RepositoryIndex)
  | limit (source : RepositoryIndex)
  | history (source : RepositoryIndex)
  | insert (source : RepositoryIndex) (history : List HistoryTurn)
  | replay
  | done (result : Except Raised (AnswerRun × Bool))
  | aborted

structure Submit where
  settings : Settings
  userId : Uuid
  conversationId : Uuid
  request : Request
  pc : SubmitPc

/-- The submission holds the lock of its conversation. -/
def SubmitPc.Locks : SubmitPc → Prop
  | .owned | .lock _ | .replay | .done _ | .aborted => False
  | _ => True

instance (pc : SubmitPc) : Decidable pc.Locks := by
  cases pc <;> first | exact .isTrue trivial | exact .isFalse id

inductive SubmitInput
  | go
  | limited (limit : Option AppError)
  | insert (runId : Uuid)
  | abort

/-- The step takes the lock. -/
def SubmitPc.Waits : SubmitPc → SubmitInput → Prop
  | .lock _, .go => True
  | _, _ => False

instance (pc : SubmitPc) (input : SubmitInput) : Decidable (pc.Waits input) := by
  cases pc <;> cases input <;> first | exact .isTrue trivial | exact .isFalse id

/-- `RunStore.by_key`. -/
def byKey (t : Tables) (conversationId requestKey : Uuid) : Option AnswerRun :=
  t.runs.find? fun run => run.conversationId = conversationId ∧ run.requestKey = requestKey

def idempotencyConflict : AppError :=
  ⟨"idempotency_conflict", "This request key was already used for another question or mode.", 409⟩

/-- `replay`, for an existing run. -/
def replay (run : AnswerRun) (fingerprint : Text) : Except Raised (AnswerRun × Bool) :=
  if run.requestHash ≠ fingerprint then .error (.app idempotencyConflict) else .ok (run, false)

/-- The row a submission inserts. -/
def newRun (now : Time) (p : Submit) (runId : Uuid) (source : RepositoryIndex) (history : List HistoryTurn) :
    AnswerRun where
  id := runId
  conversationId := p.conversationId
  requestKey := p.request.requestKey
  requestHash := fingerprint env p.request
  question := p.request.question
  previewText := []
  previewRevision := 0
  history := history
  mode := p.request.mode
  sourceIndexId := source.id
  configHash := configHash env p.settings
  model := p.settings.answerModel
  status := .queued
  receiptVersion := 1
  usageState := .notStarted
  inputTokens := none
  outputTokens := none
  estimatedCostUsd := none
  errorCode := none
  errorMessage := none
  leaseToken := none
  leaseExpiresAt := none
  lastDispatchedAt := none
  startedAt := none
  finishedAt := none
  createdAt := now

/-- The constraints of the table reject the row: no such conversation, the key is taken, or the
conversation has an active run. -/
def Rejects (t : Tables) (run : AnswerRun) : Prop :=
  (¬ ∃ c ∈ t.conversations, c.id = run.conversationId) ∨
    (∃ r ∈ t.runs, r.conversationId = run.conversationId ∧ r.requestKey = run.requestKey) ∨
    ∃ r ∈ t.runs, r.conversationId = run.conversationId ∧ r.status.Active

instance (t : Tables) (run : AnswerRun) : Decidable (Rejects t run) :=
  inferInstanceAs (Decidable ((¬ ∃ c ∈ t.conversations, c.id = run.conversationId) ∨
    (∃ r ∈ t.runs, r.conversationId = run.conversationId ∧ r.requestKey = run.requestKey) ∨
    ∃ r ∈ t.runs, r.conversationId = run.conversationId ∧ r.status.Active))

/-- The mode that was asked for is prepared. -/
def Ready (settings : Settings) (mode : Mode) (state : Searches.State) : Prop :=
  match mode with
  | .keyword => state.keyword.isSome
  | .hybrid => state.hybrid.isSome ∧ settings.embeddingsEnabled = true

instance (settings : Settings) (mode : Mode) (state : Searches.State) : Decidable (Ready settings mode state) := by
  unfold Ready
  cases mode <;> infer_instance

def refused (e : AppError) : SubmitPc := .done (.error (.app e))

/-- Insert the run with its first event; `none` is an `IntegrityError`. -/
def insertRun (now : Time) (run : AnswerRun) (t : Tables) : Option Tables :=
  if Rejects t run then none
  else some (Tables.appendState now { t with runs := t.runs ++ [run] } run.id)

/-- One step of `RunService.submit`. -/
def Submit.step (now : Time) (p : Submit) (input : SubmitInput) (db : Db) (t : Tables) : SubmitPc × Tables :=
  match p.pc, input with
  | .done _, _ | .aborted, _ => (p.pc, t)
  | _, .abort => (.aborted, t)
  | .owned, .go =>
    match t.owned db p.userId p.conversationId with
    | .error e => (refused e, t)
    | .ok c => (.lock c.repositoryId, t)
  | .lock repositoryId, .go => (.byKey repositoryId, t)
  | .byKey repositoryId, .go =>
    match byKey t p.conversationId p.request.requestKey with
    | some run => (.done (replay run (fingerprint env p.request)), t)
    | none =>
      if p.settings.answersEnabled = false then (refused Answers.answersDisabled, t) else (.count repositoryId, t)
  | .count repositoryId, .go =>
    match t.conversations.find? (·.id = p.conversationId) with
    | none => (refused Tables.conversationNotFound, t)
    | some c => if 200 ≤ c.messageCount then (refused Tables.conversationFull, t) else (.active repositoryId, t)
  | .active repositoryId, .go =>
    if ∃ run ∈ t.runs, run.conversationId = p.conversationId ∧ run.status.Active then
      (refused ⟨"answer_active", "This conversation already has an active answer run.", 409⟩, t)
    else (.total repositoryId, t)
  | .total repositoryId, .go =>
    if 1000 ≤ (t.runs.filter (·.conversationId = p.conversationId)).length then
      (refused ⟨"run_limit", "This conversation has reached its run limit. Create another.", 409⟩, t)
    else (.source repositoryId, t)
  | .source repositoryId, .go =>
    match Searches.source db p.userId repositoryId with
    | .error e => (refused e, t)
    | .ok source => (.state repositoryId source, t)
  | .state repositoryId source, .go =>
    match Searches.state db p.userId repositoryId with
    | .error e => (refused e, t)
    | .ok state =>
      if Ready p.settings p.request.mode state then (.limit source, t)
      else (refused ⟨"search_required", "Prepare the selected search mode first.", 409⟩, t)
  | .limit source, .limited limit =>
    match limit with
    | some e => (refused e, t)
    | none => (.history source, t)
  | .history source, .go =>
    match t.snapshotHistory env db p.userId p.conversationId source.id with
    | .error e => (.done (.error e), t)
    | .ok history => (.insert source history, t)
  | .insert source history, .insert runId =>
    let run := newRun env now p runId source history
    match insertRun now run t with
    | some t' => (.done (.ok (run, true)), t')
    | none => (.replay, t)
  | .replay, .go =>
    match byKey t p.conversationId p.request.requestKey with
    | some run => (.done (replay run (fingerprint env p.request)), t)
    | none => (refused ⟨"answer_active", "Another submission won. Refresh run status.", 409⟩, t)
  | pc, _ => (pc, t)

/-! ### The worker -/

/-- Where a worker is after its claim. -/
inductive Pc
  | load
  | answering (conversationId : Uuid) (question : Text) (call : Call) (pc : Answers.Pc)
  | publish (conversationId : Uuid) (question : Text) (call : Call) (answer : AnswerResponse)
  | published (call : Call) (answer : AnswerResponse)
  | failing (code message : String)
  | done

structure Worker where
  runId : Uuid
  token : Uuid
  settings : Settings
  embedder : Option EmbeddingProvider
  model : Option Text
  streaming : Bool
  pc : Pc

/-- The conversation whose row the step locks. -/
def Pc.waits : Pc → Answers.Input → Option Uuid
  | .publish conversationId _ _ _, .go => some conversationId
  | _, _ => none

/-- What is recorded when the worker catches `e`. -/
def handler : Raised → Pc
  | .app e => .failing e.code e.message
  | _ => .failing "answer_worker_error" "The answer worker failed. Check status before retrying."

/-- The call of `AnswerService.answer` for a run. -/
def callOf (k : Worker) (run : AnswerRun) (conversation : Conversation) (request : AnswerRequest) : Call where
  settings := k.settings
  embedder := k.embedder
  model := k.model
  streaming := k.streaming
  userId := conversation.userId
  repositoryId := conversation.repositoryId
  request := request
  expectedSourceId := some run.sourceIndexId
  history := boundedHistory env run.history
  answerId := run.id
  run := some (k.runId, k.token)

/-- Read the run and its conversation, and check the configuration. -/
def load (k : Worker) (t : Tables) : Pc :=
  match t.runs.find? (·.id = k.runId) with
  | none => .done
  | some run =>
    if run.status ≠ .running ∨ run.leaseToken ≠ some k.token then .done
    else
      match t.conversations.find? (·.id = run.conversationId) with
      | none => .done
      | some conversation =>
        match AnswerRequest.validate env run.question run.mode with
        | none => handler .other
        | some request =>
          if run.configHash ≠ configHash env k.settings then
            handler (.app ⟨"answer_config_changed",
              "Model configuration changed after submission. Submit a new run.", 409⟩)
          else .answering conversation.id run.question (callOf env k run conversation request) .authorize

/-- Where an answer that came to an end takes the worker. -/
def Pc.resume (conversationId : Uuid) (question : Text) (call : Call) : Answers.Pc → Pc
  | .answered answer => .publish conversationId question call answer
  | .raised e => handler e
  | pc => .answering conversationId question call pc

/-- One step of `run_answer` after the claim. -/
def Worker.step (now : Time) (k : Worker) (input : Answers.Input) (db : Db) (t : Tables) : Pc × Tables :=
  match k.pc, input with
  | .load, .go => (load env k t, t)
  | .answering conversationId question call pc, input =>
    let (pc', t') := Answers.step env now call input pc db t
    (Pc.resume conversationId question call pc', t')
  | .publish conversationId question call answer, .go =>
    match publish now k.runId k.token call.userId conversationId question answer db t with
    | none => (.done, t)
    | some (.error e) => (handler (.app e), t)
    | some (.ok t') => (.published call answer, t')
  | .failing code message, .go => (.done, failRun now k.runId k.token code message t)
  | .done, _ | .published _ _, _ | .failing _ _, _ => (k.pc, t)
  | _, .raised e => (handler e, t)
  | pc, _ => (pc, t)

/-- The provider call a step of the worker makes. -/
def Worker.providerCall (k : Worker) (input : Answers.Input) : Option ReceiptKind :=
  match k.pc with
  | .answering _ _ _ pc => Answers.providerCall pc input
  | _ => none

end Runs
end RepoPilot
