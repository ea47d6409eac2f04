import RepoPilot.Generation

/-! # Conversations, runs, events and receipts

The tables behind conversations and answer runs, and the short transactions the services and workers
share: appending a run event, appending a pair of messages, and writing usage receipts. -/

namespace RepoPilot
open Generation

/-! ### Rows -/

structure Conversation where
  id : Uuid
  userId : Uuid
  repositoryId : Uuid
  title : Text
  messageCount : Nat
  createdAt : Time
  updatedAt : Time
  deriving DecidableEq

inductive Role
  | user | assistant | tool
  deriving DecidableEq

structure Message where
  conversationId : Uuid
  turnId : Uuid
  position : Nat
  role : Role
  content : Text
  tokenCount : Option Nat
  answer : Option AnswerResponse
  deriving DecidableEq

inductive UsageState
  | notStarted | unknown | recorded
  deriving DecidableEq

structure AnswerRun where
  id : Uuid
  conversationId : Uuid
  requestKey : Uuid
  requestHash : Text
  question : Text
  previewText : Text
  previewRevision : Nat
  history : List HistoryTurn
  mode : Mode
  sourceIndexId : Uuid
  configHash : Text
  model : Text
  status : Status
  receiptVersion : Nat
  usageState : UsageState
  inputTokens : Option Nat
  outputTokens : Option Nat
  estimatedCostUsd : Option ℚ
  errorCode : Option String
  errorMessage : Option String
  leaseToken : Option Uuid
  leaseExpiresAt : Option Time
  lastDispatchedAt : Option Time
  startedAt : Option Time
  finishedAt : Option Time
  createdAt : Time
  deriving DecidableEq

structure RunEvent where
  runId : Uuid
  sequence : Nat
  status : Status
  occurredAt : Time
  deriving DecidableEq

inductive ReceiptKind
  | queryEmbedding | generation
  deriving DecidableEq

structure UsageReceipt where
  id : Uuid
  runId : Uuid
  kind : ReceiptKind
  model : Text
  inputRate : ℚ
  outputRate : ℚ
  inputTokens : Option Nat
  outputTokens : Option Nat
  estimatedCostUsd : Option ℚ
  startedAt : Time
  finishedAt : Option Time
  deriving DecidableEq

structure Tables where
  conversations : List Conversation
  messages : List Message
  runs : List AnswerRun
  events : List RunEvent
  receipts : List UsageReceipt

namespace Tables

def empty : Tables := ⟨[], [], [], [], []⟩

/-! ### Run events -/

def eventsOf (t : Tables) (runId : Uuid) : List RunEvent := t.events.filter (·.runId = runId)

/-- `select max(sequence)`, `0` when there is none. -/
def lastSequence (t : Tables) (runId : Uuid) : Nat := (((t.eventsOf runId).map (·.sequence)).max?).getD 0

def clearPreview (run : AnswerRun) : AnswerRun := { run with previewText := [] }

/-- `append_state`. -/
def appendState (now : Time) (t : Tables) (runId : Uuid) : Tables :=
  match t.runs.find? (·.id = runId) with
  | none => t
  | some run =>
    { t with
      runs := if run.status.Terminal then Table.update (·.id = runId) clearPreview t.runs else t.runs
      events := t.events ++ [⟨runId, t.lastSequence runId + 1, run.status, now⟩] }

/-- `UPDATE answer_runs SET f WHERE p RETURNING id`, and `append_state` for each id returned. -/
def transition (now : Time) (p : AnswerRun → Prop) [DecidablePred p] (f : AnswerRun → AnswerRun) (t : Tables) :
    Tables :=
  ((t.runs.filter p).map (·.id)).foldl (appendState now) { t with runs := Table.update p f t.runs }

/-- The same for one run; `none` when no row is returned. -/
def transitionOne (now : Time) (p : AnswerRun → Prop) [DecidablePred p] (f : AnswerRun → AnswerRun) (t : Tables) :
    Option Tables :=
  if ∃ r ∈ t.runs, p r then some (t.transition now p f) else none

/-! ### Conversations -/

def conversationNotFound : AppError := ⟨"not_found", "Conversation not found.", 404⟩

/-- `ConversationStore.owned`. -/
def owned (db : Db) (t : Tables) (userId conversationId : Uuid) : Except AppError Conversation :=
  match t.conversations.find? fun c =>
      c.id = conversationId ∧ c.userId = userId ∧
        ∃ r ∈ db.repositories, r.id = c.repositoryId ∧ r.userId = userId with
  | none => .error conversationNotFound
  | some c => .ok c

/-- `RunStore.owned`. -/
def ownedRun (db : Db) (t : Tables) (userId runId : Uuid) : Except AppError AnswerRun :=
  match t.runs.find? fun run =>
      run.id = runId ∧ ∃ c ∈ t.conversations, c.id = run.conversationId ∧ c.userId = userId ∧
        ∃ r ∈ db.repositories, r.id = c.repositoryId ∧ r.userId = userId with
  | none => .error ⟨"not_found", "Answer run not found.", 404⟩
  | some run => .ok run

/-- `ConversationStore.messages`. -/
def messagePage (t : Tables) (conversationId : Uuid) (before : Option Nat) : List Message × Option Nat :=
  let rows := ((t.messages.filter fun m => m.conversationId = conversationId ∧ ∀ b ∈ before, m.position < b).insertionSort
    fun a b => b.position ≤ a.position).take 21
  let page := (rows.take 20).reverse
  (page, if 20 < rows.length then page.head?.map (·.position) else none)

/-- The conversation still has room for a pair. -/
def HasRoom (userId conversationId : Uuid) (c : Conversation) : Prop :=
  c.id = conversationId ∧ c.userId = userId ∧ c.messageCount ≤ 198

instance (userId conversationId : Uuid) : DecidablePred (HasRoom userId conversationId) := fun c =>
  inferInstanceAs (Decidable (c.id = conversationId ∧ c.userId = userId ∧ c.messageCount ≤ 198))

def counted (now : Time) (c : Conversation) : Conversation :=
  { c with messageCount := c.messageCount + 2, updatedAt := now }

def conversationFull : AppError := ⟨"conversation_full", "This conversation is full. Create another.", 409⟩

def answerContent (answer : AnswerResponse) : Text :=
  "\n\n".toList.intercalate
    (answer.claims.map (·.text) ++ if answer.limitation = [] then [] else [answer.limitation])

/-- The two messages of a turn; `count` is the new number of messages. -/
def pair (conversationId : Uuid) (count : Nat) (question : Text) (answer : AnswerResponse) : List Message :=
  [⟨conversationId, answer.answerId, count - 1, .user, question, none, none⟩,
    ⟨conversationId, answer.answerId, count, .assistant, answerContent answer,
      answer.model.map fun _ => answer.outputTokens, some answer⟩]

/-- `append_pair`. -/
def appendPair (now : Time) (db : Db) (userId conversationId : Uuid) (question : Text) (answer : AnswerResponse)
    (t : Tables) : Except AppError Tables :=
  match t.conversations.find? (HasRoom userId conversationId ·) with
  | none => do
    let _ ← t.owned db userId conversationId
    .error conversationFull
  | some c => .ok
    { t with
      conversations := Table.update (HasRoom userId conversationId) (counted now) t.conversations
      messages := t.messages ++ pair conversationId (c.messageCount + 2) question answer }

/-- `DELETE FROM conversations WHERE p`, with what hangs on them. -/
def deleteConversations (p : Conversation → Bool) (t : Tables) : Tables :=
  let gone := (t.conversations.filter p).map (·.id)
  let runs := (t.runs.filter (·.conversationId ∈ gone)).map (·.id)
  { conversations := t.conversations.filter fun c => ¬ p c
    messages := t.messages.filter (·.conversationId ∉ gone)
    runs := t.runs.filter (·.conversationId ∉ gone)
    events := t.events.filter (·.runId ∉ runs)
    receipts := t.receipts.filter (·.runId ∉ runs) }

/-- The latest messages of a conversation, newest first. -/
def latest (t : Tables) (conversationId : Uuid) (limit : Nat) : List Message :=
  ((t.messages.filter (·.conversationId = conversationId)).insertionSort fun a b => b.position ≤ a.position).take
    limit

/-- The loop of `snapshot_history` over pairs of messages, newest first. -/
def turns (sourceId : Uuid) : List Message → Except Raised (List HistoryTurn)
  | answerRow :: questionRow :: rest =>
    if answerRow.role ≠ .assistant ∨ questionRow.role ≠ .user ∨ answerRow.turnId ≠ questionRow.turnId ∨
        answerRow.position ≠ questionRow.position + 1 then .ok []
    else
      match answerRow.answer with
      | none => .error .other
      | some answer =>
        if answer.sourceIndexId ≠ sourceId ∨ answer.status ≠ .answered then .ok []
        else
          let text := "\n".toList.intercalate (answer.claims.map (·.text))
          if text = [] ∨ 8000 < text.length then .ok []
          else
            match HistoryTurn.validate answerRow.turnId questionRow.content text with
            | none => .error .other
            | some turn => (turns sourceId rest).map (turn :: ·)
  | _ => .ok []

/-- `snapshot_history`. -/
def snapshotHistory (env : Env) (db : Db) (t : Tables) (userId conversationId sourceId : Uuid) :
    Except Raised (List HistoryTurn) := do
  let _ ← lift (t.owned db userId conversationId)
  let selected ← turns sourceId (t.latest conversationId 6)
  .ok (boundedHistory env selected.reverse)

/-! ### Usage receipts -/

/-- Rounding of a nonnegative number to `k` decimals by a `NUMERIC` column. -/
def roundTo (k : Nat) (q : ℚ) : ℚ := ⌊q * 10 ^ k + 1 / 2⌋ / 10 ^ k

/-- The run is running under this token and its lease has not expired. -/
def Held (now : Time) (runId token : Uuid) (run : AnswerRun) : Prop :=
  run.id = runId ∧ run.status = .running ∧ run.leaseToken = some token ∧ Future run.leaseExpiresAt now

instance (now : Time) (runId token : Uuid) : DecidablePred (Held now runId token) := fun run =>
  inferInstanceAs (Decidable (run.id = runId ∧ run.status = .running ∧ run.leaseToken = some token ∧
    Future run.leaseExpiresAt now))

def answerInactive : AppError := ⟨"answer_inactive", "Answer run is no longer active.", 409⟩

/-- `ReceiptWriter.begin`; a second receipt of a kind violates a unique constraint. -/
def begin (now : Time) (runId token receiptId : Uuid) (kind : ReceiptKind) (model : Text)
    (inputRate outputRate : ℚ) (t : Tables) : Except Raised Tables := do
  refuse (¬ ∃ run ∈ t.runs, Held now runId token run) answerInactive
  if ∃ r ∈ t.receipts, r.runId = runId ∧ r.kind = kind then .error .other
  else
    .ok { t with receipts := t.receipts ++
      [⟨receiptId, runId, kind, model, roundTo 8 inputRate, roundTo 8 outputRate, none, none, none, now, none⟩] }

def receiptCost (r : UsageReceipt) (inputTokens outputTokens : Nat) : ℚ :=
  (inputTokens * r.inputRate + outputTokens * r.outputRate) / 1000000

def recorded (now : Time) (inputTokens outputTokens : Nat) (r : UsageReceipt) : UsageReceipt :=
  { r with
    inputTokens := some inputTokens
    outputTokens := some outputTokens
    estimatedCostUsd := some (roundTo 12 (receiptCost r inputTokens outputTokens))
    finishedAt := some now }

/-- The receipt is not finished yet. -/
def Open (receiptId : Uuid) (r : UsageReceipt) : Prop := r.id = receiptId ∧ r.inputTokens = none

instance (receiptId : Uuid) : DecidablePred (Open receiptId) := fun r =>
  inferInstanceAs (Decidable (r.id = receiptId ∧ r.inputTokens = none))

/-- `ReceiptWriter.finish`; a receipt whose run was deleted is not written again. -/
def finish (now : Time) (receiptId : Uuid) (inputTokens outputTokens : Int) (t : Tables) : Except Raised Tables := do
  refuse (min inputTokens outputTokens < 0) ⟨"usage_invalid", "Provider usage was invalid.", 502⟩
  .ok { t with receipts :=
    Table.update (Open receiptId) (recorded now inputTokens.toNat outputTokens.toNat) t.receipts }

/-- `RunUsage`, without the receipts themselves. -/
def knownCostUsd (t : Tables) (runId : Uuid) : ℚ :=
  ((t.receipts.filter (·.runId = runId)).map fun r => r.estimatedCostUsd.getD 0).sum

def unknownCalls (t : Tables) (runId : Uuid) : Nat :=
  (t.receipts.filter fun r => r.runId = runId ∧ r.inputTokens = none).length

end Tables
end RepoPilot
