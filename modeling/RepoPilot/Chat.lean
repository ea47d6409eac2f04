import RepoPilot.Runs

/-! # Conversations with their processes

The tables with every process that works on them: requests about conversations, synchronous questions,
submissions, deliveries to workers and dispatcher cycles, in any interleaving. One action is one
statement, one short transaction or one local step; an action that waits for a row lock does nothing. -/

namespace RepoPilot
open Generation

/-- Where `ConversationService.ask` is. -/
inductive AskPc
  | owned
  | answering (repositoryId : Uuid) (pc : Answers.Pc)
  | append (answer : AnswerResponse)
  | done (result : Except Raised AnswerResponse)

structure Ask where
  settings : Settings
  embedder : Option EmbeddingProvider
  model : Option Text
  userId : Uuid
  conversationId : Uuid
  request : AnswerRequest
  answerId : Uuid
  pc : AskPc

namespace Ask

def callOf (p : Ask) (repositoryId : Uuid) : Call where
  settings := p.settings
  embedder := p.embedder
  model := p.model
  streaming := false
  userId := p.userId
  repositoryId := repositoryId
  request := p.request
  expectedSourceId := none
  history := []
  answerId := p.answerId
  run := none

def resume (repositoryId : Uuid) : Answers.Pc → AskPc
  | .answered answer => .append answer
  | .raised e => .done (.error e)
  | pc => .answering repositoryId pc

/-- One step of `ConversationService.ask`. -/
def step (env : Env) (now : Time) (p : Ask) (input : Answers.Input) (db : Db) (t : Tables) : AskPc × Tables :=
  match p.pc, input with
  | .owned, .go =>
    match t.owned db p.userId p.conversationId with
    | .error e => (.done (.error (.app e)), t)
    | .ok c =>
      if 200 ≤ c.messageCount then (.done (.error (.app Tables.conversationFull)), t)
      else (.answering c.repositoryId .authorize, t)
  | .answering repositoryId pc, input =>
    let (pc', t') := Answers.step env now (p.callOf repositoryId) input pc db t
    (resume repositoryId pc', t')
  | .append answer, .go =>
    match t.appendPair now db p.userId p.conversationId p.request.question answer with
    | .error e => (.done (.error (.app e)), t)
    | .ok t' => (.done (.ok answer), t')
  | .done _, _ => (p.pc, t)
  | _, .raised e => (.done (.error e), t)
  | pc, _ => (pc, t)

end Ask

/-- The step writes the row of the conversation. -/
def AskPc.Waits : AskPc → Answers.Input → Prop
  | .append _, .go => True
  | _, _ => False

instance (pc : AskPc) (input : Answers.Input) : Decidable (pc.Waits input) := by
  cases pc <;> cases input <;> first | exact .isTrue trivial | exact .isFalse id

/-- What was committed or called for answer runs, in order. -/
inductive Entry
  | committed (receipt : UsageReceipt)
  | called (runId : Uuid) (kind : ReceiptKind)
  deriving DecidableEq

structure Chat where
  tables : Tables
  asks : List Ask
  submits : List Runs.Submit
  workers : List Runs.Worker
  cycles : List Runs.Cycle
  /-- Every receipt committed and every provider call made by a worker. -/
  log : List Entry

namespace Chat

def empty : Chat := ⟨Tables.empty, [], [], [], [], []⟩

inductive Action
  | create (userId repositoryId conversationId : Uuid) (title : Text) (limit : Option AppError)
  | remove (userId conversationId : Uuid)
  | ask (settings : Settings) (embedder : Option EmbeddingProvider) (model : Option Text)
      (userId conversationId : Uuid) (question : Text) (mode : Mode) (answerId : Uuid)
  | askStep (ask : Nat) (input : Answers.Input)
  | submit (settings : Settings) (userId conversationId requestKey : Uuid) (question : Text) (mode : Mode)
  | submitStep (submit : Nat) (input : Runs.SubmitInput)
  | cancel (userId runId : Uuid)
  | deliver (settings : Settings) (embedder : Option EmbeddingProvider) (model : Option Text)
      (streaming : Bool) (runId token : Uuid)
  | workerStep (worker : Nat) (input : Answers.Input)
  | dispatch
  | cycleStep (cycle : Nat) (succeeded : Bool)

/-- The identifiers an action draws. -/
def Action.ids : Action → List Uuid
  | .create _ _ conversationId _ _ => [conversationId]
  | .ask _ _ _ _ _ _ _ answerId => [answerId]
  | .submitStep _ (.insert runId) => [runId]
  | .deliver _ _ _ _ _ token => [token]
  | .workerStep _ (.receipt id) => [id]
  | _ => []

/-- A submission holds the lock of the conversation's row. -/
def Locked (env : Env) (s : Chat) (conversationId : Uuid) : Prop :=
  env.rowLocks = true ∧ (∃ c ∈ s.tables.conversations, c.id = conversationId) ∧
    ∃ p ∈ s.submits, p.conversationId = conversationId ∧ p.pc.Locks

instance (env : Env) (s : Chat) (conversationId : Uuid) : Decidable (Locked env s conversationId) :=
  inferInstanceAs (Decidable (env.rowLocks = true ∧ (∃ c ∈ s.tables.conversations, c.id = conversationId) ∧
    ∃ p ∈ s.submits, p.conversationId = conversationId ∧ p.pc.Locks))

/-- `ConversationCreate.clean_title`, with the limits of the field. -/
def cleanTitle (title : Text) : Option Text :=
  let value := strip title
  if 1 ≤ title.length ∧ title.length ≤ 100 ∧ value ≠ [] ∧ ¬ value.any (·.toNat < 32) then some value else none

/-- `ConversationService.create`, under the lock of the repository row. -/
def create (now : Time) (userId repositoryId conversationId : Uuid) (title : Text) (limit : Option AppError)
    (db : Db) (t : Tables) : Except Raised Tables := do
  let _ ← lift (db.owned userId repositoryId)
  refuse (100 ≤ (t.conversations.filter (·.repositoryId = repositoryId)).length)
    ⟨"conversation_limit", "This repository has 100 conversations. Delete one first.", 409⟩
  check limit
  .ok { t with conversations := t.conversations ++ [⟨conversationId, userId, repositoryId, title, 0, now, now⟩] }

/-- `ConversationService.remove`. -/
def remove (userId conversationId : Uuid) (db : Db) (t : Tables) : Tables :=
  match t.owned db userId conversationId with
  | .error _ => t
  | .ok _ => t.deleteConversations fun c => c.id = conversationId ∧ c.userId = userId

def askStep (env : Env) (now : Time) (i : Nat) (input : Answers.Input) (db : Db) (s : Chat) : Chat :=
  match s.asks[i]? with
  | none => s
  | some p =>
    if p.pc.Waits input ∧ Locked env s p.conversationId then s
    else
      let r := p.step env now input db s.tables
      { s with tables := r.2, asks := s.asks.set i { p with pc := r.1 } }

def submitStep (env : Env) (now : Time) (i : Nat) (input : Runs.SubmitInput) (db : Db) (s : Chat) : Chat :=
  match s.submits[i]? with
  | none => s
  | some p =>
    if p.pc.Waits input ∧ Locked env s p.conversationId then s
    else
      let r := p.step env now input db s.tables
      { s with tables := r.2, submits := s.submits.set i { p with pc := r.1 } }

/-- One delivery: it becomes a worker if its claim succeeds. -/
def deliver (now : Time) (settings : Settings) (embedder : Option EmbeddingProvider) (model : Option Text)
    (streaming : Bool) (runId token : Uuid) (s : Chat) : Chat :=
  match Runs.claim now runId token s.tables with
  | none => s
  | some t => { s with
      tables := t
      workers := s.workers ++ [⟨runId, token, settings, embedder, model, streaming, .load⟩] }

def workerStep (env : Env) (now : Time) (i : Nat) (input : Answers.Input) (db : Db) (s : Chat) : Chat :=
  match s.workers[i]? with
  | none => s
  | some k =>
    if ∃ conversationId ∈ k.pc.waits input, Locked env s conversationId then s
    else
      let r := k.step env now input db s.tables
      { s with
        tables := r.2
        workers := s.workers.set i { k with pc := r.1 }
        log := s.log ++ (r.2.receipts.drop s.tables.receipts.length).map .committed ++
          ((k.providerCall input).map (.called k.runId ·)).toList }

def step (env : Env) (now : Time) (a : Action) (db : Db) (s : Chat) : Chat :=
  match a with
  | .create userId repositoryId conversationId title limit =>
    match cleanTitle title with
    | none => s
    | some title =>
      match create now userId repositoryId conversationId title limit db s.tables with
      | .error _ => s
      | .ok t => { s with tables := t }
  | .remove userId conversationId =>
    if Locked env s conversationId then s else { s with tables := remove userId conversationId db s.tables }
  | .ask settings embedder model userId conversationId question mode answerId =>
    match AnswerRequest.validate env question mode with
    | none => s
    | some request => { s with
        asks := s.asks ++ [⟨settings, embedder, model, userId, conversationId, request, answerId, .owned⟩] }
  | .askStep i input => askStep env now i input db s
  | .submit settings userId conversationId requestKey question mode =>
    match AnswerRequest.validate env question mode with
    | none => s
    | some request => { s with
        submits := s.submits ++
          [⟨settings, userId, conversationId, ⟨requestKey, request.question, request.mode⟩, .owned⟩] }
  | .submitStep i input => submitStep env now i input db s
  | .cancel userId runId =>
    match Runs.cancel now userId runId db s.tables with
    | .error _ => s
    | .ok t => { s with tables := t }
  | .deliver settings embedder model streaming runId token =>
    deliver now settings embedder model streaming runId token s
  | .workerStep i input => workerStep env now i input db s
  | .dispatch => { s with cycles := s.cycles ++ [.expireRunning now] }
  | .cycleStep i succeeded =>
    match s.cycles[i]? with
    | none => s
    | some c =>
      let r := c.step now succeeded s.tables
      { s with tables := r.2, cycles := s.cycles.set i r.1 }

/-- What `RepositoryService.remove` deletes besides what hangs on the repository in `Db`. -/
def removeRepository (db : Db) (userId repositoryId : Uuid) (s : Chat) : Chat :=
  match db.owned userId repositoryId with
  | .error _ => s
  | .ok _ => { s with tables := s.tables.deleteConversations (·.repositoryId = repositoryId) }

end Chat
end RepoPilot
