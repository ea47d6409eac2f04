import RepoPilot.Chat
import RepoPilot.Imports
import RepoPilot.Indexes

/-! # What a user asks of the services

The reading requests of `RepositoryService`, `IndexService`, `PreparationService`, `SearchService`,
`ConversationService` and `RunService` with their responses. -/

namespace RepoPilot
open Generation

/-! ### Responses -/

structure JobResponse where
  id : Uuid
  status : Status
  stage : String
  attempts : Nat
  filesScanned : Nat
  filesStored : Nat
  filesSkipped : Nat
  errorCode : Option String
  errorMessage : Option String
  deriving DecidableEq

structure RepositoryResponse where
  id : Uuid
  owner : Text
  name : Text
  url : Text
  githubRepositoryId : Option Nat
  defaultBranch : Option Text
  lastCommitSha : Option Text
  importedAt : Option Time
  job : JobResponse
  deriving DecidableEq

structure FileResponse where
  id : Uuid
  path : Text
  language : String
  size : Nat
  deriving DecidableEq

structure FilePage where
  items : List FileResponse
  nextOffset : Option Nat
  deriving DecidableEq

structure FileContentResponse extends FileResponse where
  content : Text
  commitSha : Text
  deriving DecidableEq

structure IndexResponse extends JobResponse where
  commitSha : Text
  pipelineVersion : String
  symbolCount : Nat
  chunkCount : Nat
  diagnostics : List Diagnostic
  deriving DecidableEq

structure IndexState where
  latest : Option IndexResponse
  active : Option IndexResponse
  deriving DecidableEq

structure ChunkResponse where
  id : Uuid
  fileId : Uuid
  chunk : Chunk
  deriving DecidableEq

structure IndexedFilePage where
  indexId : Uuid
  fileId : Uuid
  path : Text
  language : String
  commitSha : Text
  symbols : List CodeSymbol
  chunks : List ChunkResponse
  nextSymbolOffset : Option Nat
  nextChunkOffset : Option Nat
  deriving DecidableEq

structure SearchJobResponse where
  id : Uuid
  sourceIndexId : Uuid
  commitSha : Text
  mode : Mode
  providerProfile : Text
  status : Status
  stage : String
  documentsStored : Nat
  reservedTokens : Nat
  inputTokens : Nat
  tokenBudget : Nat
  pricePerMillion : ℚ
  errorCode : Option String
  errorMessage : Option String
  deriving DecidableEq

structure SearchState where
  enabledSemantic : Bool
  latest : Option SearchJobResponse
  keyword : Option SearchJobResponse
  hybrid : Option SearchJobResponse
  deriving DecidableEq

structure ConversationResponse where
  id : Uuid
  repositoryId : Uuid
  title : Text
  messageCount : Nat
  createdAt : Time
  updatedAt : Time
  deriving DecidableEq

structure MessageResponse where
  turnId : Uuid
  position : Nat
  role : Role
  content : Text
  tokenCount : Option Nat
  answer : Option AnswerResponse
  deriving DecidableEq

structure MessagePage where
  items : List MessageResponse
  nextBefore : Option Nat
  deriving DecidableEq

structure RunResponse where
  id : Uuid
  conversationId : Uuid
  requestKey : Uuid
  question : Text
  mode : Mode
  status : Status
  model : Text
  sourceIndexId : Uuid
  usageState : UsageState
  inputTokens : Option Nat
  outputTokens : Option Nat
  estimatedCostUsd : Option ℚ
  errorCode : Option String
  errorMessage : Option String
  createdAt : Time
  startedAt : Option Time
  finishedAt : Option Time
  deriving DecidableEq

structure ReceiptResponse where
  id : Uuid
  kind : ReceiptKind
  model : Text
  inputRate : ℚ
  outputRate : ℚ
  inputTokens : Option Nat
  outputTokens : Option Nat
  estimatedCostUsd : Option ℚ
  startedAt : Time
  finishedAt : Option Time
  deriving DecidableEq

structure RunUsage where
  tracked : Bool
  items : List ReceiptResponse
  knownCostUsd : ℚ
  unknownCalls : Nat
  deriving DecidableEq

def JobResponse.validate (j : ImportJob) : JobResponse where
  id := j.id
  status := j.status
  stage := j.stage
  attempts := j.attempts
  filesScanned := j.data.filesScanned
  filesStored := j.data.filesStored
  filesSkipped := j.data.filesSkipped
  errorCode := j.errorCode
  errorMessage := j.errorMessage

/-- `RepositoryService.response`. -/
def RepositoryResponse.make (r : Repository) (j : ImportJob) : RepositoryResponse where
  id := r.id
  owner := r.owner
  name := r.name
  url := "https://github.com/".toList ++ r.owner ++ '/' :: r.name
  githubRepositoryId := r.githubRepositoryId
  defaultBranch := r.defaultBranch
  lastCommitSha := r.lastCommitSha
  importedAt := r.importedAt
  job := JobResponse.validate j

def FileResponse.validate (f : RepositoryFile) : FileResponse := ⟨f.id, f.path, f.language, f.size⟩

def IndexResponse.validate (i : RepositoryIndex) : IndexResponse where
  id := i.id
  status := i.status
  stage := i.stage
  attempts := i.attempts
  filesScanned := i.data.filesScanned
  filesStored := i.data.filesStored
  filesSkipped := i.data.filesSkipped
  errorCode := i.errorCode
  errorMessage := i.errorMessage
  commitSha := i.data.commitSha
  pipelineVersion := i.data.pipelineVersion
  symbolCount := i.data.symbolCount
  chunkCount := i.data.chunkCount
  diagnostics := i.data.diagnostics

def ChunkResponse.validate (c : CodeChunk) : ChunkResponse := ⟨c.id, c.fileId, c.chunk⟩

def SearchJobResponse.validate (s : SearchIndex) : SearchJobResponse where
  id := s.id
  sourceIndexId := s.data.sourceIndexId
  commitSha := s.data.commitSha
  mode := s.data.mode
  providerProfile := s.data.providerProfile
  status := s.status
  stage := s.stage
  documentsStored := s.data.documentsStored
  reservedTokens := s.data.reservedTokens
  inputTokens := s.data.inputTokens
  tokenBudget := s.data.tokenBudget
  pricePerMillion := s.data.pricePerMillion
  errorCode := s.errorCode
  errorMessage := s.errorMessage

def ConversationResponse.validate (c : Conversation) : ConversationResponse :=
  ⟨c.id, c.repositoryId, c.title, c.messageCount, c.createdAt, c.updatedAt⟩

def MessageResponse.validate (m : Message) : MessageResponse :=
  ⟨m.turnId, m.position, m.role, m.content, m.tokenCount, m.answer⟩

def RunResponse.validate (r : AnswerRun) : RunResponse where
  id := r.id
  conversationId := r.conversationId
  requestKey := r.requestKey
  question := r.question
  mode := r.mode
  status := r.status
  model := r.model
  sourceIndexId := r.sourceIndexId
  usageState := r.usageState
  inputTokens := r.inputTokens
  outputTokens := r.outputTokens
  estimatedCostUsd := r.estimatedCostUsd
  errorCode := r.errorCode
  errorMessage := r.errorMessage
  createdAt := r.createdAt
  startedAt := r.startedAt
  finishedAt := r.finishedAt

def ReceiptResponse.validate (r : UsageReceipt) : ReceiptResponse where
  id := r.id
  kind := r.kind
  model := r.model
  inputRate := r.inputRate
  outputRate := r.outputRate
  inputTokens := r.inputTokens
  outputTokens := r.outputTokens
  estimatedCostUsd := r.estimatedCostUsd
  startedAt := r.startedAt
  finishedAt := r.finishedAt

/-! ### Repositories -/

namespace RepositoryService

/-- `RepositoryStore.list_owned`. -/
def listOwned (db : Db) (userId : Uuid) : List (Repository × ImportJob) :=
  ((db.repositories.filter (·.userId = userId)).flatMap fun r =>
    (db.imports.filter fun j => j.repositoryId = r.id ∧ j.isCurrent = true).map (r, ·)).insertionSort
      fun a b => b.1.createdAt ≤ a.1.createdAt

def list (db : Db) (userId : Uuid) : List RepositoryResponse :=
  (listOwned db userId).map fun p => RepositoryResponse.make p.1 p.2

def get (db : Db) (userId repositoryId : Uuid) : Except AppError RepositoryResponse := do
  let (repository, job) ← db.owned userId repositoryId
  .ok (RepositoryResponse.make repository job)

def files (db : Db) (userId repositoryId : Uuid) (offset limit : Nat) : Except AppError FilePage := do
  let (_, job) ← db.owned userId repositoryId
  let rows := (((db.files.filter fun f => f.repositoryId = repositoryId ∧ f.importJobId = job.id).insertionSort
    fun a b => a.path ≤ b.path).drop offset).take (limit + 1)
  .ok ⟨(rows.take limit).map FileResponse.validate, if limit < rows.length then some (offset + limit) else none⟩

def fileNotFound : AppError := ⟨"not_found", "File not found.", 404⟩

def content (db : Db) (userId repositoryId fileId : Uuid) : Except AppError FileContentResponse := do
  let (repository, job) ← db.owned userId repositoryId
  match db.files.find? fun f => f.id = fileId ∧ f.repositoryId = repositoryId ∧ f.importJobId = job.id,
      repository.lastCommitSha with
  | some file, some commitSha => .ok ⟨FileResponse.validate file, file.content, commitSha⟩
  | _, _ => .error fileNotFound

end RepositoryService

/-! ### Indexes -/

namespace IndexService

def state (db : Db) (userId repositoryId : Uuid) : Except AppError IndexState := do
  let (_, source) ← db.owned userId repositoryId
  .ok ⟨(db.latestIndex repositoryId source.id).map IndexResponse.validate,
    (db.activeIndex repositoryId source.id).map IndexResponse.validate⟩

/-- `IndexStore.symbols`. -/
def symbols (db : Db) (indexId fileId : Uuid) (offset : Nat) : List CodeSymbol :=
  (((db.symbols.filter fun s => s.indexId = indexId ∧ s.fileId = fileId).insertionSort
    fun a b => a.ordinal ≤ b.ordinal).drop offset).take 51

/-- `IndexStore.chunks`. -/
def chunks (db : Db) (indexId fileId : Uuid) (offset : Nat) : List CodeChunk :=
  (((db.chunks.filter fun c => c.indexId = indexId ∧ c.fileId = fileId).insertionSort
    fun a b => a.chunk.ordinal ≤ b.chunk.ordinal).drop offset).take 21

def file (db : Db) (userId repositoryId fileId : Uuid) (symbolOffset chunkOffset : Nat) :
    Except AppError IndexedFilePage := do
  let (_, source) ← db.owned userId repositoryId
  match db.files.find? fun f => f.id = fileId ∧ f.importJobId = source.id with
  | none => .error RepositoryService.fileNotFound
  | some file =>
    match db.activeIndex repositoryId source.id with
    | none => .error ⟨"index_required", "Complete indexing first.", 409⟩
    | some index =>
      let symbols := symbols db index.id fileId symbolOffset
      let chunks := chunks db index.id fileId chunkOffset
      .ok
        { indexId := index.id
          fileId := fileId
          path := file.path
          language := file.language
          commitSha := index.data.commitSha
          symbols := symbols.take 50
          chunks := (chunks.take 20).map ChunkResponse.validate
          nextSymbolOffset := if 50 < symbols.length then some (symbolOffset + 50) else none
          nextChunkOffset := if 20 < chunks.length then some (chunkOffset + 20) else none }

end IndexService

/-! ### Search -/

/-- `PreparationService.state`. -/
def PreparationService.state (settings : Settings) (db : Db) (userId repositoryId : Uuid) :
    Except AppError SearchState := do
  let state ← Searches.state db userId repositoryId
  .ok ⟨settings.embeddingsEnabled, state.latest.map SearchJobResponse.validate,
    state.keyword.map SearchJobResponse.validate, state.hybrid.map SearchJobResponse.validate⟩

/-- `SearchRequest`, validated. -/
structure SearchRequest where
  mode : Mode
  query : Text
  topK : Nat
  contextTokenBudget : Nat

namespace SearchService

/-- The provider's answer to the query: its channel, and its tokens. -/
def semantic (env : Env) (settings : Settings) (provider : Option EmbeddingProvider)
    (embed : List (List Nat) → Except Raised EmbeddingBatch) (query : Text) (index : SearchIndex) (db : Db) :
    Except Raised (List Uuid × Nat) :=
  let disabled : AppError := ⟨"embeddings_disabled", "Semantic search is disabled. Choose keyword search.", 409⟩
  match provider with
  | none => .error (.app disabled)
  | some p => do
    refuse (settings.embeddingsEnabled = false) disabled
    refuse (p.profile ≠ index.data.providerProfile)
      ⟨"embedding_profile_mismatch", "Rebuild search with the configured embedding profile.", 409⟩
    let parts := p.tokenize query
    let response ← embed parts
    refuse (response.vectors.length ≠ parts.length ∨ response.inputTokens ≠ Answers.partsTokens parts)
      ⟨"embedding_invalid", "Query embedding did not match its input.", 502⟩
    let vector ← env.aggregate response.vectors (parts.map List.length)
    .ok (Retrieval.vector env db index.id vector, Answers.partsTokens parts)

/-- The index a search reads: one of its mode, or for a keyword search a hybrid one. -/
def indexOf (db : Db) (repositoryId sourceId : Uuid) (mode : Mode) : Option SearchIndex :=
  (db.activeSearch repositoryId sourceId mode).or
    (if mode = .keyword then db.activeSearch repositoryId sourceId .hybrid else none)

/-- The end of `_search`: load the ranked chunks and build the context. -/
def assemble (env : Env) (settings : Settings) (request : SearchRequest) (source : RepositoryIndex)
    (index : SearchIndex) (channels : List (String × List Uuid)) (usage : Nat) (db : Db) : Except Raised Retrieved :=
  let chunks := db.sourceChunks source.id (some (Retrieval.candidateIds channels))
  match Retrieval.hits chunks (Retrieval.fuse channels request.topK (chunks.map Retrieval.place)) with
  | none => .error (.app ⟨"search_inconsistent", "Search source changed. Refresh and retry.", 409⟩)
  | some results =>
    let built := Retrieval.buildContext env results source.data.commitSha request.contextTokenBudget
    .ok
      { searchIndexId := index.id
        sourceIndexId := source.id
        commitSha := source.data.commitSha
        mode := request.mode
        pipelineVersion := searchVersion
        providerProfile := index.data.providerProfile
        results := results
        context := built.1
        contextTokens := built.2
        contextOmitted := results.length - built.1.length
        queryTokens := usage
        estimatedQueryCostUsd := usage * settings.embeddingPrice / 1000000 }

/-- `SearchService._search`; `limit` is the answer of the rate limiter, and `later` what is stored once the
read transaction has ended. -/
def search' (env : Env) (settings : Settings) (provider : Option EmbeddingProvider)
    (embed : List (List Nat) → Except Raised EmbeddingBatch) (userId repositoryId : Uuid) (request : SearchRequest)
    (limit : Option AppError) (db later : Db) : Except Raised Retrieved := do
  let source ← lift (Searches.source db userId repositoryId)
  match indexOf db repositoryId source.id request.mode with
  | none => .error (.app Answers.searchRequired)
  | some index =>
    check limit
    let terms := env.queryTerms request.query
    let channels := [("lexical", Retrieval.lexical env db index.id terms),
      ("symbol", Retrieval.symbols env db index.id terms)]
    match request.mode with
    | .keyword => assemble env settings request source index channels 0 later
    | .hybrid =>
      let (vector, usage) ← semantic env settings provider embed request.query index later
      assemble env settings request source index (channels ++ [("vector", vector)]) usage later

/-- A timeout becomes an error of the application. -/
def timed : Raised → Raised
  | .timeout => .app ⟨"retrieval_timeout", "Search timed out. Retry or use keyword search.", 503⟩
  | e => e

/-- `SearchService.search`. -/
def search (env : Env) (settings : Settings) (provider : Option EmbeddingProvider)
    (embed : List (List Nat) → Except Raised EmbeddingBatch) (userId repositoryId : Uuid) (request : SearchRequest)
    (limit : Option AppError) (db later : Db) : Except Raised Retrieved :=
  (search' env settings provider embed userId repositoryId request limit db later).mapError timed

end SearchService

/-! ### Conversations -/

namespace ConversationService

/-- `ConversationStore.list_owned`. -/
def listOwned (t : Tables) (userId repositoryId : Uuid) : List Conversation :=
  ((t.conversations.filter fun c => c.userId = userId ∧ c.repositoryId = repositoryId).insertionSort fun a b =>
    b.updatedAt < a.updatedAt ∨ a.updatedAt = b.updatedAt ∧ b.id ≤ a.id).take 100

def list (db : Db) (t : Tables) (userId repositoryId : Uuid) : Except AppError (List ConversationResponse) := do
  let _ ← db.owned userId repositoryId
  .ok ((listOwned t userId repositoryId).map ConversationResponse.validate)

def detail (db : Db) (t : Tables) (userId conversationId : Uuid) : Except AppError ConversationResponse := do
  let c ← t.owned db userId conversationId
  .ok (ConversationResponse.validate c)

def messages (db : Db) (t : Tables) (userId conversationId : Uuid) (before : Option Nat) :
    Except AppError MessagePage := do
  let _ ← t.owned db userId conversationId
  let (rows, cursor) := t.messagePage conversationId before
  .ok ⟨rows.map MessageResponse.validate, cursor⟩

end ConversationService

/-! ### Runs -/

namespace RunService

/-- `RunStore.recent`. -/
def recent (t : Tables) (conversationId : Uuid) : List AnswerRun :=
  ((t.runs.filter (·.conversationId = conversationId)).insertionSort fun a b =>
    b.createdAt < a.createdAt ∨ a.createdAt = b.createdAt ∧ b.id ≤ a.id).take 20

def list (db : Db) (t : Tables) (userId conversationId : Uuid) : Except AppError (List RunResponse) := do
  let _ ← t.owned db userId conversationId
  .ok ((recent t conversationId).map RunResponse.validate)

def get (db : Db) (t : Tables) (userId runId : Uuid) : Except AppError RunResponse := do
  let run ← t.ownedRun db userId runId
  .ok (RunResponse.validate run)

def usage (db : Db) (t : Tables) (userId runId : Uuid) : Except AppError RunUsage := do
  let run ← t.ownedRun db userId runId
  let rows := (t.receipts.filter (·.runId = runId)).insertionSort fun a b =>
    a.startedAt < b.startedAt ∨ a.startedAt = b.startedAt ∧ a.id ≤ b.id
  .ok
    { tracked := run.receiptVersion = 1
      items := rows.map ReceiptResponse.validate
      knownCostUsd := (rows.map fun r => r.estimatedCostUsd.getD 0).sum
      unknownCalls := (rows.filter (·.inputTokens = none)).length }

end RunService

/-! ### Any reading request -/

/-- What a request meets besides the stored data. -/
structure Host where
  settings : Settings
  provider : Option EmbeddingProvider
  embed : List (List Nat) → Except Raised EmbeddingBatch
  limit : Option AppError

inductive Query
  | repositories
  | repository (repositoryId : Uuid)
  | files (repositoryId : Uuid) (offset limit : Nat)
  | content (repositoryId fileId : Uuid)
  | indexState (repositoryId : Uuid)
  | indexedFile (repositoryId fileId : Uuid) (symbolOffset chunkOffset : Nat)
  | searchState (repositoryId : Uuid)
  | search (repositoryId : Uuid) (request : SearchRequest)
  | conversations (repositoryId : Uuid)
  | conversation (conversationId : Uuid)
  | messages (conversationId : Uuid) (before : Option Nat)
  | runs (conversationId : Uuid)
  | run (runId : Uuid)
  | usage (runId : Uuid)

inductive Response
  | repositories (items : List RepositoryResponse)
  | repository (item : RepositoryResponse)
  | files (page : FilePage)
  | content (file : FileContentResponse)
  | indexState (state : IndexState)
  | indexedFile (page : IndexedFilePage)
  | searchState (state : SearchState)
  | search (found : Retrieved)
  | conversations (items : List ConversationResponse)
  | conversation (item : ConversationResponse)
  | messages (page : MessagePage)
  | runs (items : List RunResponse)
  | run (item : RunResponse)
  | usage (usage : RunUsage)

/-- The response to a request of the user; `later` is what is stored when a search reads again. -/
def Query.answer (env : Env) (h : Host) (userId : Uuid) (db : Db) (t : Tables) (later : Db) :
    Query → Except Raised Response
  | .repositories => .ok (.repositories (RepositoryService.list db userId))
  | .repository rid => (lift (RepositoryService.get db userId rid)).map .repository
  | .files rid offset limit => (lift (RepositoryService.files db userId rid offset limit)).map .files
  | .content rid fid => (lift (RepositoryService.content db userId rid fid)).map .content
  | .indexState rid => (lift (IndexService.state db userId rid)).map .indexState
  | .indexedFile rid fid symbolOffset chunkOffset =>
    (lift (IndexService.file db userId rid fid symbolOffset chunkOffset)).map .indexedFile
  | .searchState rid => (lift (PreparationService.state h.settings db userId rid)).map .searchState
  | .search rid request =>
    (SearchService.search env h.settings h.provider h.embed userId rid request h.limit db later).map .search
  | .conversations rid => (lift (ConversationService.list db t userId rid)).map .conversations
  | .conversation cid => (lift (ConversationService.detail db t userId cid)).map .conversation
  | .messages cid before => (lift (ConversationService.messages db t userId cid before)).map .messages
  | .runs cid => (lift (RunService.list db t userId cid)).map .runs
  | .run runId => (lift (RunService.get db t userId runId)).map .run
  | .usage runId => (lift (RunService.usage db t userId runId)).map .usage

end RepoPilot
