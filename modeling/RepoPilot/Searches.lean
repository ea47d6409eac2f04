import RepoPilot.Database

/-! # Preparing search

`start` and `cancel` of `PreparationService`, and the preparation worker with its token reservations
and its durable batches. As for indexes, a request runs under the lock of the repository row and
rewrites only a row in a terminal status, so it is one transaction. -/

namespace RepoPilot

/-- The settings the modelled code reads. -/
structure Settings where
  answersEnabled : Bool
  answerModel : Text
  answerMaxOutputTokens : Nat
  answerInputPrice : ℚ
  answerOutputPrice : ℚ
  embeddingsEnabled : Bool
  embeddingTokenBudget : Nat
  embeddingPrice : ℚ

/-- `embeddings.provider.EmbeddingBatch`. -/
structure EmbeddingBatch where
  vectors : List Vector
  inputTokens : Int

namespace Searches

/-! ### Requests -/

/-- `PreparationService.source`. -/
def source (db : Db) (userId repositoryId : Uuid) : Except AppError RepositoryIndex :=
  match db.owned userId repositoryId with
  | .error e => .error e
  | .ok (_, imported) =>
    match db.activeIndex repositoryId imported.id with
    | none => .error ⟨"index_required", "Build the static source index first.", 409⟩
    | some index => .ok index

/-- `SearchState`, as far as submission reads it. -/
structure State where
  latest : Option SearchIndex
  keyword : Option SearchIndex
  hybrid : Option SearchIndex

/-- `PreparationService.state`. -/
def state (db : Db) (userId repositoryId : Uuid) : Except AppError State := do
  let source ← source db userId repositoryId
  let hybrid := db.activeSearch repositoryId source.id .hybrid
  .ok ⟨db.latestSearch repositoryId, (db.activeSearch repositoryId source.id .keyword).or hybrid, hybrid⟩

def profileOf : Mode → Text
  | .hybrid => embeddingProfile
  | .keyword => "none".toList

/-- An explicit retry keeps the batches and reservations and may raise the budget. -/
def resumed (now : Time) (budget : Nat) (s : SearchIndex) : SearchIndex :=
  { s with
    status := .queued
    stage := "queued"
    attempts := 0
    errorCode := none
    errorMessage := none
    leaseToken := none
    leaseExpiresAt := none
    finishedAt := none
    lastDispatchedAt := none
    availableAt := now
    data := { s.data with tokenBudget := max s.data.tokenBudget budget } }

/-- The job `latest` prepares what is asked for now. -/
def Matches (sourceId : Uuid) (mode : Mode) (s : SearchIndex) : Prop :=
  s.data.sourceIndexId = sourceId ∧ s.data.mode = mode ∧ s.data.providerProfile = profileOf mode ∧
    s.data.pipelineVersion = searchVersion

instance (sourceId : Uuid) (mode : Mode) : DecidablePred (Matches sourceId mode) := fun s =>
  inferInstanceAs (Decidable (s.data.sourceIndexId = sourceId ∧ s.data.mode = mode ∧
    s.data.providerProfile = profileOf mode ∧ s.data.pipelineVersion = searchVersion))

def fresh (settings : Settings) (source : RepositoryIndex) (mode : Mode) : SearchData :=
  { sourceIndexId := source.id
    commitSha := source.data.commitSha
    pipelineVersion := searchVersion
    mode := mode
    providerProfile := profileOf mode
    documentsStored := 0
    reservedTokens := 0
    inputTokens := 0
    tokenBudget := settings.embeddingTokenBudget
    pricePerMillion := if mode = .hybrid then settings.embeddingPrice else 0 }

/-- `PreparationService.start`; the flag says whether a job was created or resumed. -/
def start (now : Time) (settings : Settings) (userId repositoryId : Uuid) (mode : Mode)
    (limit : Option AppError) (newId : Uuid) (db : Db) : Except Raised (Db × SearchIndex × Bool) := do
  let source ← lift (source db userId repositoryId)
  refuse (mode = .hybrid ∧ settings.embeddingsEnabled = false)
    ⟨"embeddings_disabled", "Enable embeddings in server configuration to prepare semantic search.", 409⟩
  let latest := db.latestSearch repositoryId
  refuse (∃ l ∈ latest, l.status.Active) ⟨"search_active", "Search preparation is already active.", 409⟩
  match (db.activeSearch repositoryId source.id mode).filter (·.data.providerProfile = profileOf mode) with
  | some existing => .ok (db, existing, false)
  | none =>
    check limit
    match latest.filter (Matches source.id mode ·) with
    | some l =>
      let job := resumed now settings.embeddingTokenBudget l
      .ok ({ db with searches := Table.update (·.id = l.id) (resumed now settings.embeddingTokenBudget) db.searches },
        job, true)
    | none =>
      let job : SearchIndex := Job.new newId repositoryId now (fresh settings source mode)
      let superseded := Table.update (fun s => ∃ l ∈ latest, s.id = l.id) Job.superseded db.searches
      match Job.insert superseded job with
      | none => .error .other
      | some searches => .ok ({ db with searches := searches }, job, true)

def CancelWhere (repositoryId : Uuid) (s : SearchIndex) : Prop :=
  s.repositoryId = repositoryId ∧ s.isCurrent = true ∧ s.status.Active

instance (repositoryId : Uuid) : DecidablePred (CancelWhere repositoryId) := fun s =>
  inferInstanceAs (Decidable (s.repositoryId = repositoryId ∧ s.isCurrent = true ∧ s.status.Active))

/-- `PreparationService.cancel`. -/
def cancel (now : Time) (userId repositoryId : Uuid) (db : Db) : Except Raised Db := do
  let _ ← lift (db.owned userId repositoryId)
  refuse (¬ ∃ s ∈ db.searches, CancelWhere repositoryId s)
    ⟨"search_inactive", "No active search preparation to cancel.", 409⟩
  .ok { db with searches := Table.update (CancelWhere repositoryId) (Job.cancelled now) db.searches }

/-! ### Writes of the worker -/

def addReserved (tokens : Nat) (s : SearchIndex) : SearchIndex :=
  { s with data := { s.data with reservedTokens := s.data.reservedTokens + tokens } }

def Affordable (tokens : Nat) (s : SearchIndex) : Prop :=
  s.data.reservedTokens + tokens ≤ s.data.tokenBudget

instance (tokens : Nat) : DecidablePred (Affordable tokens) := fun s =>
  inferInstanceAs (Decidable (s.data.reservedTokens + tokens ≤ s.data.tokenBudget))

/-- `reserve`. -/
def reserve (now : Time) (claim : Claim) (tokens : Nat) (db : Db) : Option Db :=
  (Job.fencedIf now claim (Affordable tokens) (addReserved tokens) db.searches).map fun searches =>
    { db with searches := searches }

def addStored (count usage : Nat) (s : SearchIndex) : SearchIndex :=
  { s with data := { s.data with
      documentsStored := s.data.documentsStored + count
      inputTokens := s.data.inputTokens + usage } }

/-- `checkpoint`. -/
def checkpoint (now : Time) (claim : Claim) (documents : List SearchDocument) (usage : Nat) (db : Db) :
    Option Db :=
  (Job.fenced now claim (addStored documents.length usage) db.searches).map fun searches =>
    { db with searches := searches, documents := db.documents ++ documents }

def complete (now : Time) (claim : Claim) (db : Db) : Option Db :=
  (Job.fenced now claim (Job.finished now id) db.searches).map fun searches => { db with searches := searches }

def recordFailure (now : Time) (claim : Claim) (code message : String) (db : Db) : Db :=
  { db with searches := (Job.fenced now claim (Job.failedWith now code message) db.searches).getD db.searches }

/-! ### The worker -/

/-- `retrieval.text.embedding_text`. -/
def embeddingText (c : Db.SourceChunk) : Text :=
  "File: ".toList ++ c.path ++ "\nSymbol: ".toList ++
    (match c.name with | some n => if n = [] then "(module)".toList else n | none => "(module)".toList) ++
    "\nSignature: ".toList ++ c.signature.getD [] ++ "\nCode:\n".toList ++ c.content

def tokenCount (parts : List (List Nat)) : Nat := (parts.map List.length).sum

/-- What the worker keeps of its first transaction. -/
structure Plan where
  mode : Mode
  sourceIndexId : Uuid
  provider : Option EmbeddingProvider

variable (env : Env)

def Plan.tokenizer (plan : Plan) : Text → List (List Nat) :=
  match plan.mode, plan.provider with
  | .hybrid, some provider => provider.tokenize
  | _, _ => env.tokenParts

def Plan.parts (plan : Plan) (c : Db.SourceChunk) : List (List Nat) := plan.tokenizer env (embeddingText c)

def Plan.tokens (plan : Plan) (cs : List Db.SourceChunk) : Nat :=
  (cs.map fun c => tokenCount (plan.parts env c)).sum

/-- Split a batch's vectors among its documents and aggregate each share. -/
def aggregateAll : List Vector → List (List (List Nat)) → Except Raised (List (Option Vector))
  | _, [] => .ok []
  | vectors, parts :: rest => do
    let vector ← env.aggregate (vectors.take parts.length) (parts.map List.length)
    let vectors ← aggregateAll (vectors.drop parts.length) rest
    .ok (some vector :: vectors)

def document (plan : Plan) (claim : Claim) (c : Db.SourceChunk) (vector : Option Vector) : SearchDocument :=
  { searchIndexId := claim.jobId
    sourceIndexId := plan.sourceIndexId
    chunkId := c.id
    searchText := env.lexicalText (embeddingText c)
    inputHash := env.sha256 (embeddingText c)
    tokenCount := tokenCount (plan.parts env c)
    embedding := vector }

inductive Pc
  | load
  | reporting (plan : Plan) (pending : List Db.SourceChunk)
  | batch (plan : Plan) (pending : List Db.SourceChunk)
  | reserve (plan : Plan) (pending : List Db.SourceChunk)
  | embed (plan : Plan) (pending : List Db.SourceChunk)
  | embedding (plan : Plan) (pending : List Db.SourceChunk)
  | checkpoint (plan : Plan) (pending : List Db.SourceChunk) (vectors : List (Option Vector)) (usage : Nat)
  | complete (plan : Plan)
  | failing (code message : String)
  | done

/-- A delivery whose claim succeeded, with the embedding provider of its process. -/
structure Worker where
  claim : Claim
  provider : Option EmbeddingProvider
  pc : Pc

inductive Input
  | go
  | embedded (batch : EmbeddingBatch)
  | raised (e : Raised)

/-- The `except` clauses of `run_preparation`. -/
def handler : Raised → Pc
  | .leaseLost => .done
  | .app e => .failing e.code e.message
  | .timeout => .failing "search_timeout" "Search preparation failed. Retry to resume completed batches."
  | .importFailure _ _ _ | .other =>
    .failing "search_preparation_failed" "Search preparation failed. Retry to resume completed batches."

/-- The first transaction and the preflight: what is pending and whether it fits the budget. -/
def load (provider : Option EmbeddingProvider) (claim : Claim) (db : Db) : Pc :=
  match db.searches.find? (·.id = claim.jobId) with
  | none => handler .leaseLost
  | some job =>
    if job.data.pipelineVersion ≠ searchVersion then
      handler (.app ⟨"search_version_mismatch", "Restart workers with the current application image.", 409⟩)
    else if job.data.mode = .hybrid ∧ ¬ ∃ p ∈ provider, p.profile = job.data.providerProfile then
      handler (.app
        ⟨"embedding_configuration", "Enable the matching embedding provider before retrying.", 409⟩)
    else
      let done := (db.documents.filter (·.searchIndexId = claim.jobId)).map (·.chunkId)
      let pending := (db.sourceChunks job.data.sourceIndexId none).filter (·.id ∉ done)
      let plan : Plan := ⟨job.data.mode, job.data.sourceIndexId, provider⟩
      if plan.mode = .hybrid ∧ job.data.tokenBudget < job.data.reservedTokens + plan.tokens env pending then
        handler (.app
          ⟨"embedding_budget_exceeded", "Remaining source exceeds the embedding token budget. Increase the configured budget and retry, or use keyword search.", 409⟩)
      else .reporting plan pending

/-- The chunks of the batch at hand. -/
def head (pending : List Db.SourceChunk) : List Db.SourceChunk := pending.take 8

/-- The provider's answer to a batch. -/
def embedded (plan : Plan) (pending : List Db.SourceChunk) (response : EmbeddingBatch) : Pc :=
  let parts := (head pending).map (plan.parts env)
  if response.vectors.length ≠ parts.flatten.length ∨
      response.inputTokens ≠ plan.tokens env (head pending) then
    handler (.app ⟨"embedding_invalid", "Embedding batch did not match its inputs.", 502⟩)
  else
    match aggregateAll env response.vectors parts with
    | .error e => handler e
    | .ok vectors => .checkpoint plan pending vectors (plan.tokens env (head pending))

/-- Store a batch; a document without tokens violates a check constraint. -/
def store (now : Time) (claim : Claim) (plan : Plan) (pending : List Db.SourceChunk)
    (vectors : List (Option Vector)) (usage : Nat) (db : Db) : Pc × Db :=
  let documents := List.zipWith (document env plan claim) (head pending) vectors
  match checkpoint now claim documents usage db with
  | none => (handler .leaseLost, db)
  | some db' =>
    if ∀ d ∈ documents, 0 < d.tokenCount then (.batch plan (pending.drop 8), db') else (handler .other, db)

/-- One step of `run_preparation` after the claim. -/
def step (now : Time) (claim : Claim) (provider : Option EmbeddingProvider) (input : Input) (pc : Pc)
    (db : Db) : Pc × Db :=
  match pc, input with
  | .load, .go => (load env provider claim db, db)
  | .reporting plan pending, .go =>
    match Job.reportStage now claim (if plan.mode = .hybrid then "embedding" else "lexical") db.searches with
    | some searches => (.batch plan pending, { db with searches := searches })
    | none => (handler .leaseLost, db)
  | .batch plan pending, .go =>
    if pending = [] then (.complete plan, db)
    else match plan.mode, plan.provider with
      | .keyword, _ => (.checkpoint plan pending ((head pending).map fun _ => none) 0, db)
      | .hybrid, none =>
        (handler (.app ⟨"embedding_configuration", "Embedding provider is disabled.", 409⟩), db)
      | .hybrid, some _ => (.reserve plan pending, db)
  | .reserve plan pending, .go =>
    match reserve now claim (plan.tokens env (head pending)) db with
    | some db' => (.embed plan pending, db')
    | none => (handler (.app ⟨"embedding_budget_exceeded", "Embedding budget exhausted or job cancelled. Review usage and the configured budget before retrying.", 409⟩), db)
  | .embed plan pending, .go => (.embedding plan pending, db)
  | .embedding plan pending, .embedded response => (embedded env plan pending response, db)
  | .checkpoint plan pending vectors usage, .go => store env now claim plan pending vectors usage db
  | .complete _, .go =>
    match complete now claim db with
    | some db' => (.done, db')
    | none => (handler .leaseLost, db)
  | .failing code message, .go => (.done, recordFailure now claim code message db)
  | .done, _ | .failing _ _, _ => (pc, db)
  | _, .raised e => (handler e, db)
  | _, _ => (pc, db)

/-- The tokens a step passes to `provider.embed`. -/
def embedCall (pc : Pc) (input : Input) : Option Nat :=
  match pc, input with
  | .embed plan pending, .go => some (plan.tokens env (head pending))
  | _, _ => none

end Searches
end RepoPilot
