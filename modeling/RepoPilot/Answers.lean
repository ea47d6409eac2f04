import RepoPilot.Conversations

/-! # Answering a question

`AnswerService.answer` with `SearchService.search` inside it, as a process: one step is one database
statement, one provider call, one block of streamed output, or the local computation between two of
those. Its inputs are what the rest of the world decides: the rate limiter, the providers, and the
errors any of them may raise. -/

namespace RepoPilot
open Generation

/-- One call of `AnswerService.answer`; `run` names the run and the lease token under which receipts and
previews are written, `model` the model of the answer provider. -/
structure Call where
  settings : Settings
  embedder : Option EmbeddingProvider
  model : Option Text
  streaming : Bool
  userId : Uuid
  repositoryId : Uuid
  request : AnswerRequest
  expectedSourceId : Option Uuid
  history : List HistoryTurn
  answerId : Uuid
  run : Option (Uuid × Uuid)

namespace Answers

/-- What a search has settled before it selects candidates. -/
structure Plan where
  query : Text
  sourceId : Uuid
  commitSha : Text
  indexId : Uuid
  profile : Text

/-- `PreviewWriter`: the output so far, the last preview written and when. -/
structure Preview where
  raw : Text
  previous : Text
  writtenAt : Option Time

def Preview.empty : Preview := ⟨[], [], none⟩

inductive Pc
  | authorize
  | source (query : Text)
  | index (query : Text) (importId : Uuid)
  | active (query : Text) (source : RepositoryIndex)
  | fallback (query : Text) (source : RepositoryIndex)
  | quota (plan : Plan)
  | lexical (plan : Plan)
  | symbols (plan : Plan) (lexical : List Uuid)
  | beginEmbedding (plan : Plan) (channels : List (String × List Uuid)) (embedder : EmbeddingProvider)
  | embed (plan : Plan) (channels : List (String × List Uuid)) (embedder : EmbeddingProvider)
      (receipt : Option Uuid)
  | embedding (plan : Plan) (channels : List (String × List Uuid)) (embedder : EmbeddingProvider)
      (receipt : Option Uuid)
  | finishEmbedding (plan : Plan) (channels : List (String × List Uuid)) (embedder : EmbeddingProvider)
      (receipt : Option Uuid) (response : EmbeddingBatch)
  | vector (plan : Plan) (channels : List (String × List Uuid)) (query : Vector) (usage : Nat)
  | load (plan : Plan) (channels : List (String × List Uuid)) (usage : Nat)
  | beginGeneration (retrieved : Retrieved) (payload : Text) (included : List HistoryTurn) (model : Text)
  | generate (retrieved : Retrieved) (payload : Text) (included : List HistoryTurn) (receipt : Option Uuid)
  | generating (retrieved : Retrieved) (included : List HistoryTurn) (receipt : Option Uuid) (preview : Preview)
  | finishGeneration (retrieved : Retrieved) (included : List HistoryTurn) (receipt : Option Uuid)
      (result : GenerationResult)
  | recordUsage (receipt : Option Uuid) (inputTokens outputTokens : Int) (error : Raised)
  | answered (answer : AnswerResponse)
  | raised (error : Raised)

inductive Input
  | go
  | limited (limit : Option AppError)
  | receipt (id : Uuid)
  | embedded (response : EmbeddingBatch)
  | delta (text : Text) (at_ : Time)
  | generated (raw : Generated)
  | usageError (error : AppError) (inputTokens outputTokens : Int)
  | raised (error : Raised)

/-! ### Errors -/

def answersDisabled : AppError :=
  ⟨"answers_disabled", "AI answers are disabled in server configuration.", 409⟩

def searchRequired : AppError :=
  ⟨"search_required", "Prepare the selected search mode for this source index first.", 409⟩

def modelInvalid : AppError := ⟨"model_invalid", "Model output failed validation.", 502⟩

/-- A timeout inside `search`. -/
def searchRaise : Raised → Pc
  | .timeout => .raised (.app ⟨"retrieval_timeout", "Search timed out. Retry or use keyword search.", 503⟩)
  | e => .raised e

/-- A timeout outside `search`. -/
def answerRaise : Raised → Pc
  | .timeout => .raised (.app ⟨"answer_timeout", "Answer request timed out. Retry later.", 503⟩)
  | e => .raised e

/-- The process is inside `search`. -/
def Searching : Pc → Prop
  | .source _ | .index _ _ | .active _ _ | .fallback _ _ | .quota _ | .lexical _ | .symbols _ _
  | .beginEmbedding _ _ _ | .embed _ _ _ _ | .embedding _ _ _ _ | .finishEmbedding _ _ _ _ _ | .vector _ _ _ _
  | .load _ _ _ => True
  | _ => False

instance (pc : Pc) : Decidable (Searching pc) := by
  cases pc <;> first | exact .isTrue trivial | exact .isFalse id

/-! ### Steps -/

variable (env : Env)

/-- Authorization, configuration and quota; then the search request is validated. -/
def authorize (c : Call) (limit : Option AppError) (db : Db) : Pc :=
  match db.owned c.userId c.repositoryId with
  | .error e => .raised (.app e)
  | .ok _ =>
    if c.settings.answersEnabled = false ∨ c.model = none then .raised (.app answersDisabled)
    else
      match limit with
      | some e => .raised (.app e)
      | none =>
        match usable env (retrievalQuestion c.request.question c.history) with
        | none => .raised (.app modelInvalid)
        | some query => .source query

def planOf (query : Text) (source : RepositoryIndex) (index : SearchIndex) : Plan :=
  ⟨query, source.id, source.data.commitSha, index.id, index.data.providerProfile⟩

/-- After the candidates of both lexical channels were read. -/
def candidates (c : Call) (plan : Plan) (channels : List (String × List Uuid)) : Pc :=
  match c.request.mode with
  | .keyword => .load plan channels 0
  | .hybrid =>
    match c.embedder with
    | none =>
      .raised (.app ⟨"embeddings_disabled", "Semantic search is disabled. Choose keyword search.", 409⟩)
    | some p =>
      if c.settings.embeddingsEnabled = false then
        .raised (.app ⟨"embeddings_disabled", "Semantic search is disabled. Choose keyword search.", 409⟩)
      else if p.profile ≠ plan.profile then
        .raised (.app ⟨"embedding_profile_mismatch", "Rebuild search with the configured embedding profile.", 409⟩)
      else .beginEmbedding plan channels p

def partsTokens (parts : List (List Nat)) : Nat := (parts.map List.length).sum

/-- The provider's answer to the query. -/
def embedded (plan : Plan) (channels : List (String × List Uuid)) (embedder : EmbeddingProvider)
    (response : EmbeddingBatch) : Pc :=
  let parts := embedder.tokenize plan.query
  if response.vectors.length ≠ parts.length ∨ response.inputTokens ≠ partsTokens parts then
    .raised (.app ⟨"embedding_invalid", "Query embedding did not match its input.", 502⟩)
  else
    match env.aggregate response.vectors (parts.map List.length) with
    | .error e => searchRaise e
    | .ok query => .vector plan channels query (partsTokens parts)

def retrievedOf (c : Call) (plan : Plan) (found : List SearchHit) (usage : Nat) : Retrieved :=
  let built := Retrieval.buildContext env found plan.commitSha 6000
  { searchIndexId := plan.indexId
    sourceIndexId := plan.sourceId
    commitSha := plan.commitSha
    mode := c.request.mode
    pipelineVersion := searchVersion
    providerProfile := plan.profile
    results := found
    context := built.1
    contextTokens := built.2
    contextOmitted := found.length - built.1.length
    queryTokens := usage
    estimatedQueryCostUsd := usage * c.settings.embeddingPrice / 1000000 }

def respondWith (c : Call) (retrieved : Retrieved) (result : Option GenerationResult)
    (included : List HistoryTurn) : Pc :=
  match respond env c.settings c.answerId retrieved result c.history included with
  | none => .raised (.app modelInvalid)
  | some answer => .answered answer

/-- After the search: the source must be the pinned one, and there must be something to show a model. -/
def retrieve (c : Call) (retrieved : Retrieved) : Pc :=
  if ∃ e ∈ c.expectedSourceId, retrieved.sourceIndexId ≠ e then
    .raised (.app ⟨"answer_source_changed", "The source index changed after submission. Submit a new run.", 409⟩)
  else if retrieved.context = [] then respondWith env c retrieved none []
  else
    match c.model, buildContext env c.request.question retrieved.context c.history with
    | none, _ => .raised (.app answersDisabled)
    | _, .error e => .raised (.app e)
    | some model, .ok (payload, included) => .beginGeneration retrieved payload included model

/-- Load the ranked chunks and build the context. -/
def load (c : Call) (plan : Plan) (channels : List (String × List Uuid)) (usage : Nat) (db : Db) : Pc :=
  let chunks := db.sourceChunks plan.sourceId (some (Retrieval.candidateIds channels))
  match Retrieval.hits chunks (Retrieval.fuse channels 8 (chunks.map Retrieval.place)) with
  | none => .raised (.app ⟨"search_inconsistent", "Search source changed. Refresh and retry.", 409⟩)
  | some found => retrieve env c (retrievedOf env c plan found usage)

/-- The end of `_answer` for a validated result. -/
def conclude (c : Call) (retrieved : Retrieved) (included : List HistoryTurn) (result : GenerationResult) : Pc :=
  match result.draft with
  | none => respondWith env c retrieved (some result) included
  | some draft =>
    match validateCitations draft retrieved.context with
    | .error e => .raised (.app e)
    | .ok _ => respondWith env c retrieved (some result) included

/-- The run still accepts previews. -/
def AcceptsPreview (now : Time) (runId token : Uuid) (run : AnswerRun) : Prop :=
  Tables.Held now runId token run ∧ run.previewRevision < 256

instance (now : Time) (runId token : Uuid) : DecidablePred (AcceptsPreview now runId token) := fun run =>
  inferInstanceAs (Decidable (Tables.Held now runId token run ∧ run.previewRevision < 256))

def previewed (text : Text) (run : AnswerRun) : AnswerRun :=
  { run with previewText := text, previewRevision := run.previewRevision + 1 }

/-- `PreviewWriter.delta`. -/
def delta (now : Time) (runId token : Uuid) (value : Text) (clock : Time) (p : Preview) (t : Tables) :
    Except AppError (Preview × Tables) :=
  let raw := p.raw ++ value
  if 64 * 1024 < Source.utf8Length raw then
    .error ⟨"model_invalid", "Model output exceeds the stream limit.", 502⟩
  else if ∃ w ∈ p.writtenAt, clock - w < 250000 then .ok ({ p with raw := raw }, t)
  else
    let text := previewText env raw
    if text = p.previous then .ok ({ p with raw := raw }, t)
    else if ∃ run ∈ t.runs, AcceptsPreview now runId token run then
      .ok (⟨raw, text, some clock⟩,
        { t with runs := Table.update (AcceptsPreview now runId token) (previewed text) t.runs })
    else .error ⟨"answer_stopped", "The answer run no longer accepts streamed output.", 409⟩

/-- Commit a receipt before a call, when the call belongs to a run. -/
def beginReceipt (now : Time) (c : Call) (input : Input) (kind : ReceiptKind) (model : Text)
    (inputRate outputRate : ℚ) (t : Tables) : Option (Except Raised (Option Uuid × Tables)) :=
  match c.run, input with
  | none, .go => some (.ok (none, t))
  | some (runId, token), .receipt id =>
    some ((t.begin now runId token id kind model inputRate outputRate).map (some id, ·))
  | _, _ => none

/-- Finish a receipt after a call, when there is one. -/
def finishReceipt (now : Time) (receipt : Option Uuid) (inputTokens outputTokens : Int) (t : Tables) :
    Except Raised Tables :=
  match receipt with
  | none => .ok t
  | some id => t.finish now id inputTokens outputTokens

/-- One step of `AnswerService.answer`. -/
def step (now : Time) (c : Call) (input : Input) (pc : Pc) (db : Db) (t : Tables) : Pc × Tables :=
  match pc, input with
  | .answered _, _ | .raised _, _ => (pc, t)
  | .authorize, .limited limit => (authorize env c limit db, t)
  | .source query, .go =>
    match db.owned c.userId c.repositoryId with
    | .error e => (.raised (.app e), t)
    | .ok (_, imported) => (.index query imported.id, t)
  | .index query importId, .go =>
    match db.activeIndex c.repositoryId importId with
    | none => (.raised (.app ⟨"index_required", "Build the static source index first.", 409⟩), t)
    | some source => (.active query source, t)
  | .active query source, .go =>
    match db.activeSearch c.repositoryId source.id c.request.mode with
    | some index => (.quota (planOf query source index), t)
    | none =>
      (match c.request.mode with
        | .keyword => .fallback query source
        | .hybrid => .raised (.app searchRequired), t)
  | .fallback query source, .go =>
    match db.activeSearch c.repositoryId source.id .hybrid with
    | some index => (.quota (planOf query source index), t)
    | none => (.raised (.app searchRequired), t)
  | .quota plan, .limited limit =>
    (match limit with
      | some e => .raised (.app e)
      | none => .lexical plan, t)
  | .lexical plan, .go => (.symbols plan (Retrieval.lexical env db plan.indexId (env.queryTerms plan.query)), t)
  | .symbols plan lexical, .go =>
    (candidates c plan [("lexical", lexical),
      ("symbol", Retrieval.symbols env db plan.indexId (env.queryTerms plan.query))], t)
  | .embed plan channels p receipt, .go => (.embedding plan channels p receipt, t)
  | .embedding plan channels p receipt, .embedded response => (.finishEmbedding plan channels p receipt response, t)
  | .embedding _ _ _ receipt, .usageError e i o => (.recordUsage receipt i o (.app e), t)
  | .finishEmbedding plan channels p receipt response, .go =>
    match finishReceipt now receipt response.inputTokens 0 t with
    | .error e => (searchRaise e, t)
    | .ok t' => (embedded env plan channels p response, t')
  | .vector plan channels query usage, .go =>
    (.load plan (channels ++ [("vector", Retrieval.vector env db plan.indexId query)]) usage, t)
  | .load plan channels usage, .go => (load env c plan channels usage db, t)
  | .generate retrieved _ included receipt, .go => (.generating retrieved included receipt .empty, t)
  | .generating retrieved included receipt p, .delta value clock =>
    match c.run with
    | none => (pc, t)
    | some (runId, token) =>
      if c.streaming = false then (pc, t)
      else
        match delta env now runId token value clock p t with
        | .error e => (.raised (.app e), t)
        | .ok (p', t') => (.generating retrieved included receipt p', t')
  | .generating retrieved included receipt _, .generated raw =>
    match GenerationResult.validate raw with
    | none => (.raised (.app modelInvalid), t)
    | some result => (.finishGeneration retrieved included receipt result, t)
  | .generating _ _ receipt _, .usageError e i o => (.recordUsage receipt i o (.app e), t)
  | .finishGeneration retrieved included receipt result, .go =>
    match finishReceipt now receipt result.inputTokens result.outputTokens t with
    | .error e => (answerRaise e, t)
    | .ok t' => (conclude env c retrieved included result, t')
  | .recordUsage receipt i o e, .go =>
    match finishReceipt now receipt i o t with
    | .error e' => (answerRaise e', t)
    | .ok t' => (.raised e, t')
  | pc, .raised e => (if Searching pc then searchRaise e else answerRaise e, t)
  | .beginEmbedding plan channels p, input =>
    match beginReceipt now c input .queryEmbedding p.profile c.settings.embeddingPrice 0 t with
    | none => (pc, t)
    | some (.error e) => (searchRaise e, t)
    | some (.ok (receipt, t')) => (.embed plan channels p receipt, t')
  | .beginGeneration retrieved payload included model, input =>
    match beginReceipt now c input .generation model c.settings.answerInputPrice c.settings.answerOutputPrice t with
    | none => (pc, t)
    | some (.error e) => (answerRaise e, t)
    | some (.ok (receipt, t')) => (.generate retrieved payload included receipt, t')
  | _, _ => (pc, t)

/-- The provider call a step makes. -/
def providerCall (pc : Pc) (input : Input) : Option ReceiptKind :=
  match pc, input with
  | .embed _ _ _ _, .go => some .queryEmbedding
  | .generate _ _ _ _, .go => some .generation
  | _, _ => none

end Answers
end RepoPilot
