import RepoPilot.Retrieval

/-! # Grounded answers

Bounded dialogue history, the prompt payload, the contract of the model's output, the citation check
and the provisional preview. A value of a validated type carries what its validation checked. -/

namespace RepoPilot

/-! ### Text -/

/-- `str.isspace` of one character. -/
def IsSpace (c : Char) : Prop :=
  9 ≤ c.toNat ∧ c.toNat ≤ 13 ∨ 28 ≤ c.toNat ∧ c.toNat ≤ 32 ∨ 8192 ≤ c.toNat ∧ c.toNat ≤ 8202 ∨
    c.toNat ∈ [133, 160, 5760, 8232, 8233, 8239, 8287, 12288]

instance : DecidablePred IsSpace := fun c =>
  inferInstanceAs (Decidable (9 ≤ c.toNat ∧ c.toNat ≤ 13 ∨ 28 ≤ c.toNat ∧ c.toNat ≤ 32 ∨
    8192 ≤ c.toNat ∧ c.toNat ≤ 8202 ∨ c.toNat ∈ [133, 160, 5760, 8232, 8233, 8239, 8287, 12288]))

/-- `str.strip`. -/
def strip (s : Text) : Text := ((s.dropWhile (IsSpace ·)).reverse.dropWhile (IsSpace ·)).reverse

/-! ### Requests -/

/-- `AnswerRequest`: the question is stripped after it was checked. -/
structure AnswerRequest where
  question : Text
  mode : Mode
  deriving DecidableEq

/-- The check of `AnswerRequest.question` and `SearchRequest.query`, and the stripped text. -/
def usable (env : Env) (text : Text) : Option Text :=
  if 1 ≤ text.length ∧ text.length ≤ 512 ∧ env.queryTerms text ≠ [] then some (strip text) else none

def AnswerRequest.validate (env : Env) (question : Text) (mode : Mode) : Option AnswerRequest :=
  (usable env question).map (⟨·, mode⟩)

theorem AnswerRequest.validate_mode {env : Env} {question : Text} {mode : Mode} {request : AnswerRequest}
    (h : AnswerRequest.validate env question mode = some request) : request.mode = mode := by
  obtain ⟨text, -, rfl⟩ := Option.map_eq_some_iff.1 h
  rfl

/-! ### History -/

structure HistoryTurn where
  turnId : Uuid
  question : Text
  answer : Text
  questionLength : 1 ≤ question.length ∧ question.length ≤ 512
  answerLength : 1 ≤ answer.length ∧ answer.length ≤ 8000
  deriving DecidableEq

/-- `HistoryTurn(…)`; `none` is a validation error. -/
def HistoryTurn.validate (turnId : Uuid) (question answer : Text) : Option HistoryTurn :=
  if h : (1 ≤ question.length ∧ question.length ≤ 512) ∧ 1 ≤ answer.length ∧ answer.length ≤ 8000 then
    some ⟨turnId, question, answer, h.1, h.2⟩
  else none

namespace Generation
variable (env : Env)

/-- `HISTORY_POLICY`. -/
def historyPolicy : String := "recent-pairs-v1"

/-- `PROMPT_VERSION`. -/
def promptVersion : String := "grounded-v2"

/-- `PROMPT_HASH`. -/
def promptHash : Text := env.sha256 env.instructions

def turnDump (turn : HistoryTurn) : Json :=
  .obj [("turn_id".toList, .str (Json.uuidText turn.turnId)), ("question".toList, .str turn.question),
    ("answer".toList, .str turn.answer)]

def historyJson (turns : List HistoryTurn) : Text := Json.dumps .pythonUnicode (.arr (turns.map turnDump))

def historyTokens (turns : List HistoryTurn) : Nat := if turns = [] then 0 else env.countTokens (historyJson turns)

/-- Drop the oldest turns until the rest fits. -/
def fit : List HistoryTurn → List HistoryTurn
  | [] => []
  | t :: ts =>
    if 1000 < historyTokens env (t :: ts) ∨ 8192 < Source.utf8Length (historyJson (t :: ts)) then fit ts
    else t :: ts

/-- `bounded_history`. -/
def boundedHistory (turns : List HistoryTurn) : List HistoryTurn := fit env (turns.drop (turns.length - 3))

/-- `retrieval_question`. -/
def retrievalQuestion (question : Text) (turns : List HistoryTurn) : Text :=
  match turns.getLast? with
  | none => question
  | some last =>
    if 510 ≤ question.length then question
    else question ++ '\n' :: last.question.take (511 - question.length)

/-! ### The prompt -/

def payload (question : Text) (evidence : List Evidence) (turns : List HistoryTurn) : Text :=
  Json.dumps .pythonUnicode (.obj [("question".toList, .str question),
    ("evidence".toList, .arr (evidence.map Retrieval.Evidence.dump)),
    ("conversation_history".toList, .arr (turns.map turnDump))])

/-- The payload fits the total input bound. -/
def Fits (text : Text) : Prop :=
  Source.utf8Length text ≤ 64 * 1024 ∧ env.countTokens (env.instructions ++ text) ≤ 8000

instance (text : Text) : Decidable (Fits env text) :=
  inferInstanceAs (Decidable (Source.utf8Length text ≤ 64 * 1024 ∧ env.countTokens (env.instructions ++ text) ≤ 8000))

/-- Evidence takes priority over memory: drop the oldest turns until the payload fits. -/
def pack (question : Text) (evidence : List Evidence) : List HistoryTurn → Except AppError (Text × List HistoryTurn)
  | [] =>
    if Fits env (payload question evidence []) then .ok (payload question evidence [], [])
    else .error ⟨"answer_context_limit", "Retrieved context exceeds the answer limit.", 422⟩
  | t :: ts =>
    if Fits env (payload question evidence (t :: ts)) then .ok (payload question evidence (t :: ts), t :: ts)
    else pack question evidence ts

/-- `generation.context.build_context`. -/
def buildContext (question : Text) (evidence : List Evidence) (history : List HistoryTurn) :
    Except AppError (Text × List HistoryTurn) :=
  pack env question evidence (boundedHistory env history)

/-! ### The model's output -/

/-- `generation.contracts.Claim`. -/
structure Claim where
  text : Text
  citationIds : List Text
  textLength : 1 ≤ text.length ∧ text.length ≤ 1800
  citationCount : 1 ≤ citationIds.length ∧ citationIds.length ≤ 8
  deriving DecidableEq

inductive DraftStatus
  | answered | insufficientEvidence
  deriving DecidableEq

structure AnswerDraft where
  status : DraftStatus
  claims : List Claim
  limitation : Text
  claimCount : claims.length ≤ 8
  limitationLength : limitation.length ≤ 1200
  answered : status = .answered ↔ claims ≠ []
  explained : status = .insufficientEvidence → strip limitation ≠ []
  nonblank : ∀ c ∈ claims, strip c.text ≠ []
  deriving DecidableEq

structure GenerationResult where
  model : Text
  draft : Option AnswerDraft
  refused : Bool
  inputTokens : Nat
  outputTokens : Nat
  modelLength : 1 ≤ model.length ∧ model.length ≤ 100
  refusal : refused = true ↔ draft = none
  deriving DecidableEq

/-- A draft as an adapter hands it over. -/
structure RawDraft where
  status : DraftStatus
  claims : List (Text × List Text)
  limitation : Text

/-- What an adapter hands over, before it is validated again. -/
structure Generated where
  model : Text
  draft : Option RawDraft
  refused : Bool
  inputTokens : Int
  outputTokens : Int

def Claim.validate (raw : Text × List Text) : Option Claim :=
  if h : (1 ≤ raw.1.length ∧ raw.1.length ≤ 1800) ∧ 1 ≤ raw.2.length ∧ raw.2.length ≤ 8 then
    some ⟨raw.1, raw.2, h.1, h.2⟩
  else none

def AnswerDraft.validate (raw : RawDraft) : Option AnswerDraft :=
  match raw.claims.mapM Claim.validate with
  | none => none
  | some claims =>
    if h : claims.length ≤ 8 ∧ raw.limitation.length ≤ 1200 ∧ (raw.status = .answered ↔ claims ≠ []) ∧
        (raw.status = .insufficientEvidence → strip raw.limitation ≠ []) ∧ ∀ c ∈ claims, strip c.text ≠ [] then
      some ⟨raw.status, claims, raw.limitation, h.1, h.2.1, h.2.2.1, h.2.2.2.1, h.2.2.2.2⟩
    else none

def GenerationResult.make (raw : Generated) (draft : Option AnswerDraft) : Option GenerationResult :=
  if h : 0 ≤ raw.inputTokens ∧ 0 ≤ raw.outputTokens ∧ (1 ≤ raw.model.length ∧ raw.model.length ≤ 100) ∧
      (raw.refused = true ↔ draft = none) then
    some ⟨raw.model, draft, raw.refused, raw.inputTokens.toNat, raw.outputTokens.toNat, h.2.2.1, h.2.2.2⟩
  else none

/-- `GenerationResult.model_validate`; `none` is a validation error. -/
def GenerationResult.validate (raw : Generated) : Option GenerationResult :=
  match raw.draft with
  | none => GenerationResult.make raw none
  | some d =>
    match AnswerDraft.validate d with
    | none => none
    | some draft => GenerationResult.make raw (some draft)

/-- `validate_citations`. -/
def validateCitations (draft : AnswerDraft) (evidence : List Evidence) : Except AppError Unit :=
  let known := evidence.map (·.citationId)
  if ¬ known.Nodup then .error ⟨"answer_evidence_invalid", "Source evidence is inconsistent.", 409⟩
  else if ∃ c ∈ draft.claims, ¬ (c.citationIds.Nodup ∧ ∀ i ∈ c.citationIds, i ∈ known) then
    .error ⟨"answer_citation_invalid",
      "The answer contained an invalid source reference. No answer was published.", 502⟩
  else .ok ()

/-! ### The answer -/

inductive AnswerStatus
  | answered | insufficientEvidence | refused
  deriving DecidableEq

/-- `AnswerResponse`; what a message of the assistant stores. -/
structure AnswerResponse where
  answerId : Uuid
  status : AnswerStatus
  claims : List Claim
  limitation : Text
  evidence : List Evidence
  sourceIndexId : Uuid
  searchIndexId : Uuid
  commitSha : Text
  retrievalMode : Mode
  retrievalVersion : String
  embeddingProfile : Text
  contextTokens : Nat
  contextOmitted : Nat
  promptVersion : String
  promptHash : Text
  model : Option Text
  inputTokens : Nat
  outputTokens : Nat
  estimatedGenerationCostUsd : ℚ
  estimatedRetrievalCostUsd : ℚ
  historyTurnIds : List Uuid
  historyTokens : Nat
  historyPolicy : String
  turnCount : historyTurnIds.length ≤ 3
  turnTokens : historyTokens ≤ 1000
  deriving DecidableEq

def generationCost (settings : Settings) (inputTokens outputTokens : Nat) : ℚ :=
  (inputTokens * settings.answerInputPrice + outputTokens * settings.answerOutputPrice) / 1000000

def statusOf : Option GenerationResult → AnswerStatus
  | none => .insufficientEvidence
  | some r =>
    match r.draft with
    | none => .refused
    | some d => if d.status = .answered then .answered else .insufficientEvidence

def limitationOf : Option GenerationResult → Text
  | none => "No source evidence was retrieved. Try a function name or hybrid search.".toList
  | some r =>
    match r.draft with
    | none => "The model declined this request.".toList
    | some d => d.limitation

/-- The claims that are published: those of the draft. -/
def claimsOf (result : Option GenerationResult) : List Claim :=
  match result.bind (·.draft) with
  | none => []
  | some d => d.claims

/-- The end of `_answer`; `none` is a validation error. -/
def respond (settings : Settings) (answerId : Uuid) (retrieved : Retrieved) (result : Option GenerationResult)
    (history included : List HistoryTurn) : Option AnswerResponse :=
  if h : (included.map (·.turnId)).length ≤ 3 ∧ historyTokens env included ≤ 1000 then
    some
      { answerId := answerId
        status := statusOf result
        claims := claimsOf result
        limitation := limitationOf result
        evidence := retrieved.context
        sourceIndexId := retrieved.sourceIndexId
        searchIndexId := retrieved.searchIndexId
        commitSha := retrieved.commitSha
        retrievalMode := retrieved.mode
        retrievalVersion := retrieved.pipelineVersion
        embeddingProfile := retrieved.providerProfile
        contextTokens := retrieved.contextTokens
        contextOmitted := retrieved.contextOmitted
        promptVersion := promptVersion
        promptHash := promptHash env
        model := result.map (·.model)
        inputTokens := (result.map (·.inputTokens)).getD 0
        outputTokens := (result.map (·.outputTokens)).getD 0
        estimatedGenerationCostUsd :=
          (result.map fun r => generationCost settings r.inputTokens r.outputTokens).getD 0
        estimatedRetrievalCostUsd := retrieved.estimatedQueryCostUsd
        historyTurnIds := included.map (·.turnId)
        historyTokens := historyTokens env included
        historyPolicy := if history = [] then "none" else historyPolicy
        turnCount := h.1
        turnTokens := h.2 }
  else none

/-! ### The preview -/

/-- `dict.get`: the last member of that name. -/
def member (kvs : List (Text × Json)) (key : String) : Option Json := kvs.reverse.lookup key.toList

def claimText : Json → Option Text
  | .obj kvs =>
    match member kvs "text" with
    | some (.str s) => some (s.take 1800)
    | _ => none
  | _ => none

def claimTexts (kvs : List (Text × Json)) : List Text :=
  match member kvs "claims" with
  | some (.arr xs) => (xs.take 8).filterMap claimText
  | _ => []

def limitationText (kvs : List (Text × Json)) : List Text :=
  match member kvs "limitation" with
  | some (.str s) => [s.take 1200]
  | _ => []

/-- `preview_text`. -/
def previewText (raw : Text) : Text :=
  match env.partialObject raw with
  | some (.obj kvs) =>
    (("\n\n".toList.intercalate ((claimTexts kvs ++ limitationText kvs).filter (· ≠ []))).take 8000).filter
      (· ≠ Char.ofNat 0)
  | _ => []

/-! ### The configuration -/

/-- `config_hash`: the members of the configuration in the order of their keys. -/
def configHash (settings : Settings) : Text :=
  let texts : List (String × Text) :=
    [("embedding_price", env.printFloat settings.embeddingPrice),
      ("generation_transport", Json.quote true "responses-stream-v1".toList),
      ("history_policy", Json.quote true historyPolicy.toList),
      ("input_price", env.printFloat settings.answerInputPrice),
      ("model", Json.quote true settings.answerModel),
      ("output_cap", Json.decimal settings.answerMaxOutputTokens),
      ("output_price", env.printFloat settings.answerOutputPrice),
      ("prompt", Json.quote true (promptHash env)),
      ("receipts", Json.decimal 1),
      ("retrieval", Json.quote true searchVersion.toList)]
  env.sha256 ('{' :: ((", ".toList.intercalate
    (texts.map fun p => Json.quote true p.1.toList ++ ": ".toList ++ p.2)) ++ ['}']))

/-! ### Citations -/

/-- Every claim cites something, each citation once, and each one piece of the evidence. -/
def Cited (claims : List Claim) (evidence : List Evidence) : Prop :=
  ∀ c ∈ claims, c.citationIds ≠ [] ∧ c.citationIds.Nodup ∧
    ∀ i ∈ c.citationIds, ∃ e, evidence.filter (·.citationId = i) = [e]

theorem cited_of_validateCitations {draft : AnswerDraft} {evidence : List Evidence}
    (h : validateCitations draft evidence = .ok ()) : Cited draft.claims evidence := by
  unfold validateCitations at h
  dsimp only at h
  split at h
  · cases h
  rename_i hn
  split at h
  · cases h
  rename_i hc
  intro c hm
  have hok : c.citationIds.Nodup ∧ ∀ i ∈ c.citationIds, i ∈ evidence.map (·.citationId) :=
    by_contra fun hno => hc ⟨c, hm, hno⟩
  refine ⟨List.ne_nil_of_length_pos c.citationCount.1, hok.1, fun i hi => ?_⟩
  obtain ⟨e, he, rfl⟩ := List.mem_map.1 (hok.2 i hi)
  exact ⟨e, Table.Keyed.filter_eq_singleton (not_not.1 hn) he⟩

end Generation
end RepoPilot
