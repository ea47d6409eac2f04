import RepoPilot.Generation
import RepoPilot.ProviderStream

/-! # The model's streamed answer

`consumeStream` forwards the text deltas of one output item and, when the response is complete, compares
the item the deltas name with what was forwarded, while the draft is read from the one item of type
`message`. The two are the same text only if the named item carries the message's text. -/

namespace RepoPilot
namespace ProviderOutput
open Generation ProviderStream

/-- A parsed object. A number that is not an integer stands here as a boolean: every check refuses both. -/
abbrev Dict := List (Text × Json)

/-- `ValueError` and `TypeError` are one: the caller maps both to the same error. -/
inductive Failure
  | app (error : AppError)
  /-- `ProviderUsageError`. -/
  | usage (error : AppError) (inputTokens outputTokens : Nat)
  | value

/-! ### Fields -/

def textField (kvs : Dict) (key : String) : Option Text :=
  match member kvs key with
  | some (.str s) => some s
  | _ => none

/-- `str | None = None`. -/
def optionalText (kvs : Dict) (key : String) : Option (Option Text) :=
  match member kvs key with
  | none => some none
  | some .null => some none
  | some (.str s) => some (some s)
  | _ => none

/-- A strict `int` with `ge=0`. -/
def natField (kvs : Dict) (key : String) : Option Nat :=
  match member kvs key with
  | some (.num (.ofNat n)) => some n
  | _ => none

/-- A list of validated values. -/
def listOf {α : Type} (validate : Json → Option α) : Json → Option (List α)
  | .arr xs => xs.mapM validate
  | _ => none

def listField {α : Type} (validate : Json → Option α) (kvs : Dict) (key : String) : Option (List α) :=
  (member kvs key).bind (listOf validate)

/-- `extra="forbid"`. -/
def Only (kvs : Dict) (keys : List String) : Prop := ∀ kv ∈ kvs, kv.1 ∈ keys.map String.toList

instance (kvs : Dict) (keys : List String) : Decidable (Only kvs keys) :=
  inferInstanceAs (Decidable (∀ kv ∈ kvs, _))

/-! ### The payload of a response -/

structure Content where
  type : Text
  text : Option Text

structure OutputItem where
  id : Option Text
  type : Text
  role : Option Text
  status : Option Text
  content : List Content

structure Usage where
  inputTokens : Nat
  outputTokens : Nat
  totalTokens : Nat

structure ResponsePayload where
  status : Text
  model : Text
  output : List OutputItem
  usage : Usage

def Content.validate : Json → Option Content
  | .obj kvs => do
    let type ← textField kvs "type"
    let text ← optionalText kvs "text"
    some ⟨type, text⟩
  | _ => none

def OutputItem.validate : Json → Option OutputItem
  | .obj kvs => do
    let id ← optionalText kvs "id"
    let type ← textField kvs "type"
    let role ← optionalText kvs "role"
    let status ← optionalText kvs "status"
    let content ← match member kvs "content" with
      | none => some []
      | some value => listOf Content.validate value
    some ⟨id, type, role, status, content⟩
  | _ => none

def Usage.validate : Json → Option Usage
  | .obj kvs => do
    let inputTokens ← natField kvs "input_tokens"
    let outputTokens ← natField kvs "output_tokens"
    let totalTokens ← natField kvs "total_tokens"
    some ⟨inputTokens, outputTokens, totalTokens⟩
  | _ => none

def ResponsePayload.validate : Json → Option ResponsePayload
  | .obj kvs => do
    let status ← textField kvs "status"
    let model ← textField kvs "model"
    let output ← listField OutputItem.validate kvs "output"
    let usage ← (member kvs "usage").bind Usage.validate
    some ⟨status, model, output, usage⟩
  | _ => none

/-! ### The draft -/

def readClaim : Json → Option (Text × List Text)
  | .obj kvs =>
    if Only kvs ["text", "citation_ids"] then do
      let text ← textField kvs "text"
      let ids ← listField (fun | .str s => some s | _ => none) kvs "citation_ids"
      some (text, ids)
    else none
  | _ => none

def readStatus (kvs : Dict) : Option DraftStatus :=
  (textField kvs "status").bind fun s =>
    if s = "answered".toList then some .answered
    else if s = "insufficient_evidence".toList then some .insufficientEvidence
    else none

/-- `AnswerDraft.model_validate_json`. -/
def readDraft (text : Text) : Option AnswerDraft :=
  match Json.parse text with
  | some (.obj kvs) =>
    if Only kvs ["status", "claims", "limitation"] then do
      let status ← readStatus kvs
      let claims ← listField readClaim kvs "claims"
      let limitation ← textField kvs "limitation"
      AnswerDraft.validate ⟨status, claims, limitation⟩
    else none
  | _ => none

/-! ### `validate_response` -/

/-- `ValueError` unless the value is there. -/
def orValue {α : Type} : Option α → Except Failure α
  | some a => .ok a
  | none => .error .value

def ensure (p : Prop) [Decidable p] : Except Failure Unit := if p then .ok () else .error .value

def messages (payload : ResponsePayload) : List OutputItem := payload.output.filter (·.type = "message".toList)

/-- The draft, unless the model refused. -/
def draftOf (content : Content) : Except Failure (Option AnswerDraft) :=
  if content.type = "refusal".toList then .ok none else (orValue (readDraft (content.text.getD []))).map some

/-- `_validate_response`. -/
def validatePayload (model : Text) (maxOutputTokens : Nat) (value : Json) : Except Failure GenerationResult := do
  let data ← orValue (ResponsePayload.validate value)
  if data.status ≠ "completed".toList then
    .error (.app ⟨"model_incomplete", "Model output was incomplete. No answer was published.", 502⟩)
  else do
    ensure (data.model = model)
    ensure (data.usage.totalTokens = data.usage.inputTokens + data.usage.outputTokens)
    ensure (data.usage.outputTokens ≤ maxOutputTokens)
    match messages data with
    | [message] => do
      ensure (message.role = some "assistant".toList ∧ message.status = some "completed".toList)
      match message.content with
      | [content] => do
        ensure (content.type = "output_text".toList ∨ content.type = "refusal".toList)
        let draft ← draftOf content
        orValue (GenerationResult.make
          ⟨data.model, none, content.type = "refusal".toList, data.usage.inputTokens, data.usage.outputTokens⟩ draft)
      | _ => .error .value
    | _ => .error .value

/-- The usage of a response that is valid whatever the rest of it is. -/
def knownUsage (model : Text) (maxOutputTokens : Nat) : Json → Option Usage
  | .obj kvs =>
    if textField kvs "model" = some model then
      ((member kvs "usage").bind Usage.validate).filter fun u =>
        u.totalTokens = u.inputTokens + u.outputTokens ∧ u.outputTokens ≤ maxOutputTokens
    else none
  | _ => none

def modelInvalid : AppError := ⟨"model_invalid", "Model output failed validation.", 502⟩

/-- `validate_response`. -/
def validateResponse (model : Text) (maxOutputTokens : Nat) (value : Json) : Except Failure GenerationResult :=
  match validatePayload model maxOutputTokens value with
  | .ok result => .ok result
  | .error e =>
    match knownUsage model maxOutputTokens value with
    | none => .error e
    | some u =>
      match e with
      | .app error => .error (.usage error u.inputTokens u.outputTokens)
      | _ => .error (.usage modelInvalid u.inputTokens u.outputTokens)

/-! ### `consume_stream` -/

/-- The output item and the part of it that deltas name. -/
structure Identity where
  itemId : Text
  outputIndex : Nat
  contentIndex : Nat
  deriving DecidableEq

structure Progress where
  sequence : Int
  identity : Option Identity
  accumulated : Text
  count : Nat

inductive Step
  | next (p : Progress) (delta : Option Text)
  | done (result : GenerationResult)

def failing : List String := ["error", "response.error", "response.failed", "response.incomplete"]

def streamFailed : AppError := ⟨"model_incomplete", "Model stream did not complete successfully.", 502⟩

def deltaType : Text := "response.output_text.delta".toList

def completedType : Text := "response.completed".toList

def identityOf (event : Dict) : Option Identity := do
  let itemId ← textField event "item_id"
  let outputIndex ← natField event "output_index"
  let contentIndex ← natField event "content_index"
  some ⟨itemId, outputIndex, contentIndex⟩

/-- The text at an identity, of the item that has its id. -/
def ResponsePayload.namedText (payload : ResponsePayload) (i : Identity) : Option Text := do
  let item ← payload.output[i.outputIndex]?
  if item.id = some i.itemId then do
    let content ← item.content[i.contentIndex]?
    content.text
  else none

/-- A delta is forwarded if the text so far fits. -/
def Progress.delta (p : Progress) (event : Dict) : Except Failure Step := do
  let current ← orValue (identityOf event)
  let text ← orValue (textField event "delta")
  ensure (p.identity = none ∨ p.identity = some current)
  ensure (Source.utf8Length (p.accumulated ++ text) ≤ 64 * 1024)
  .ok (.next { p with identity := some current, accumulated := p.accumulated ++ text } (some text))

/-- `value.get("response")`. -/
def responseOf (event : Dict) : Json := (member event "response").getD .null

/-- The end of the stream. -/
def Progress.complete (model : Text) (cap : Nat) (p : Progress) (event : Dict) : Except Failure Step := do
  let result ← validateResponse model cap (responseOf event)
  let payload ← orValue (ResponsePayload.validate (responseOf event))
  if result.refused = true ∨ ∃ i, p.identity = some i ∧ payload.namedText i = some p.accumulated then
    .ok (.done result)
  else .error (.usage modelInvalid result.inputTokens result.outputTokens)

/-- One event. -/
def Progress.step (model : Text) (cap : Nat) (p : Progress) (event : Dict) : Except Failure Step :=
  if 12000 < p.count + 1 then .error .value
  else if textField event "type" ∈ failing.map (some ·.toList) then
    match responseOf event with
    | .null => .error (.app streamFailed)
    | response =>
      match validateResponse model cap response with
      | .error e => .error e
      | .ok _ => .error (.app streamFailed)
  else do
    let type ← orValue (textField event "type")
    let sequence ← orValue (natField event "sequence_number")
    ensure (p.sequence < sequence)
    let next : Progress := { p with sequence := sequence, count := p.count + 1 }
    if type = deltaType then next.delta event
    else if type = completedType then next.complete model cap event
    else .ok (.next next none)

/-- What the end of `frames` raises. -/
def ofEnding {ε : Type} : Ending ε → Failure
  | .incomplete => .app ⟨"model_incomplete", "Model stream ended before completion.", 502⟩
  | _ => .value

/-- The deltas forwarded, and the result. -/
def Progress.consume {ε : Type} (model : Text) (cap : Nat) (ending : Ending ε) :
    Progress → List Dict → List Text × Except Failure GenerationResult
  | _, [] => ([], .error (ofEnding ending))
  | p, event :: events =>
    match p.step model cap event with
    | .error e => ([], .error e)
    | .ok (.done result) => ([], .ok result)
    | .ok (.next p' delta) =>
      (delta.toList ++ (p'.consume model cap ending events).1, (p'.consume model cap ending events).2)

/-- `consume_stream`, on what `frames` yields and how it ends. -/
def consumeStream {ε : Type} (model : Text) (cap : Nat) (stream : List Dict × Ending ε) :
    List Text × Except Failure GenerationResult :=
  Progress.consume model cap stream.2 ⟨-1, none, [], 0⟩ stream.1

/-! ### What a step does -/

section Except
variable {α β : Type}

theorem bind_eq_ok {x : Except Failure α} {f : α → Except Failure β} {b : β} :
    (x >>= f) = .ok b ↔ ∃ a, x = .ok a ∧ f a = .ok b := by
  cases x with
  | error e => exact ⟨nofun, fun ⟨_, h, _⟩ => nomatch h⟩
  | ok a => exact ⟨fun h => ⟨a, rfl, h⟩, fun ⟨_, h, hf⟩ => by cases h; exact hf⟩

theorem orValue_ok {o : Option α} {a : α} : orValue o = .ok a ↔ o = some a := by
  cases o <;> simp [orValue]

theorem ensure_ok {p : Prop} [Decidable p] {u : Unit} : ensure p = .ok u ↔ p := by
  unfold ensure
  split <;> simp_all

end Except

/-- The message of a response, and the text its draft is read from. -/
def ResponsePayload.messageText (payload : ResponsePayload) : Option Text :=
  match messages payload with
  | [message] =>
    match message.content with
    | [content] => some (content.text.getD [])
    | _ => none
  | _ => none

theorem validateResponse_ok {model : Text} {cap : Nat} {value : Json} {result : GenerationResult}
    (h : validateResponse model cap value = .ok result) : validatePayload model cap value = .ok result := by
  unfold validateResponse at h
  split at h
  · rename_i hv
    rw [hv]
    exact h
  · split at h
    · cases h
    · split at h <;> cases h

section Returned
variable {model : Text} {cap : Nat} {value : Json} {result : GenerationResult}

/-- The response is complete: one completed message of the assistant with one part, and the usage adds up. -/
structure Completed (model : Text) (cap : Nat) (value : Json) (payload : ResponsePayload) (message : OutputItem)
    (part : Content) : Prop where
  parsed : ResponsePayload.validate value = some payload
  status : payload.status = "completed".toList
  named : payload.model = model
  total : payload.usage.totalTokens = payload.usage.inputTokens + payload.usage.outputTokens
  within : payload.usage.outputTokens ≤ cap
  single : messages payload = [message]
  role : message.role = some "assistant".toList
  done : message.status = some "completed".toList
  parts : message.content = [part]
  kind : part.type = "output_text".toList ∨ part.type = "refusal".toList

/-- The part is a refusal or reads as a draft, and the model's name fits a result. -/
def Content.Readable (model : Text) (part : Content) : Prop :=
  (part.type = "refusal".toList ∨ (readDraft (part.text.getD [])).isSome) ∧ 1 ≤ model.length ∧ model.length ≤ 100

/-- The draft that is read from the part. -/
def Content.draft (part : Content) : Option AnswerDraft :=
  if part.type = "refusal".toList then none else readDraft (part.text.getD [])

/-- What the result says of the response. -/
structure Returned (payload : ResponsePayload) (part : Content) (result : GenerationResult) : Prop where
  model : result.model = payload.model
  refused : result.refused = true ↔ part.type = "refusal".toList
  draft : result.draft = part.draft
  inputTokens : result.inputTokens = payload.usage.inputTokens
  outputTokens : result.outputTokens = payload.usage.outputTokens

theorem draftOf_eq_ok {part : Content} {draft : Option AnswerDraft} :
    draftOf part = .ok draft ↔
      (part.type = "refusal".toList ∨ (readDraft (part.text.getD [])).isSome) ∧ draft = part.draft := by
  unfold draftOf Content.draft
  by_cases hr : part.type = "refusal".toList
  · rw [if_pos hr, if_pos hr]
    constructor
    · rintro ⟨⟩
      exact ⟨.inl hr, rfl⟩
    · rintro ⟨-, rfl⟩
      rfl
  · rw [if_neg hr, if_neg hr]
    cases readDraft (part.text.getD []) with
    | none => exact ⟨nofun, fun h => h.1.elim (absurd · hr) nofun⟩
    | some d =>
      constructor
      · rintro ⟨⟩
        exact ⟨.inr rfl, rfl⟩
      · rintro ⟨-, rfl⟩
        rfl

/-- There is a draft unless the part is a refusal. -/
theorem Content.draft_eq_none {part : Content}
    (h : part.type = "refusal".toList ∨ (readDraft (part.text.getD [])).isSome) :
    part.type = "refusal".toList ↔ part.draft = none := by
  unfold Content.draft
  by_cases hr : part.type = "refusal".toList
  · rw [if_pos hr]
    exact iff_of_true hr rfl
  · obtain ⟨d, hd⟩ := Option.isSome_iff_exists.1 (h.resolve_left hr)
    rw [if_neg hr, hd]
    exact iff_of_false hr nofun

theorem make_eq_some {raw : Generated} {draft : Option AnswerDraft} :
    GenerationResult.make raw draft = some result ↔
      0 ≤ raw.inputTokens ∧ 0 ≤ raw.outputTokens ∧ (1 ≤ raw.model.length ∧ raw.model.length ≤ 100) ∧
        (raw.refused = true ↔ draft = none) ∧ result.model = raw.model ∧ result.draft = draft ∧
        result.refused = raw.refused ∧ result.inputTokens = raw.inputTokens.toNat ∧
        result.outputTokens = raw.outputTokens.toNat := by
  unfold GenerationResult.make
  constructor
  · intro h
    split at h
    · rename_i hfits
      cases h
      exact ⟨hfits.1, hfits.2.1, hfits.2.2.1, hfits.2.2.2, rfl, rfl, rfl, rfl, rfl⟩
    · cases h
  · rintro ⟨hi, ho, hl, hr, hm, hd, hf, hin, hout⟩
    rw [dif_pos ⟨hi, ho, hl, hr⟩]
    cases result
    simp only at hm hd hf hin hout
    subst hm hd hf hin hout
    rfl

/-- `_validate_response` returns exactly for a complete response that can be read. -/
theorem validatePayload_eq_ok :
    validatePayload model cap value = .ok result ↔
      ∃ payload message part, Completed model cap value payload message part ∧ part.Readable model ∧
        Returned payload part result := by
  unfold validatePayload
  simp only [bind_eq_ok, orValue_ok]
  constructor
  · rintro ⟨payload, hpayload, h⟩
    by_cases hstatus : payload.status ≠ "completed".toList
    · rw [if_pos hstatus] at h
      cases h
    rw [if_neg hstatus] at h
    simp only [bind_eq_ok, ensure_ok, exists_const] at h
    obtain ⟨hmodel, htotal, hcap, h⟩ := h
    split at h
    · rename_i message hmessages
      simp only [bind_eq_ok, ensure_ok, exists_const] at h
      obtain ⟨hmessage, h⟩ := h
      split at h
      · rename_i part hpart
        simp only [bind_eq_ok, ensure_ok, exists_const, orValue_ok, draftOf_eq_ok, make_eq_some] at h
        obtain ⟨hkind, draft, ⟨hread, rfl⟩, -, -, hlength, -, hm, hd, hr, hi, ho⟩ := h
        exact ⟨payload, message, part,
          ⟨hpayload, not_not.1 hstatus, hmodel, htotal, hcap, hmessages, hmessage.1, hmessage.2, hpart, hkind⟩,
          ⟨hread, hmodel ▸ hlength⟩, ⟨hm, hr ▸ decide_eq_true_iff, hd, hi, ho⟩⟩
      · cases h
    · cases h
  · rintro ⟨payload, message, part, hc, ⟨hread, hlength⟩, hr⟩
    refine ⟨payload, hc.parsed, ?_⟩
    rw [if_neg (not_not.2 hc.status)]
    simp only [bind_eq_ok, ensure_ok, exists_const]
    refine ⟨hc.named, hc.total, hc.within, ?_⟩
    rw [hc.single]
    simp only [bind_eq_ok, ensure_ok, exists_const]
    refine ⟨⟨hc.role, hc.done⟩, ?_⟩
    rw [hc.parts]
    simp only [bind_eq_ok, ensure_ok, exists_const, orValue_ok, draftOf_eq_ok, make_eq_some]
    refine ⟨hc.kind, part.draft, ⟨hread, rfl⟩, Int.natCast_nonneg _, Int.natCast_nonneg _, hc.named ▸ hlength, ?_,
      hr.model, hr.draft, ?_, hr.inputTokens, hr.outputTokens⟩
    · rw [decide_eq_true_iff]
      exact Content.draft_eq_none hread
    · exact Bool.eq_iff_iff.2 (hr.refused.trans decide_eq_true_iff.symm)

/-- The draft of a response is read from its message. -/
theorem validatePayload_draft {model : Text} {cap : Nat} {value : Json} {result : GenerationResult}
    (h : validatePayload model cap value = .ok result) (hr : result.refused = false) :
    ∃ payload text, ResponsePayload.validate value = some payload ∧ payload.messageText = some text ∧
      result.draft = readDraft text := by
  obtain ⟨payload, message, part, hc, -, hreturned⟩ := validatePayload_eq_ok.1 h
  have htext : payload.messageText = some (part.text.getD []) := by
    unfold ResponsePayload.messageText
    rw [hc.single]
    dsimp only
    rw [hc.parts]
  have hpart : part.type ≠ "refusal".toList := by
    intro hrefusal
    rw [hreturned.refused.2 hrefusal] at hr
    cases hr
  refine ⟨payload, _, hc.parsed, htext, ?_⟩
  rw [hreturned.draft]
  unfold Content.draft
  rw [if_neg hpart]

end Returned

variable {model : Text} {cap : Nat} {p p' : Progress} {event : Dict}

theorem delta_next {step : Step} (h : p.delta event = .ok step) :
    ∃ i text, identityOf event = some i ∧ (p.identity = none ∨ p.identity = some i) ∧
      step = .next { p with identity := some i, accumulated := p.accumulated ++ text } (some text) := by
  unfold Progress.delta at h
  obtain ⟨i, hi, h⟩ := bind_eq_ok.1 h
  obtain ⟨text, -, h⟩ := bind_eq_ok.1 h
  obtain ⟨_, hsame, h⟩ := bind_eq_ok.1 h
  obtain ⟨_, -, h⟩ := bind_eq_ok.1 h
  cases h
  exact ⟨i, text, orValue_ok.1 hi, ensure_ok.1 hsame, rfl⟩

theorem complete_done {step : Step} (h : p.complete model cap event = .ok step) :
    ∃ result payload, validateResponse model cap (responseOf event) = .ok result ∧
      ResponsePayload.validate (responseOf event) = some payload ∧
      (result.refused = true ∨ ∃ i, p.identity = some i ∧ payload.namedText i = some p.accumulated) ∧
      step = .done result := by
  unfold Progress.complete at h
  obtain ⟨result, hresult, h⟩ := bind_eq_ok.1 h
  obtain ⟨payload, hpayload, h⟩ := bind_eq_ok.1 h
  split at h
  · cases h
    exact ⟨result, payload, hresult, orValue_ok.1 hpayload, ‹_›, rfl⟩
  · cases h

/-- What one event does: a delta is added, the end of the stream ends it, any other event only counts. -/
theorem step_cases {step : Step} (h : p.step model cap event = .ok step) :
    (textField event "type" = some deltaType ∧ ∃ i text sequence count, identityOf event = some i ∧
        (p.identity = none ∨ p.identity = some i) ∧
        step = .next ⟨sequence, some i, p.accumulated ++ text, count⟩ (some text)) ∨
      (textField event "type" = some completedType ∧ ∃ result payload,
        validateResponse model cap (responseOf event) = .ok result ∧
        ResponsePayload.validate (responseOf event) = some payload ∧
        (result.refused = true ∨ ∃ i, p.identity = some i ∧ payload.namedText i = some p.accumulated) ∧
        step = .done result) ∨
      (textField event "type" ≠ some deltaType ∧ textField event "type" ≠ some completedType ∧
        ∃ sequence count, step = .next ⟨sequence, p.identity, p.accumulated, count⟩ none) := by
  unfold Progress.step at h
  split at h
  · cases h
  · split at h
    · split at h
      · cases h
      · split at h <;> cases h
    · obtain ⟨type, htype, h⟩ := bind_eq_ok.1 h
      obtain ⟨sequence, -, h⟩ := bind_eq_ok.1 h
      obtain ⟨_, -, h⟩ := bind_eq_ok.1 h
      rw [orValue_ok.1 htype]
      dsimp only at h
      split at h
      · rename_i hdelta
        obtain ⟨i, text, hi, hsame, rfl⟩ := delta_next h
        exact .inl ⟨congrArg some hdelta, i, text, _, _, hi, hsame, rfl⟩
      · rename_i hdelta
        split at h
        · rename_i hcompleted
          obtain ⟨result, payload, hresult, hpayload, hnamed, rfl⟩ := complete_done h
          exact .inr (.inl ⟨congrArg some hcompleted, result, payload, hresult, hpayload, hnamed, rfl⟩)
        · rename_i hcompleted
          cases h
          exact .inr (.inr ⟨fun he => hdelta (Option.some.inj he), fun he => hcompleted (Option.some.inj he), _, _,
            rfl⟩)

/-! ### The stream and the draft -/

/-- What the first delta names. -/
def firstIdentity (events : List Dict) : Option Identity :=
  (events.find? (textField · "type" = some deltaType)).bind identityOf

/-- The response of the event that completes the stream. -/
def completedResponse (events : List Dict) : Option Json :=
  (events.find? (textField · "type" = some completedType)).map responseOf

variable {ε : Type} {ending : Ending ε} {events : List Dict} {forwarded : List Text} {result : GenerationResult}

/-- What was accumulated is what was forwarded, and the deltas all name what the first one names. -/
theorem consume_ok (h : p.consume model cap ending events = (forwarded, .ok result)) :
    ∃ response payload, completedResponse events = some response ∧
      validateResponse model cap response = .ok result ∧ ResponsePayload.validate response = some payload ∧
      (result.refused = true ∨ ∃ i, p.identity.or (firstIdentity events) = some i ∧
        payload.namedText i = some (p.accumulated ++ forwarded.flatten)) := by
  induction events generalizing p forwarded with
  | nil => cases h
  | cons event events ih =>
    simp only [Progress.consume] at h
    cases hstep : p.step model cap event with
    | error e =>
      rw [hstep] at h
      cases h
    | ok step =>
      rw [hstep] at h
      rcases step_cases hstep with ⟨htype, i, text, sequence, count, hi, hsame, rfl⟩ |
        ⟨htype, result', payload, hresult, hpayload, hnamed, rfl⟩ | ⟨hdelta, hcompleted, sequence, count, rfl⟩
      · obtain ⟨rfl, hrest⟩ := Prod.mk.inj h
        obtain ⟨response, payload, hresponse, hresult, hpayload, hnamed⟩ := ih (Prod.ext rfl hrest)
        have hne : ¬ textField event "type" = some completedType := by
          rw [htype]
          decide
        refine ⟨response, payload, ?_, hresult, hpayload, hnamed.imp_right ?_⟩
        · unfold completedResponse at hresponse ⊢
          rw [List.find?_cons_of_neg (by simpa using hne), hresponse]
        · rintro ⟨j, hj, htext⟩
          obtain rfl : i = j := Option.some.inj hj
          refine ⟨i, ?_, by rw [htext]; simp⟩
          rcases hsame with hnone | hsome
          · unfold firstIdentity
            rw [hnone, List.find?_cons_of_pos (by simpa using htype)]
            exact hi
          · rw [hsome]
            rfl
      · obtain ⟨rfl, hr⟩ := Prod.mk.inj h
        obtain rfl := Except.ok.inj hr
        refine ⟨_, payload, ?_, hresult, hpayload, hnamed.imp_right ?_⟩
        · unfold completedResponse
          rw [List.find?_cons_of_pos (by simpa using htype)]
          rfl
        · rintro ⟨i, hi, htext⟩
          exact ⟨i, by rw [hi]; rfl, by simpa using htext⟩
      · obtain ⟨rfl, hrest⟩ := Prod.mk.inj h
        obtain ⟨response, payload, hresponse, hresult, hpayload, hnamed⟩ := ih (Prod.ext rfl hrest)
        refine ⟨response, payload, ?_, hresult, hpayload, ?_⟩
        · unfold completedResponse at hresponse ⊢
          rw [List.find?_cons_of_neg (by simpa using hcompleted), hresponse]
        · have hfirst : firstIdentity (event :: events) = firstIdentity events := by
            unfold firstIdentity
            rw [List.find?_cons_of_neg (by simpa using hdelta)]
          rw [hfirst]
          exact hnamed

/-- The text shown is the text the draft was read from. -/
def Faithful (events : List Dict) (forwarded : List Text) (result : GenerationResult) : Prop :=
  ∃ response payload text, completedResponse events = some response ∧
    ResponsePayload.validate response = some payload ∧ payload.messageText = some text ∧
    result.draft = readDraft text ∧ forwarded.flatten = text

/-- The item the deltas name carries the text of the message. -/
def Agrees (events : List Dict) : Prop :=
  ∃ response payload i text, completedResponse events = some response ∧
    ResponsePayload.validate response = some payload ∧ firstIdentity events = some i ∧
    payload.messageText = some text ∧ payload.namedText i = some text

def draftText : Text := "\x7b\"status\":\"insufficient_evidence\",\"claims\":[],\"limitation\":\"?\"\x7d".toList

def textPart (type : String) (text : Text) : Json := .obj [("type".toList, .str type.toList), ("text".toList, .str text)]

def response (shown : Text) : Json :=
  .obj [("status".toList, .str "completed".toList), ("model".toList, .str "m".toList),
    ("output".toList, .arr
      [.obj [("id".toList, .str "r".toList), ("type".toList, .str "reasoning".toList),
        ("content".toList, .arr [textPart "reasoning_text" shown])],
      .obj [("id".toList, .str "a".toList), ("type".toList, .str "message".toList),
        ("role".toList, .str "assistant".toList), ("status".toList, .str "completed".toList),
        ("content".toList, .arr [textPart "output_text" draftText])]]),
    ("usage".toList, .obj [("input_tokens".toList, .num 1), ("output_tokens".toList, .num 1),
      ("total_tokens".toList, .num 2)])]

/-- One delta, and the response. -/
def stream (item : String) (index : Nat) (shown : Text) : List Dict :=
  [[("type".toList, .str deltaType), ("sequence_number".toList, .num 0), ("item_id".toList, .str item.toList),
    ("output_index".toList, .num index), ("content_index".toList, .num 0), ("delta".toList, .str shown)],
  [("type".toList, .str completedType), ("sequence_number".toList, .num 1), ("response".toList, response shown)]]

def abstention : GenerationResult where
  model := "m".toList
  draft := some ⟨.insufficientEvidence, [], "?".toList, by decide, by decide, by decide, by decide, by decide⟩
  refused := false
  inputTokens := 1
  outputTokens := 1
  modelLength := by decide
  refusal := by simp

end ProviderOutput
end RepoPilot
