import RepoPilot.ProviderOutput
import RepoPilot.Transactions
import RepoPilot.Vectors

/-! # Embedding a batch

The texts of a batch are split into parts, sent as one flat list, answered in any order, sorted by index and cut
again into the shares of the documents. The numbers of a response are of any type; the vectors that are stored
are taken over the reals, where a document gets the normalised centre of mass of its own parts. -/

namespace RepoPilot
namespace Embeddings
open ProviderOutput (Failure orValue ensure)

/-- `embeddings.provider.MODEL`. -/
def model : Text := "text-embedding-3-small".toList

/-- `DIMENSIONS`. -/
def dimensions : Nat := 1536

/-! ### Responses -/

/-- A parsed value. A float is a number of `α`, or infinite or not a number. -/
inductive Value (α : Type)
  | null
  | bool (b : Bool)
  | int (n : Int)
  | float (x : Option α)
  | str (s : Text)
  | arr (xs : List (Value α))
  | obj (kvs : List (Text × Value α))

structure VectorItem (α : Type) where
  index : Nat
  embedding : List (Option α)

structure Payload (α : Type) where
  model : Text
  data : List (VectorItem α)
  promptTokens : Nat

section Validation
variable {α : Type} [IntCast α]

/-- `dict.get`. -/
def member (kvs : List (Text × Value α)) (key : String) : Option (Value α) := kvs.reverse.lookup key.toList

/-- A strict `int` with `ge=0`. -/
def Value.natural : Value α → Option Nat
  | .int (.ofNat n) => some n
  | _ => none

/-- A strict `float`; an integer is one. -/
def Value.number : Value α → Option (Option α)
  | .int n => some (some (n : α))
  | .float x => some x
  | _ => none

def Value.text : Value α → Option Text
  | .str s => some s
  | _ => none

def VectorItem.validate : Value α → Option (VectorItem α)
  | .obj kvs => do
    let index ← (member kvs "index").bind Value.natural
    let embedding ← match member kvs "embedding" with
      | some (.arr xs) => xs.mapM Value.number
      | _ => none
    some ⟨index, embedding⟩
  | _ => none

/-- `Usage.model_validate`. -/
def usage : Option (Value α) → Option Nat
  | some (.obj kvs) => (member kvs "prompt_tokens").bind Value.natural
  | _ => none

def Payload.validate : Value α → Option (Payload α)
  | .obj kvs => do
    let model ← (member kvs "model").bind Value.text
    let data ← match member kvs "data" with
      | some (.arr xs) => xs.mapM VectorItem.validate
      | _ => none
    let promptTokens ← usage (member kvs "usage")
    some ⟨model, data, promptTokens⟩
  | _ => none

end Validation

/-! ### `OpenAIEmbeddings.embed` -/

/-- The body of a response: too large, not JSON, or a value. -/
inductive Body (α : Type)
  | tooLarge
  | invalid
  | parsed (value : Value α)

/-- What becomes of a request. -/
inductive Reply (α : Type)
  | unavailable
  | response (status : Nat) (body : Body α)

/-- `EmbeddingBatch`, of vectors of any kind. -/
structure Batch (V : Type) where
  vectors : List V
  inputTokens : Nat

/-- The checks before the request. -/
def Admissible (inputs : List (List Nat)) : Prop :=
  (inputs ≠ [] ∧ inputs.length ≤ 64 ∧ ∀ x ∈ inputs, x ≠ [] ∧ x.length ≤ 4096) ∧ Searches.tokenCount inputs ≤ 250000

instance (inputs : List (List Nat)) : Decidable (Admissible inputs) :=
  inferInstanceAs (Decidable ((inputs ≠ [] ∧ inputs.length ≤ 64 ∧ ∀ x ∈ inputs, x ≠ [] ∧ x.length ≤ 4096) ∧ _))

def embeddingInvalid : AppError :=
  ⟨"embedding_invalid", "Embedding provider returned an invalid response.", 502⟩

section Embed
variable {α : Type} [IntCast α] (normalize : List (Option α) → Except AppError (List α)) (inputs : List (List Nat))

/-- The tokens that are known to be charged before the payload is checked; `none` is a `ValidationError`. -/
def knownTokens : Value α → Option (Option Nat)
  | .obj kvs =>
    if (member kvs "model").bind Value.text = some model then
      (usage (member kvs "usage")).map fun n => if n = Searches.tokenCount inputs then some n else none
    else some none
  | _ => some none

/-- The checks of the payload, and its vectors in the order of the inputs. -/
def readPayload (raw : Value α) : Except Failure (Batch (List α)) := do
  let data ← orValue (Payload.validate raw)
  ensure (data.model = model ∧ (data.data.map (·.index)).mergeSort = List.range inputs.length)
  ensure (data.promptTokens = Searches.tokenCount inputs)
  let ordered := data.data.mergeSort fun a b => a.index ≤ b.index
  let vectors ← ordered.mapM fun x => (normalize x.embedding).mapError Failure.app
  .ok ⟨vectors, data.promptTokens⟩

/-- What an exception becomes, when so many tokens are known. -/
def charge (known : Option Nat) (e : Failure) : Failure :=
  let error := match e with
    | .app error => error
    | _ => embeddingInvalid
  match known with
  | none => .app error
  | some n => .usage error n 0

/-- `embed`, on the reply. -/
def embed (reply : Reply α) : Except Failure (Batch (List α)) :=
  if ¬ Admissible inputs then .error .value
  else
    match reply with
    | .unavailable =>
      .error (.app ⟨"embedding_unavailable", "Embedding provider is unavailable. Retry later.", 503⟩)
    | .response status body =>
      if status = 429 then
        .error (.app ⟨"embedding_rate_limited", "Embedding provider rate limit reached. Retry later.", 503⟩)
      else if status ≠ 200 then
        .error (.app ⟨"embedding_provider_error",
          "Embedding provider rejected the request. Check its configuration and availability.", 502⟩)
      else
        match body with
        | .tooLarge => .error (.app ⟨"embedding_invalid", "Embedding response exceeded its size limit.", 502⟩)
        | .invalid => .error (.app embeddingInvalid)
        | .parsed raw =>
          match knownTokens inputs raw with
          | none => .error (.app embeddingInvalid)
          | some known => (readPayload normalize inputs raw).mapError (charge known)

end Embed

/-! ### The batch of `run_preparation` -/

section Batch
variable {V : Type} (aggregate : List V → List Nat → Except Raised V)

/-- Cut the vectors into the shares of the documents and aggregate each. -/
def aggregateAll : List V → List (List (List Nat)) → Except Raised (List V)
  | _, [] => .ok []
  | vectors, parts :: rest => do
    let vector ← aggregate (vectors.take parts.length) (parts.map List.length)
    let vectors ← aggregateAll (vectors.drop parts.length) rest
    .ok (vector :: vectors)

/-- The vectors of the documents, after the response was checked against its inputs. -/
def assign (parts : List (List (List Nat))) (vectors : List V) (inputTokens : Int) : Except Raised (List V) :=
  if vectors.length ≠ parts.flatten.length ∨ inputTokens ≠ Searches.tokenCount parts.flatten then
    .error (.app ⟨"embedding_invalid", "Embedding batch did not match its inputs.", 502⟩)
  else aggregateAll aggregate vectors parts

/-- What `run_preparation` sees of an exception of `embed`. -/
def raised : Failure → Raised
  | .app error => .app error
  | .usage error _ _ => .app error
  | .value => .other

variable (env : Env) (plan : Searches.Plan) (claim : Claim)

/-- The documents of a batch, each with its vector. -/
def documents (batch : List Db.SourceChunk) (vectors : List V) : List (SearchDocument × V) :=
  List.zipWith (fun c v => (Searches.document env plan claim c none, v)) batch vectors

/-- From the chunks of a batch to its documents. -/
def prepare {α : Type} [IntCast α] (normalize : List (Option α) → Except AppError (List α))
    (aggregate : List (List α) → List Nat → Except Raised (List α)) (batch : List Db.SourceChunk) (reply : Reply α) :
    Except Raised (List (SearchDocument × List α)) := do
  let parts := batch.map (plan.parts env)
  let response ← (embed normalize parts.flatten reply).mapError raised
  let vectors ← assign aggregate parts response.vectors response.inputTokens
  .ok (documents env plan claim batch vectors)

end Batch

/-! ### Real vectors -/

/-- `embeddings.provider.normalize`. -/
noncomputable def normalize (vector : List (Option ℝ)) : Except AppError (List ℝ) :=
  match vector.mapM id with
  | none => .error ⟨"embedding_invalid", "Embedding response has invalid dimensions or values.", 502⟩
  | some xs =>
    open Classical in
    if xs.length ≠ dimensions then
      .error ⟨"embedding_invalid", "Embedding response has invalid dimensions or values.", 502⟩
    else if √((xs.map fun v => v * v).sum) ≤ 0 then
      .error ⟨"embedding_invalid", "Embedding response has invalid magnitude.", 502⟩
    else .ok (xs.map fun v => v / √((xs.map fun v => v * v).sum))

/-- `embeddings.provider.aggregate`. -/
noncomputable def aggregate (vectors : List (List ℝ)) (lengths : List Nat) : Except Raised (List ℝ) :=
  if vectors = [] ∨ vectors.length ≠ lengths.length ∨ ∃ n ∈ lengths, n = 0 then .error .other
  else do
    let valid ← vectors.mapM fun v => lift (normalize (v.map some))
    lift (normalize ((List.range dimensions).map fun i =>
      some (List.zipWith (fun (v : List ℝ) (n : Nat) => v.getD i 0 * n / (lengths.sum : Nat)) valid lengths).sum))

/-! ### What an accepted response says -/

theorem mapM_ok {ε α β : Type} {f : α → Except ε β} {xs : List α} {ys : List β} (h : xs.mapM f = .ok ys) :
    List.Forall₂ (fun x y => f x = .ok y) xs ys := by
  induction xs generalizing ys with
  | nil =>
    cases h
    exact .nil
  | cons x xs ih =>
    rw [List.mapM_cons] at h
    cases hx : f x with
    | error e =>
      rw [hx] at h
      cases h
    | ok y =>
      rw [hx] at h
      cases hxs : xs.mapM f with
      | error e =>
        rw [hxs] at h
        cases h
      | ok rest =>
        rw [hxs] at h
        cases h
        exact .cons hx (ih hxs)

theorem mapM_of_forall₂ {ε α β : Type} {f : α → Except ε β} {xs : List α} {ys : List β}
    (h : List.Forall₂ (fun x y => f x = .ok y) xs ys) : xs.mapM f = .ok ys := by
  induction h with
  | nil => rfl
  | cons hx _ ih =>
    rw [List.mapM_cons, hx, ih]
    rfl

theorem mapError_ok {ε ε' α : Type} {g : ε → ε'} {x : Except ε α} {a : α} : x.mapError g = .ok a ↔ x = .ok a := by
  cases x with
  | error e => exact iff_of_false nofun nofun
  | ok b =>
    constructor <;>
    · intro h
      cases h
      rfl

section Accepted
variable {α : Type} [IntCast α] {norm : List (Option α) → Except AppError (List α)} {inputs : List (List Nat)}
  {reply : Reply α} {response : Batch (List α)} {data : Payload α}

/-- The payload has one item for every input, and charges the tokens of the inputs. -/
structure Answers (inputs : List (List Nat)) (data : Payload α) : Prop where
  named : data.model = model
  indices : (data.data.map (·.index)).Perm (List.range inputs.length)
  charged : data.promptTokens = Searches.tokenCount inputs

/-- The items in the order of the inputs. -/
def ordered (data : Payload α) : List (VectorItem α) := data.data.mergeSort fun a b => a.index ≤ b.index

omit [IntCast α] in
theorem ordered_index (h : (data.data.map (·.index)).mergeSort = List.range inputs.length) :
    (ordered data).map (·.index) = List.range inputs.length := by
  rw [← h]
  exact List.map_mergeSort fun a _ b _ => rfl

theorem readPayload_ok {raw : Value α} (h : readPayload norm inputs raw = .ok response) :
    ∃ data, Payload.validate raw = some data ∧ Answers inputs data ∧
      (ordered data).map (·.index) = List.range inputs.length ∧ response.inputTokens = Searches.tokenCount inputs ∧
      List.Forall₂ (fun x v => norm x.embedding = .ok v) (ordered data) response.vectors := by
  unfold readPayload at h
  simp only [ProviderOutput.bind_eq_ok, ProviderOutput.orValue_ok, ProviderOutput.ensure_ok, exists_const] at h
  obtain ⟨data, hdata, ⟨hmodel, hsorted⟩, htokens, vectors, hvectors, h⟩ := h
  cases h
  have hperm := (List.mergeSort_perm (data.data.map (·.index)) (· ≤ ·)).symm
  rw [hsorted] at hperm
  refine ⟨data, hdata, ⟨hmodel, hperm, htokens⟩, ordered_index hsorted, htokens, ?_⟩
  exact (mapM_ok hvectors).imp fun x v hv => mapError_ok.1 hv

theorem readPayload_answers {raw : Value α} (hdata : Payload.validate raw = some data) (hanswers : Answers inputs data)
    {vectors : List (List α)} (hvectors : List.Forall₂ (fun x v => norm x.embedding = .ok v) (ordered data) vectors) :
    readPayload norm inputs raw = .ok ⟨vectors, Searches.tokenCount inputs⟩ := by
  have hsorted : (data.data.map (·.index)).mergeSort = List.range inputs.length := by
    refine List.Perm.eq_of_pairwise' (r := (· ≤ ·)) ?_ ?_ ((List.mergeSort_perm _ _).trans hanswers.indices)
    · exact List.pairwise_mergeSort' (· ≤ ·) _
    · exact List.pairwise_le_range
  unfold readPayload
  simp only [ProviderOutput.bind_eq_ok, ProviderOutput.orValue_ok, ProviderOutput.ensure_ok, exists_const]
  refine ⟨data, hdata, ⟨hanswers.named, hsorted⟩, hanswers.charged, vectors, ?_, by rw [hanswers.charged]⟩
  exact mapM_of_forall₂ (hvectors.imp fun x v hv => mapError_ok.2 hv)

theorem knownTokens_valid (inputs : List (List Nat)) {raw : Value α} (hdata : Payload.validate raw = some data) :
    ∃ known, knownTokens inputs raw = some known := by
  cases raw with
  | obj kvs =>
    have husage : ∃ n, usage (member kvs "usage") = some n := by
      simp only [Payload.validate, Option.bind_eq_bind, Option.bind_eq_some_iff] at hdata
      obtain ⟨_, -, hdata⟩ := hdata
      split at hdata
      · simp only [Option.bind_eq_some_iff] at hdata
        obtain ⟨_, -, n, hn, -⟩ := hdata
        exact ⟨n, hn⟩
      · cases hdata
    obtain ⟨n, hn⟩ := husage
    unfold knownTokens
    dsimp only
    rw [hn]
    split
    · exact ⟨_, rfl⟩
    · exact ⟨_, rfl⟩
  | _ => exact ⟨none, rfl⟩

theorem embed_ok (h : embed norm inputs reply = .ok response) :
    ∃ raw, reply = .response 200 (.parsed raw) ∧ readPayload norm inputs raw = .ok response := by
  unfold embed at h
  split at h
  · cases h
  split at h
  · cases h
  rename_i status body
  split at h
  · cases h
  split at h
  · cases h
  rename_i hstatus
  obtain rfl : status = 200 := not_not.1 hstatus
  split at h
  · cases h
  · cases h
  · rename_i raw
    split at h
    · cases h
    · exact ⟨raw, rfl, mapError_ok.1 h⟩

theorem embed_parsed (hi : Admissible inputs) (raw : Value α) :
    embed norm inputs (.response 200 (.parsed raw)) =
      match knownTokens inputs raw with
      | none => .error (.app embeddingInvalid)
      | some known => (readPayload norm inputs raw).mapError (charge known) := by
  unfold embed
  rw [if_neg (not_not.2 hi)]
  dsimp only
  rw [if_neg (by decide), if_neg (by decide)]

/-- The tokens that the response reports are returned or raised. -/
theorem embed_charged (hi : Admissible inputs) {raw : Value α} {kvs : List (Text × Value α)} (hraw : raw = .obj kvs)
    (hmodel : member kvs "model" = some (.str model)) (husage : usage (member kvs "usage") = some (Searches.tokenCount inputs)) :
    (∃ response, embed norm inputs (.response 200 (.parsed raw)) = .ok response ∧
        response.inputTokens = Searches.tokenCount inputs) ∨
      ∃ error, embed norm inputs (.response 200 (.parsed raw)) = .error
        (.usage error (Searches.tokenCount inputs) 0) := by
  have hknown : knownTokens inputs raw = some (some (Searches.tokenCount inputs)) := by
    subst hraw
    unfold knownTokens
    dsimp only
    have hnamed : (member kvs "model").bind Value.text = some model := by
      rw [hmodel]
      rfl
    rw [if_pos hnamed, husage, Option.map_some, if_pos rfl]
  rw [embed_parsed hi, hknown]
  dsimp only
  cases hread : readPayload norm inputs raw with
  | ok response =>
    obtain ⟨data, -, -, -, htokens, -⟩ := readPayload_ok hread
    exact .inl ⟨response, rfl, htokens⟩
  | error e => exact .inr ⟨_, rfl⟩

end Accepted

/-! ### Whose vectors a document gets -/

section Shares
variable {V : Type} {agg : List V → List Nat → Except Raised V} {vectors : List V} {parts : List (List (List Nat))}
  {result : List V}

/-- The `k`-th document starts here in the flat list of parts. -/
def offset (parts : List (List (List Nat))) (k : Nat) : Nat := ((parts.take k).map List.length).sum

theorem aggregateAll_ok (h : aggregateAll agg vectors parts = .ok result) :
    result.length = parts.length ∧ ∀ k p, parts[k]? = some p →
      ∃ v, result[k]? = some v ∧ agg ((vectors.drop (offset parts k)).take p.length) (p.map List.length) = .ok v := by
  induction parts generalizing vectors result with
  | nil =>
    cases h
    exact ⟨rfl, nofun⟩
  | cons first rest ih =>
    simp only [aggregateAll, bind_ok] at h
    obtain ⟨v, hv, vs, hvs, h⟩ := h
    cases h
    obtain ⟨hlength, hrest⟩ := ih hvs
    refine ⟨congrArg Nat.succ hlength, fun k p hp => ?_⟩
    cases k with
    | zero =>
      cases hp
      exact ⟨v, rfl, hv⟩
    | succ k =>
      obtain ⟨w, hw, hagg⟩ := hrest k p hp
      refine ⟨w, hw, ?_⟩
      have hoffset : offset (first :: rest) (k + 1) = first.length + offset rest k := rfl
      rw [hoffset, ← List.drop_drop]
      exact hagg

theorem assign_ok {tokens : Int} (h : assign agg parts vectors tokens = .ok result) :
    vectors.length = parts.flatten.length ∧ aggregateAll agg vectors parts = .ok result := by
  unfold assign at h
  split at h
  · cases h
  · rename_i hcheck
    exact ⟨not_not.1 (not_or.1 hcheck).1, h⟩

end Shares

section Batches
variable {α : Type} [IntCast α] {norm : List (Option α) → Except AppError (List α)}
  {agg : List (List α) → List Nat → Except Raised (List α)} {env : Env} {plan : Searches.Plan} {claim : Claim}
  {batch : List Db.SourceChunk} {reply : Reply α} {result : List (SearchDocument × List α)}

/-- The vectors of a document: normalised embeddings of the items whose indices are those of its parts. -/
structure Share (norm : List (Option α) → Except AppError (List α)) (data : Payload α) (start : Nat)
    (parts : List (List Nat)) (own : List (List α)) : Prop where
  length : own.length = parts.length
  item : ∀ j e, own[j]? = some e → ∃ x ∈ data.data, x.index = start + j ∧ norm x.embedding = .ok e

omit [IntCast α] in
theorem share_of_ordered {data : Payload α} {vectors : List (List α)} {n start : Nat} {p : List (List Nat)}
    (hindex : (ordered data).map (·.index) = List.range n)
    (hvectors : List.Forall₂ (fun x v => norm x.embedding = .ok v) (ordered data) vectors)
    (hfits : start + p.length ≤ n) :
    Share norm data start p ((vectors.drop start).take p.length) := by
  have hlength : vectors.length = n := by
    have hitems := congrArg List.length hindex
    rw [List.length_map, List.length_range] at hitems
    rw [← hvectors.length_eq, hitems]
  constructor
  · rw [List.length_take, List.length_drop]
    omega
  · intro j e he
    obtain ⟨hj, he⟩ := List.getElem?_eq_some_iff.1 he
    rw [List.length_take, List.length_drop] at hj
    rw [List.getElem_take, List.getElem_drop] at he
    have hitem : start + j < (ordered data).length := by rw [hvectors.length_eq]; omega
    refine ⟨(ordered data)[start + j], List.mem_mergeSort.1 (List.getElem_mem hitem), ?_, ?_⟩
    · have hat := congrArg (·[start + j]?) hindex
      rw [List.getElem?_map, List.getElem?_eq_getElem hitem, List.getElem?_range (by omega)] at hat
      exact Option.some.inj hat
    · have hnorm := hvectors.get hitem (by omega : start + j < vectors.length)
      rw [← he]
      exact hnorm

theorem offset_add_le {parts : List (List (List Nat))} {k : Nat} {p : List (List Nat)} (hp : parts[k]? = some p) :
    offset parts k + p.length ≤ parts.flatten.length := by
  induction parts generalizing k with
  | nil => cases hp
  | cons first rest ih =>
    rw [List.flatten_cons, List.length_append]
    cases k with
    | zero =>
      cases hp
      simp [offset]
    | succ k =>
      have hrest := ih hp
      have hoffset : offset (first :: rest) (k + 1) = first.length + offset rest k := rfl
      omega

/-- A batch that is prepared was answered, and every document gets its own share. -/
theorem prepare_ok (h : prepare env plan claim norm agg batch reply = .ok result) :
    ∃ raw data, reply = .response 200 (.parsed raw) ∧ Payload.validate raw = some data ∧
      Answers (batch.map (plan.parts env)).flatten data ∧ result.length = batch.length ∧
      ∀ k c, batch[k]? = some c → ∃ own v, result[k]? = some (Searches.document env plan claim c none, v) ∧
        Share norm data (offset (batch.map (plan.parts env)) k) (plan.parts env c) own ∧
        agg own ((plan.parts env c).map List.length) = .ok v := by
  simp only [prepare, bind_ok, mapError_ok] at h
  obtain ⟨response, hembed, vectors, hassign, h⟩ := h
  cases h
  obtain ⟨raw, hreply, hread⟩ := embed_ok hembed
  obtain ⟨data, hdata, hanswers, hindex, -, hvectors⟩ := readPayload_ok hread
  obtain ⟨-, haggregate⟩ := assign_ok hassign
  obtain ⟨hlength, hshares⟩ := aggregateAll_ok haggregate
  rw [List.length_map] at hlength
  refine ⟨raw, data, hreply, hdata, hanswers, ?_, fun k c hc => ?_⟩
  · unfold documents
    rw [List.length_zipWith, hlength, Nat.min_self]
  · have hp : (batch.map (plan.parts env))[k]? = some (plan.parts env c) := by
      rw [List.getElem?_map, hc]
      rfl
    obtain ⟨v, hv, hagg⟩ := hshares k _ hp
    refine ⟨_, v, ?_, share_of_ordered hindex hvectors (offset_add_le hp), hagg⟩
    unfold documents
    rw [List.getElem?_zipWith, hc, hv]

/-- A complete response, in any order, gives every document its vector; only aggregating can fail. -/
theorem prepare_answered (hi : Admissible (batch.map (plan.parts env)).flatten) {raw : Value α} {data : Payload α}
    (hdata : Payload.validate raw = some data) (hanswers : Answers (batch.map (plan.parts env)).flatten data)
    {vectors : List (List α)} (hvectors : List.Forall₂ (fun x v => norm x.embedding = .ok v) (ordered data) vectors) :
    prepare env plan claim norm agg batch (.response 200 (.parsed raw)) =
      (aggregateAll agg vectors (batch.map (plan.parts env))).map (documents env plan claim batch) := by
  obtain ⟨known, hknown⟩ := knownTokens_valid (batch.map (plan.parts env)).flatten hdata
  have hlength : vectors.length = (batch.map (plan.parts env)).flatten.length := by
    rw [← hvectors.length_eq, ordered, List.length_mergeSort, ← List.length_map (·.index), hanswers.indices.length_eq,
      List.length_range]
  unfold prepare
  dsimp only
  rw [embed_parsed hi, hknown]
  dsimp only
  rw [readPayload_answers hdata hanswers hvectors]
  dsimp only [Except.mapError, bind, Except.bind, assign]
  rw [if_neg (by simp [hlength])]
  cases aggregateAll agg vectors (batch.map (plan.parts env)) with
  | error e => rfl
  | ok result => rfl

end Batches

/-! ### The meaning of a stored vector -/

section Real
open Vectors (coords)

theorem mapM_id_eq_some {α : Type} {vector : List (Option α)} {xs : List α} :
    vector.mapM id = some xs ↔ vector = xs.map some := by
  induction vector generalizing xs with
  | nil =>
    rw [List.mapM_nil, eq_comm (a := []), List.map_eq_nil_iff]
    exact ⟨fun h => (Option.some.inj h).symm, fun h => by rw [h]; rfl⟩
  | cons v vector ih =>
    rw [List.mapM_cons]
    cases v with
    | none => cases xs <;> simp
    | some x =>
      simp only [id, Option.pure_def, Option.bind_eq_bind, Option.bind_some, Option.bind_eq_some_iff, Option.some.injEq]
      constructor
      · rintro ⟨rest, hrest, rfl⟩
        rw [ih.1 hrest, List.map_cons]
      · intro h
        cases xs with
        | nil => cases h
        | cons y rest =>
          obtain ⟨hx, hrest⟩ := List.cons.inj h
          exact ⟨rest, ih.2 hrest, by rw [Option.some.inj hx]⟩

theorem normalize_ok {vector : List (Option ℝ)} {w : List ℝ} (h : normalize vector = .ok w) :
    ∃ xs, vector = xs.map some ∧ xs.length = dimensions ∧ w.length = dimensions ∧
      coords dimensions w = NormedSpace.normalize (coords dimensions xs) := by
  unfold normalize at h
  split at h
  · cases h
  rename_i xs hxs
  split at h
  · cases h
  rename_i hlength
  split at h
  · cases h
  cases h
  rw [not_not] at hlength
  exact ⟨xs, mapM_id_eq_some.1 hxs, hlength, (List.length_map _).trans hlength, Vectors.coords_normalize xs hlength⟩

theorem aggregate_ok {p : Nat} {own : List (List ℝ)} {lengths : List Nat} {v : List ℝ} (hp : lengths.length = p)
    (h : aggregate own lengths = .ok v) :
    v.length = dimensions ∧ own.length = p ∧
      coords dimensions v = NormedSpace.normalize (Finset.univ.centerMass (fun j : Fin p => (lengths.getD j 0 : ℝ))
        fun j => NormedSpace.normalize (coords dimensions (own.getD j []))) := by
  unfold aggregate at h
  split at h
  · cases h
  rename_i hcheck
  obtain ⟨-, hcheck⟩ := not_or.1 hcheck
  have hlength : own.length = p := (not_not.1 (not_or.1 hcheck).1).trans hp
  simp only [bind_ok] at h
  obtain ⟨valid, hvalid, h⟩ := h
  have hnorms := mapM_ok hvalid
  have hvalidLength : valid.length = p := by rw [← hnorms.length_eq, hlength]
  obtain ⟨xs, hxs, -, hv, hcoords⟩ := normalize_ok (lift_ok.1 h)
  have hmean : xs = (List.range dimensions).map fun i =>
      (List.zipWith (fun (v : List ℝ) (n : Nat) => v.getD i 0 * n / (lengths.sum : Nat)) valid lengths).sum := by
    refine List.map_injective_iff.2 (Option.some_injective ℝ) ?_
    rw [← hxs, List.map_map]
    rfl
  have hvectors : (fun j : Fin p => coords dimensions (valid.getD j [])) =
      fun j : Fin p => NormedSpace.normalize (coords dimensions (own.getD j [])) := by
    funext j
    have hj : (j : Nat) < own.length := by omega
    have hj' : (j : Nat) < valid.length := by omega
    rw [List.getD_eq_getElem _ _ hj, List.getD_eq_getElem _ _ hj']
    obtain ⟨ys, hys, -, -, hw⟩ := normalize_ok (lift_ok.1 (hnorms.get hj hj'))
    have hown : own[(j : Nat)] = ys := List.map_injective_iff.2 (Option.some_injective ℝ) hys
    rw [hown]
    exact hw
  refine ⟨hv, hlength, ?_⟩
  rw [hcoords, hmean, Vectors.coords_mean valid lengths hvalidLength hp, hvectors]

/-- The vector is the aggregate of the normalised embeddings of the items from `start` on, one for each part. -/
def Meaning (data : Payload ℝ) (start : Nat) (parts : List (List Nat)) (v : List ℝ) : Prop :=
  ∃ xs : Fin parts.length → List ℝ,
    (∀ j, (xs j).length = dimensions ∧ ⟨start + j, (xs j).map some⟩ ∈ data.data) ∧ v.length = dimensions ∧
      coords dimensions v = NormedSpace.normalize (Finset.univ.centerMass (fun j => (parts[j].length : ℝ))
        fun j => NormedSpace.normalize (coords dimensions (xs j)))

theorem Share.meaning {data : Payload ℝ} {start : Nat} {parts : List (List Nat)} {own : List (List ℝ)} {v : List ℝ}
    (hshare : Share normalize data start parts own) (h : aggregate own (parts.map List.length) = .ok v) :
    Meaning data start parts v := by
  have hitem (j : Fin parts.length) : ∃ xs : List ℝ, xs.length = dimensions ∧ ⟨start + j, xs.map some⟩ ∈ data.data ∧
      coords dimensions (own.getD j []) = NormedSpace.normalize (coords dimensions xs) := by
    have hj : (j : Nat) < own.length := by rw [hshare.length]; exact j.2
    obtain ⟨⟨index, embedding⟩, hx, rfl, hnorm⟩ := hshare.item j _ (List.getElem?_eq_getElem hj)
    obtain ⟨xs, rfl, hlength, -, hcoords⟩ := normalize_ok hnorm
    rw [List.getD_eq_getElem _ _ hj]
    exact ⟨xs, hlength, hx, hcoords⟩
  choose xs hlength hmem hcoords using hitem
  obtain ⟨hv, -, hmean⟩ := aggregate_ok (List.length_map _) h
  refine ⟨xs, fun j => ⟨hlength j, hmem j⟩, hv, ?_⟩
  have hweights : (fun j : Fin parts.length => ((parts.map List.length).getD j 0 : ℝ)) = fun j =>
    (parts[j].length : ℝ) := by
    funext j
    rw [List.getD_eq_getElem _ _ (by rw [List.length_map]; exact j.2), List.getElem_map]
    rfl
  have hvectors : (fun j : Fin parts.length => NormedSpace.normalize (coords dimensions (own.getD j []))) =
      fun j => NormedSpace.normalize (coords dimensions (xs j)) := by
    funext j
    rw [hcoords, NormedSpace.normalize_normalize]
  rw [hmean, hweights, hvectors]

end Real

/-! ### What the worker stores -/

section Stored
variable {env : Env} {claim : Claim} {plan : Searches.Plan} {pending : List Db.SourceChunk}
  {provider : Option EmbeddingProvider} {norm : List (Option ℚ) → Except AppError Vector} {reply : Reply ℚ}

/-- The answer of the provider to the worker. -/
def answer (norm : List (Option ℚ) → Except AppError Vector) (inputs : List (List Nat)) (reply : Reply ℚ) :
    Searches.Input :=
  match embed norm inputs reply with
  | .ok response => .embedded ⟨response.vectors, response.inputTokens⟩
  | .error e => .raised (raised e)

/-- The documents that a delivery stores, whatever becomes of the database between its steps. -/
def stored (env : Env) (claim : Claim) (provider : Option EmbeddingProvider) :
    Searches.Pc → List (Time × Searches.Input × Db) → List SearchDocument
  | _, [] => []
  | pc, (now, input, db) :: rest =>
    let next := Searches.step env now claim provider input pc db
    next.2.documents.drop db.documents.length ++ stored env claim provider next.1 rest

theorem tokenCount_flatten (cs : List Db.SourceChunk) :
    Searches.tokenCount (cs.map (plan.parts env)).flatten = plan.tokens env cs := by
  unfold Searches.tokenCount Searches.Plan.tokens
  rw [List.map_flatten, List.sum_flatten, List.map_map, List.map_map]
  rfl

theorem aggregateAll_some (vectors : List Vector) (parts : List (List (List Nat))) :
    Searches.aggregateAll env vectors parts = (aggregateAll env.aggregate vectors parts).map (·.map some) := by
  induction parts generalizing vectors with
  | nil => rfl
  | cons first rest ih =>
    unfold Searches.aggregateAll aggregateAll
    rw [ih]
    cases env.aggregate (vectors.take first.length) (first.map List.length) with
    | error e => rfl
    | ok v =>
      cases aggregateAll env.aggregate (vectors.drop first.length) rest with
      | error e => rfl
      | ok vs => rfl

theorem documents_vectors {batch : List Db.SourceChunk} {vectors : List Vector} (h : vectors.length = batch.length) :
    (documents env plan claim batch vectors).map (fun d => some d.2) = vectors.map some := by
  induction batch generalizing vectors with
  | nil =>
    rw [List.length_eq_zero_iff.1 h]
    rfl
  | cons c batch ih =>
    cases vectors with
    | nil => cases h
    | cons v vectors => exact congrArg (some v :: ·) (ih (Nat.succ.inj h))

/-- A document with its vector. -/
def withVector (d : SearchDocument × Vector) : SearchDocument := { d.1 with embedding := some d.2 }

theorem documents_withVector (batch : List Db.SourceChunk) (vectors : List Vector) :
    List.zipWith (Searches.document env plan claim) batch (vectors.map some) =
      (documents env plan claim batch vectors).map withVector := by
  unfold documents
  rw [List.zipWith_map_right, List.map_zipWith]
  rfl

/-- The step of the worker after the request is `prepare`. -/
theorem step_answer (now : Time) (db : Db) :
    Searches.step env now claim provider (answer norm ((Searches.head pending).map (plan.parts env)).flatten reply)
        (.embedding plan pending) db =
      (match prepare env plan claim norm env.aggregate (Searches.head pending) reply with
        | .error e => Searches.handler e
        | .ok docs => .checkpoint plan pending (docs.map fun d => some d.2) (plan.tokens env (Searches.head pending)),
          db) := by
  unfold answer prepare
  dsimp only
  cases embed norm ((Searches.head pending).map (plan.parts env)).flatten reply with
  | error e => rfl
  | ok response =>
    show (Searches.embedded env plan pending ⟨response.vectors, response.inputTokens⟩, db) = _
    unfold Searches.embedded
    dsimp only [Except.mapError, bind, Except.bind]
    unfold assign
    rw [tokenCount_flatten]
    split
    · rfl
    · rename_i hcheck
      rw [aggregateAll_some]
      cases hvs : aggregateAll env.aggregate response.vectors ((Searches.head pending).map (plan.parts env)) with
      | error e => rfl
      | ok vs =>
        have hlength := (aggregateAll_ok hvs).1
        rw [List.length_map] at hlength
        show (Searches.Pc.checkpoint _ _ (vs.map some) _, db) = (Searches.Pc.checkpoint _ _ _ _, db)
        rw [documents_vectors hlength]

/-- After the last step nothing is stored. -/
theorem stored_stopped {pc : Searches.Pc} (hpc : pc = .done ∨ ∃ code message, pc = .failing code message)
    (steps : List (Time × Searches.Input × Db)) : stored env claim provider pc steps = [] := by
  induction steps generalizing pc with
  | nil => rfl
  | cons s steps ih =>
    obtain ⟨now, input, db⟩ := s
    have hstep : (Searches.step env now claim provider input pc db).2.documents = db.documents ∧
        (Searches.step env now claim provider input pc db).1 = .done ∨
        (Searches.step env now claim provider input pc db) = (pc, db) := by
      rcases hpc with rfl | ⟨code, message, rfl⟩
      · exact .inr rfl
      · cases input with
        | go => exact .inl ⟨rfl, rfl⟩
        | embedded response => exact .inr rfl
        | raised e => exact .inr rfl
    unfold stored
    dsimp only
    rcases hstep with ⟨hdocuments, hdone⟩ | hsame
    · rw [hdocuments, hdone, ih (.inl rfl)]
      simp
    · rw [hsame, ih hpc]
      simp

theorem stored_error {e : Raised}
    (h : prepare env plan claim norm env.aggregate (Searches.head pending) reply = .error e) (now : Time) (db : Db)
    (rest : List (Time × Searches.Input × Db)) :
    stored env claim provider (.embedding plan pending)
      ((now, answer norm ((Searches.head pending).map (plan.parts env)).flatten reply, db) :: rest) = [] := by
  unfold stored
  rw [step_answer, h]
  dsimp only
  rw [stored_stopped (Searches.handler_stops e), List.drop_length, List.append_nil]

/-- The documents of a prepared batch are stored as they are, if at all. -/
theorem stored_prepare {docs : List (SearchDocument × Vector)}
    (h : prepare env plan claim norm env.aggregate (Searches.head pending) reply = .ok docs) (now now' : Time)
    (db db' : Db) :
    stored env claim provider (.embedding plan pending)
        [(now, answer norm ((Searches.head pending).map (plan.parts env)).flatten reply, db), (now', .go, db')] ∈
      [[], docs.map withVector] := by
  have hdocs : ∃ vectors : List Vector, vectors.length = (Searches.head pending).length ∧
      docs = documents env plan claim (Searches.head pending) vectors := by
    simp only [prepare, bind_ok] at h
    obtain ⟨response, -, vectors, hassign, h⟩ := h
    cases h
    have hlength := (aggregateAll_ok (assign_ok hassign).2).1
    rw [List.length_map] at hlength
    exact ⟨vectors, hlength, rfl⟩
  unfold stored
  rw [step_answer, h]
  dsimp only
  unfold stored stored
  rw [List.drop_length, List.nil_append, List.append_nil]
  obtain ⟨vectors, hlength, rfl⟩ := hdocs
  rw [documents_vectors hlength]
  show (Searches.store env now' claim plan pending (vectors.map some) _ db').2.documents.drop _ ∈ _
  unfold Searches.store
  dsimp only
  rw [documents_withVector]
  split
  · rw [List.drop_length]
    exact List.mem_cons_self
  · rename_i db'' hcheckpoint
    split
    · unfold Searches.checkpoint at hcheckpoint
      obtain ⟨searches, -, rfl⟩ := Option.map_eq_some_iff.1 hcheckpoint
      rw [List.drop_left]
      exact List.mem_cons_of_mem _ List.mem_cons_self
    · rw [List.drop_length]
      exact List.mem_cons_self

end Stored

theorem prepare_refused {α : Type} [IntCast α] {norm : List (Option α) → Except AppError (List α)}
    {agg : List (List α) → List Nat → Except Raised (List α)} {env : Env} {plan : Searches.Plan} {claim : Claim}
    {batch : List Db.SourceChunk} {raw : Value α}
    (h : ∀ data, Payload.validate raw = some data → ¬ Answers (batch.map (plan.parts env)).flatten data) :
    ∃ e, prepare env plan claim norm agg batch (.response 200 (.parsed raw)) = .error e := by
  cases hprepare : prepare env plan claim norm agg batch (.response 200 (.parsed raw)) with
  | error e => exact ⟨e, rfl⟩
  | ok docs =>
    obtain ⟨raw', data, hreply, hdata, hanswers, -⟩ := prepare_ok hprepare
    cases hreply
    exact absurd hanswers (h data hdata)

end Embeddings
end RepoPilot
