import RepoPilot.Answers
import RepoPilot.JobChanges

/-! # What one step of an answer can do

`Effect` lists it once; everything proved about answers is a case analysis on it. -/

namespace RepoPilot
open Generation

namespace Answers

/-- A failure of the process that leaves the tables alone. -/
def Pc.Raising : Pc → Prop
  | .raised _ => True
  | _ => False

theorem searchRaise_raising (e : Raised) : (searchRaise e).Raising := by
  cases e <;> exact trivial

theorem answerRaise_raising (e : Raised) : (answerRaise e).Raising := by
  cases e <;> exact trivial

/-- The candidates were read: keyword search goes on to loading, semantic search to the provider. -/
inductive Selected (c : Call) (plan : Plan) (channels : List (String × List Uuid)) : Pc → Prop
  | raised {pc : Pc} (h : pc.Raising) : Selected c plan channels pc
  | keyword (h : c.request.mode = .keyword) : Selected c plan channels (.load plan channels 0)
  | hybrid (p : EmbeddingProvider) (h : c.request.mode = .hybrid) :
    Selected c plan channels (.beginEmbedding plan channels p)

/-- The provider's answer is used or refused; it is used only if its usage is the number of tokens sent. -/
inductive Embedded (plan : Plan) (channels : List (String × List Uuid)) (p : EmbeddingProvider)
    (response : EmbeddingBatch) : Pc → Prop
  | raised {pc : Pc} (h : pc.Raising) : Embedded plan channels p response pc
  | used (query : Vector) (h : response.inputTokens = partsTokens (p.tokenize plan.query)) :
    Embedded plan channels p response (.vector plan channels query (partsTokens (p.tokenize plan.query)))

/-- A search result leads to an answer without a model, to a model, or to an error. -/
inductive Retrieving (env : Env) (c : Call) (retrieved : Retrieved) : Pc → Prop
  | raised {pc : Pc} (h : pc.Raising) : Retrieving env c retrieved pc
  | empty {answer : AnswerResponse} (hs : ∀ e ∈ c.expectedSourceId, retrieved.sourceIndexId = e)
    (h : respond env c.settings c.answerId retrieved none c.history [] = some answer) :
    Retrieving env c retrieved (.answered answer)
  | found (payload : Text) (included : List HistoryTurn) (model : Text)
    (hs : ∀ e ∈ c.expectedSourceId, retrieved.sourceIndexId = e) :
    Retrieving env c retrieved (.beginGeneration retrieved payload included model)

/-- A validated result leads to an answer whose citations were checked, or to an error. -/
inductive Concluding (env : Env) (c : Call) (retrieved : Retrieved) (included : List HistoryTurn)
    (result : GenerationResult) : Pc → Prop
  | raised {pc : Pc} (h : pc.Raising) : Concluding env c retrieved included result pc
  | answered {answer : AnswerResponse} (hc : Cited (claimsOf (some result)) retrieved.context)
    (h : respond env c.settings c.answerId retrieved (some result) c.history included = some answer) :
    Concluding env c retrieved included result (.answered answer)

section Local
variable {env : Env} {c : Call}

theorem candidates_selected (plan : Plan) (channels : List (String × List Uuid)) :
    Selected c plan channels (candidates c plan channels) := by
  unfold candidates
  split
  · rename_i hm
    exact .keyword hm
  · rename_i hm
    split
    · exact .raised trivial
    · split
      · exact .raised trivial
      · split
        · exact .raised trivial
        · exact .hybrid _ hm

theorem embedded_embedded (plan : Plan) (channels : List (String × List Uuid)) (p : EmbeddingProvider)
    (response : EmbeddingBatch) : Embedded plan channels p response (embedded env plan channels p response) := by
  unfold embedded
  dsimp only
  split
  · exact .raised trivial
  · rename_i h
    split
    · exact .raised (searchRaise_raising _)
    · exact .used _ (not_not.1 fun hne => h (.inr hne))

theorem retrieve_retrieving (retrieved : Retrieved) : Retrieving env c retrieved (retrieve env c retrieved) := by
  unfold retrieve
  split
  · exact .raised trivial
  rename_i hs
  have hs : ∀ e ∈ c.expectedSourceId, retrieved.sourceIndexId = e := fun e he =>
    not_not.1 fun hne => hs ⟨e, he, hne⟩
  split
  · unfold respondWith
    split
    · exact .raised trivial
    · rename_i h
      exact .empty hs h
  · split
    · exact .raised trivial
    · exact .raised trivial
    · exact .found _ _ _ hs

theorem conclude_concluding (retrieved : Retrieved) (included : List HistoryTurn) (result : GenerationResult) :
    Concluding env c retrieved included result (conclude env c retrieved included result) := by
  have hrespond : Cited (claimsOf (some result)) retrieved.context →
      Concluding env c retrieved included result (respondWith env c retrieved (some result) included) := by
    intro hc
    unfold respondWith
    split
    · exact .raised trivial
    · rename_i h
      exact .answered hc h
  unfold conclude
  split
  · rename_i hd
    refine hrespond fun cl hcl => ?_
    simp [claimsOf, hd] at hcl
  · rename_i draft hd
    split
    · exact .raised trivial
    · rename_i u hv
      refine hrespond ?_
      have : claimsOf (some result) = draft.claims := by simp [claimsOf, hd]
      rw [this]
      exact cited_of_validateCitations hv

end Local

/-- What a step does to the process and to the tables. -/
inductive Effect (env : Env) (now : Time) (c : Call) (input : Input) (pc : Pc) (db : Db) (t : Tables) :
    Pc → Tables → Prop
  | idle (hc : providerCall pc input = none) : Effect env now c input pc db t pc t
  | raised {pc' : Pc} (h : pc'.Raising) (hc : providerCall pc input = none) : Effect env now c input pc db t pc' t
  | authorized {query : Text} (hpc : pc = .authorize) : Effect env now c input pc db t (.source query) t
  | sourced {query : Text} {importId : Uuid} (hpc : pc = .source query) :
    Effect env now c input pc db t (.index query importId) t
  | indexed {query : Text} {importId : Uuid} {source : RepositoryIndex} (hpc : pc = .index query importId)
    (h : db.activeIndex c.repositoryId importId = some source) :
    Effect env now c input pc db t (.active query source) t
  | fell {query : Text} {source : RepositoryIndex} (hpc : pc = .active query source) (hm : c.request.mode = .keyword)
    (h : db.activeSearch c.repositoryId source.id .keyword = none) :
    Effect env now c input pc db t (.fallback query source) t
  | planned {query : Text} {source : RepositoryIndex} {index : SearchIndex}
    (hpc : pc = .active query source ∨ pc = .fallback query source) :
    Effect env now c input pc db t (.quota (planOf query source index)) t
  | admitted {plan : Plan} (hpc : pc = .quota plan) : Effect env now c input pc db t (.lexical plan) t
  | lexical {plan : Plan} {ids : List Uuid} (hpc : pc = .lexical plan) :
    Effect env now c input pc db t (.symbols plan ids) t
  | selected {plan : Plan} {ids : List Uuid} {channels : List (String × List Uuid)} {pc' : Pc}
    (hpc : pc = .symbols plan ids) (h : Selected c plan channels pc') : Effect env now c input pc db t pc' t
  | beganEmbedding {plan : Plan} {channels : List (String × List Uuid)} {p : EmbeddingProvider}
    {receipt : Option Uuid} {t' : Tables} (hpc : pc = .beginEmbedding plan channels p)
    (h : beginReceipt now c input .queryEmbedding p.profile c.settings.embeddingPrice 0 t = some (.ok (receipt, t'))) :
    Effect env now c input pc db t (.embed plan channels p receipt) t'
  | calledEmbed {plan : Plan} {channels : List (String × List Uuid)} {p : EmbeddingProvider}
    {receipt : Option Uuid} (hpc : pc = .embed plan channels p receipt) (hin : input = .go) :
    Effect env now c input pc db t (.embedding plan channels p receipt) t
  | embedded {plan : Plan} {channels : List (String × List Uuid)} {p : EmbeddingProvider}
    {receipt : Option Uuid} {response : EmbeddingBatch} (hpc : pc = .embedding plan channels p receipt) :
    Effect env now c input pc db t (.finishEmbedding plan channels p receipt response) t
  | failedCall {receipt : Option Uuid} {i o : Int} {e : Raised}
    (hpc : (∃ plan channels p, pc = .embedding plan channels p receipt) ∨
      ∃ retrieved included preview, pc = .generating retrieved included receipt preview) :
    Effect env now c input pc db t (.recordUsage receipt i o e) t
  | finishedEmbedding {plan : Plan} {channels : List (String × List Uuid)} {p : EmbeddingProvider}
    {receipt : Option Uuid} {response : EmbeddingBatch} {pc' : Pc} {t' : Tables}
    (hpc : pc = .finishEmbedding plan channels p receipt response)
    (hf : finishReceipt now receipt response.inputTokens 0 t = .ok t') (h : Embedded plan channels p response pc') :
    Effect env now c input pc db t pc' t'
  | vectored {plan : Plan} {channels channels' : List (String × List Uuid)} {query : Vector} {usage : Nat}
    (hpc : pc = .vector plan channels query usage) : Effect env now c input pc db t (.load plan channels' usage) t
  | loaded {plan : Plan} {channels : List (String × List Uuid)} {usage : Nat} {ids : Option (List Uuid)}
    {ranked : List Ranked} {found : List SearchHit} {pc' : Pc} (hpc : pc = .load plan channels usage)
    (hf : Retrieval.hits (db.sourceChunks plan.sourceId ids) ranked = some found)
    (h : Retrieving env c (retrievedOf env c plan found usage) pc') : Effect env now c input pc db t pc' t
  | beganGeneration {retrieved : Retrieved} {payload : Text} {included : List HistoryTurn} {model : Text}
    {receipt : Option Uuid} {t' : Tables} (hpc : pc = .beginGeneration retrieved payload included model)
    (h : beginReceipt now c input .generation model c.settings.answerInputPrice c.settings.answerOutputPrice t =
      some (.ok (receipt, t'))) :
    Effect env now c input pc db t (.generate retrieved payload included receipt) t'
  | calledGenerate {retrieved : Retrieved} {payload : Text} {included : List HistoryTurn} {receipt : Option Uuid}
    (hpc : pc = .generate retrieved payload included receipt) (hin : input = .go) :
    Effect env now c input pc db t (.generating retrieved included receipt .empty) t
  | streamed {retrieved : Retrieved} {included : List HistoryTurn} {receipt : Option Uuid}
    {preview preview' : Preview} (hpc : pc = .generating retrieved included receipt preview) :
    Effect env now c input pc db t (.generating retrieved included receipt preview') t
  | previewed {retrieved : Retrieved} {included : List HistoryTurn} {receipt : Option Uuid}
    {preview preview' : Preview} {runId token : Uuid} {raw : Text}
    (hpc : pc = .generating retrieved included receipt preview) (hrun : c.run = some (runId, token)) :
    Effect env now c input pc db t (.generating retrieved included receipt preview')
      { t with runs :=
        Table.update (AcceptsPreview now runId token) (previewed (previewText env raw)) t.runs }
  | generated {retrieved : Retrieved} {included : List HistoryTurn} {receipt : Option Uuid} {preview : Preview}
    {result : GenerationResult} (hpc : pc = .generating retrieved included receipt preview) :
    Effect env now c input pc db t (.finishGeneration retrieved included receipt result) t
  | finishedGeneration {retrieved : Retrieved} {included : List HistoryTurn} {receipt : Option Uuid}
    {result : GenerationResult} {pc' : Pc} {t' : Tables}
    (hpc : pc = .finishGeneration retrieved included receipt result)
    (hf : finishReceipt now receipt result.inputTokens result.outputTokens t = .ok t')
    (h : Concluding env c retrieved included result pc') : Effect env now c input pc db t pc' t'
  | recorded {receipt : Option Uuid} {i o : Int} {e : Raised} {t' : Tables} (hpc : pc = .recordUsage receipt i o e)
    (hf : finishReceipt now receipt i o t = .ok t') : Effect env now c input pc db t (.raised e) t'

section Steps
variable {env : Env} {now : Time} {c : Call} {input : Input} {db : Db} {t : Tables}

theorem authorize_effect (limit : Option AppError) :
    Effect env now c input .authorize db t (authorize env c limit db) t := by
  unfold authorize
  split
  · exact .raised trivial rfl
  · split
    · exact .raised trivial rfl
    · split
      · exact .raised trivial rfl
      · split
        · exact .raised trivial rfl
        · exact .authorized rfl

theorem load_effect (plan : Plan) (channels : List (String × List Uuid)) (usage : Nat) :
    Effect env now c input (.load plan channels usage) db t (load env c plan channels usage db) t := by
  unfold load
  dsimp only
  split
  · exact .raised trivial rfl
  · rename_i found hf
    exact .loaded rfl hf (retrieve_retrieving _)

theorem delta_effect {retrieved : Retrieved} {included : List HistoryTurn} {receipt : Option Uuid}
    {preview preview' : Preview} {runId token : Uuid} {value : Text} {clock : Time} {t' : Tables}
    (hrun : c.run = some (runId, token)) (h : delta env now runId token value clock preview t = .ok (preview', t')) :
    Effect env now c input (.generating retrieved included receipt preview) db t
      (.generating retrieved included receipt preview') t' := by
  unfold delta at h
  dsimp only at h
  split at h
  · cases h
  split at h
  · cases h
    exact .streamed rfl
  split at h
  · cases h
    exact .streamed rfl
  split at h
  · cases h
    exact .previewed rfl hrun
  · cases h

theorem step_effect (env : Env) (now : Time) (c : Call) (input : Input) (pc : Pc) (db : Db) (t : Tables) :
    Effect env now c input pc db t (step env now c input pc db t).1 (step env now c input pc db t).2 := by
  unfold step
  split
  · exact .idle rfl
  · exact .idle rfl
  · exact authorize_effect _
  · split
    · exact .raised trivial rfl
    · exact .sourced rfl
  · split
    · exact .raised trivial rfl
    · exact .indexed rfl ‹_›
  · split
    · exact .planned (.inl rfl)
    · rename_i hn
      split
      · rename_i hm
        exact .fell rfl hm (hm ▸ hn)
      · exact .raised trivial rfl
  · split
    · exact .planned (.inr rfl)
    · exact .raised trivial rfl
  · split
    · exact .raised trivial rfl
    · exact .admitted rfl
  · exact .lexical rfl
  · exact .selected rfl (candidates_selected _ _)
  · exact .calledEmbed rfl rfl
  · exact .embedded rfl
  · exact .failedCall (.inl ⟨_, _, _, rfl⟩)
  · split
    · exact .raised (searchRaise_raising _) rfl
    · exact .finishedEmbedding rfl ‹_› (embedded_embedded _ _ _ _)
  · exact .vectored rfl
  · exact load_effect _ _ _
  · exact .calledGenerate rfl rfl
  · split
    · exact .idle rfl
    · rename_i hrun
      split
      · exact .idle rfl
      · split
        · exact .raised trivial rfl
        · exact delta_effect hrun ‹_›
  · split
    · exact .raised trivial rfl
    · exact .generated rfl
  · exact .failedCall (.inr ⟨_, _, _, rfl⟩)
  · split
    · exact .raised (answerRaise_raising _) rfl
    · exact .finishedGeneration rfl ‹_› (conclude_concluding _ _ _)
  · split
    · exact .raised (answerRaise_raising _) rfl
    · exact .recorded rfl ‹_›
  · refine .raised ?_ (by cases pc <;> rfl)
    split
    · exact searchRaise_raising _
    · exact answerRaise_raising _
  · split
    · exact .idle rfl
    · exact .raised (searchRaise_raising _) rfl
    · exact .beganEmbedding rfl ‹_›
  · split
    · exact .idle rfl
    · exact .raised (answerRaise_raising _) rfl
    · exact .beganGeneration rfl ‹_›
  · refine .idle ?_
    unfold providerCall
    split
    · simp_all only [reduceCtorEq, implies_true, forall_const, Pc.embed.injEq]
      rename_i hembed
      exact hembed _ _ _ _ ⟨rfl, rfl, rfl, rfl⟩
    · simp_all only [reduceCtorEq, implies_true, forall_const, Pc.generate.injEq]
      rename_i hgenerate
      exact hgenerate _ _ _ _ ⟨rfl, rfl, rfl, rfl⟩
    · rfl

end Steps
end Answers
end RepoPilot
