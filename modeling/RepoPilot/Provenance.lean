import RepoPilot.Generations
import RepoPilot.JobGuarantees

/-! # Where evidence comes from

Every piece of evidence quotes a stored chunk of the index its answer names, and the chunk is an exact
slice of a file of the import that index was built from. `Backed` says so of a list of evidence. The
processes carry it from the source they read to the message they save, and it lasts as long as the
repository does. -/

namespace RepoPilot
open Generation

/-! ### Quotations -/

namespace Db

/-- The evidence `e` is the chunk `c` of the file `f`, read from the index `x`. -/
structure Quotes (db : Db) (x : RepositoryIndex) (e : Evidence) (c : CodeChunk) (f : RepositoryFile) : Prop where
  chunk : c ∈ db.chunks
  file : f ∈ db.files
  chunkId : c.id = e.chunkId
  index : c.indexId = x.id
  fileId : c.fileId = f.id
  source : f.importJobId = x.data.importJobId
  path : f.path = e.path
  content : e.content = slice f.content c.chunk.startOffset c.chunk.endOffset
  startLine : e.startLine = c.chunk.startLine
  endLine : e.endLine = c.chunk.endLine
  commitSha : e.commitSha = x.data.commitSha

/-- `sourceId` is a completed index of the repository at that commit, and the evidence quotes it. -/
def Backed (db : Db) (repositoryId sourceId : Uuid) (commitSha : Text) (evidence : List Evidence) : Prop :=
  ∃ x ∈ db.indexes, x.id = sourceId ∧ x.repositoryId = repositoryId ∧ x.status = .completed ∧
    x.data.commitSha = commitSha ∧ ∀ e ∈ evidence, ∃ c f, db.Quotes x e c f

/-- A file is found by its identifier, and chunks are cut from the files of their import. -/
structure Sliced (db : Db) : Prop where
  fileKeys : Table.Keyed RepositoryFile.id db.files
  cut : ∀ c ∈ db.chunks, ∀ x ∈ db.indexes, x.id = c.indexId →
    Indexes.Cut db x.data.importJobId c.fileId c.chunk

section Backed
variable {db db' : Db} {repositoryId sourceId : Uuid} {commitSha : Text} {evidence : List Evidence}

theorem backed_of_activeIndex {importId : Uuid} {source : RepositoryIndex}
    (h : db.activeIndex repositoryId importId = some source) :
    db.Backed repositoryId source.id source.data.commitSha [] := by
  obtain ⟨hm, hr, -, hs⟩ := activeIndex_eq h
  exact ⟨source, hm, rfl, hr, hs, rfl, List.forall_mem_nil _⟩

/-- The evidence chosen among the hits of an index quotes it. -/
theorem Backed.hits (h : db.Backed repositoryId sourceId commitSha evidence) (hs : db.Sliced) {env : Env}
    {ids : Option (List Uuid)} {ranked : List Ranked} {found : List SearchHit} {budget : Nat}
    (hf : Retrieval.hits (db.sourceChunks sourceId ids) ranked = some found) :
    db.Backed repositoryId sourceId commitSha (Retrieval.buildContext env found commitSha budget).1 := by
  obtain ⟨x, hx, hid, hr, hst, hsha, -⟩ := h
  refine ⟨x, hx, hid, hr, hst, hsha, fun e he => ?_⟩
  obtain ⟨n, y, hy, rfl⟩ := Retrieval.mem_buildContext he
  obtain ⟨item, -, k, hk, rfl⟩ := Retrieval.mem_hits hf hy
  obtain ⟨c, hc, hci, f, hfm, hfid, rfl⟩ := mem_sourceChunks hk
  obtain ⟨f', hfm', hfid', himp, hex⟩ := hs.cut c hc x hx (hid.trans hci.symm)
  have hsame : f' = f := hs.fileKeys.eq hfm' hfm (hfid'.trans hfid.symm)
  subst hsame
  exact ⟨c, f', {
    chunk := hc
    file := hfm
    chunkId := rfl
    index := hci.trans hid.symm
    fileId := hfid.symm
    source := himp
    path := rfl
    content := hex
    startLine := rfl
    endLine := rfl
    commitSha := hsha.symm }⟩

/-- What is quoted stays as long as the repository's generations and the files of its imports do. -/
theorem Backed.lasting (h : db.Backed repositoryId sourceId commitSha evidence) (hl : Lasting repositoryId db db')
    (hf : ∀ x ∈ db'.indexes, ∀ f ∈ db.files, f.importJobId = x.data.importJobId → f ∈ db'.files) :
    db'.Backed repositoryId sourceId commitSha evidence := by
  obtain ⟨x, hx, hid, hr, hst, hsha, hq⟩ := h
  obtain ⟨⟨x', hx', hre⟩, -, hchunks⟩ := hl.indexes x hx hr hst
  have hfiled := hre.filed
  have hdata : x'.data = x.data := hfiled.data_eq
  refine ⟨x', hx', hfiled.id_eq.trans hid, hfiled.repositoryId_eq.trans hr, hfiled.status_eq.trans hst, ?_,
    fun e he => ?_⟩
  · rw [hdata]
    exact hsha
  · obtain ⟨c, f, q⟩ := hq e he
    have hc : c ∈ db.chunks.filter (·.indexId = x.id) := List.mem_filter.2 ⟨q.chunk, decide_eq_true q.index⟩
    rw [← hchunks] at hc
    have hsource : f.importJobId = x'.data.importJobId := by
      rw [hdata]
      exact q.source
    have hsha' : e.commitSha = x'.data.commitSha := by
      rw [hdata]
      exact q.commitSha
    exact ⟨c, f, { q with
      chunk := List.mem_of_mem_filter hc
      file := hf x' hx' f q.file hsource
      index := q.index.trans hfiled.id_eq.symm
      source := hsource
      commitSha := hsha' }⟩

end Backed
end Db

namespace Jobs
variable {w : World} {s : Jobs}

theorem ContentInv.sliced (h : ContentInv w s) : s.db.Sliced := ⟨h.fileKeys, h.cut⟩

/-- An import has one file under a path. -/
theorem OutputInv.onePath (h : OutputInv w s) {f f' : RepositoryFile} (hf : f ∈ s.db.files) (hf' : f' ∈ s.db.files)
    (hi : f'.importJobId = f.importJobId) (hp : f'.path = f.path) : f' = f := by
  obtain ⟨j, hj, hid, hc⟩ := h.files.owner f hf
  obtain ⟨i, k, source, result, ids, -, -, -, hlen, hrows, -⟩ := h.importsPublished.result j hj hc
  have hkeyed : Table.Keyed RepositoryFile.path (s.db.files.filter (·.importJobId = j.id)) := by
    unfold Table.Keyed
    rw [hrows, List.map_zipWith]
    have hpaths : List.zipWith (fun id file => (Imports.fileRow k.claim id file).path) ids result.files =
        result.files.map (·.path) := Table.zipWith_right (g := ImportedFile.path) (fun _ _ => rfl) hlen
    rw [hpaths]
    exact result.paths
  refine hkeyed.eq (List.mem_filter.2 ⟨hf', ?_⟩) (List.mem_filter.2 ⟨hf, ?_⟩) hp
  · exact decide_eq_true (hi.trans hid.symm)
  · exact decide_eq_true hid.symm

end Jobs

/-! ### Answers -/

/-- An answer whose claims cite its evidence, and whose evidence quotes the repository. -/
structure Sound (db : Db) (repositoryId : Uuid) (answer : AnswerResponse) : Prop where
  cited : Cited answer.claims answer.evidence
  backed : db.Backed repositoryId answer.sourceIndexId answer.commitSha answer.evidence

theorem Sound.carried {db db' : Db} {repositoryId : Uuid} {answer : AnswerResponse} (h : Sound db repositoryId answer)
    (hb : ∀ {sourceId commitSha evidence}, db.Backed repositoryId sourceId commitSha evidence →
      db'.Backed repositoryId sourceId commitSha evidence) : Sound db' repositoryId answer :=
  ⟨h.cited, hb h.backed⟩

/-- The call was not pinned to another source. -/
def Call.Accepts (c : Call) (sourceId : Uuid) : Prop := ∀ e ∈ c.expectedSourceId, sourceId = e

namespace Answers
variable {env : Env} {now : Time} {c : Call} {input : Input} {pc pc' : Pc} {db db' : Db} {t t' : Tables}

/-- What a call has read so far is in the repository, and what it found there is accepted. -/
def Pc.Backed (db : Db) (c : Call) : Pc → Prop
  | .active _ read | .fallback _ read => db.Backed c.repositoryId read.id read.data.commitSha []
  | .quota plan | .lexical plan | .symbols plan _ | .beginEmbedding plan _ _ | .embed plan _ _ _
  | .embedding plan _ _ _ | .finishEmbedding plan _ _ _ _ | .vector plan _ _ _ | .load plan _ _ =>
    db.Backed c.repositoryId plan.sourceId plan.commitSha []
  | .beginGeneration retrieved _ _ _ | .generate retrieved _ _ _ | .generating retrieved _ _ _
  | .finishGeneration retrieved _ _ _ =>
    db.Backed c.repositoryId retrieved.sourceIndexId retrieved.commitSha retrieved.context ∧
      c.Accepts retrieved.sourceIndexId
  | .answered answer => Sound db c.repositoryId answer ∧ c.Accepts answer.sourceIndexId
  | _ => True

theorem Pc.Raising.backed (h : pc.Raising) : pc.Backed db c := by
  cases pc <;> first | exact trivial | cases h

/-- What an answer takes over from the search. -/
theorem respond_eq {settings : Settings} {answerId : Uuid} {retrieved : Retrieved} {result : Option GenerationResult}
    {history included : List HistoryTurn} {answer : AnswerResponse}
    (h : respond env settings answerId retrieved result history included = some answer) :
    answer.claims = claimsOf result ∧ answer.evidence = retrieved.context ∧
      answer.sourceIndexId = retrieved.sourceIndexId ∧ answer.commitSha = retrieved.commitSha := by
  unfold respond at h
  split at h
  · cases h
    exact ⟨rfl, rfl, rfl, rfl⟩
  · cases h

theorem sound_of_respond {settings : Settings} {answerId repositoryId : Uuid} {retrieved : Retrieved}
    {result : Option GenerationResult} {history included : List HistoryTurn} {answer : AnswerResponse}
    (hb : db.Backed repositoryId retrieved.sourceIndexId retrieved.commitSha retrieved.context)
    (hc : Cited (claimsOf result) retrieved.context) (ha : c.Accepts retrieved.sourceIndexId)
    (h : respond env settings answerId retrieved result history included = some answer) :
    Sound db repositoryId answer ∧ c.Accepts answer.sourceIndexId := by
  obtain ⟨hclaims, hevidence, hsource, hsha⟩ := respond_eq h
  refine ⟨⟨?_, ?_⟩, ?_⟩
  · rw [hclaims, hevidence]
    exact hc
  · rw [hsource, hsha, hevidence]
    exact hb
  · rw [hsource]
    exact ha

theorem Selected.backed {plan : Plan} {channels : List (String × List Uuid)} (h : Selected c plan channels pc)
    (hp : db.Backed c.repositoryId plan.sourceId plan.commitSha []) : pc.Backed db c := by
  cases h with
  | raised h => exact h.backed
  | keyword => exact hp
  | hybrid => exact hp

theorem Embedded.backed {plan : Plan} {channels : List (String × List Uuid)} {p : EmbeddingProvider}
    {response : EmbeddingBatch} (h : Embedded plan channels p response pc)
    (hp : db.Backed c.repositoryId plan.sourceId plan.commitSha []) : pc.Backed db c := by
  cases h with
  | raised h => exact h.backed
  | used => exact hp

theorem Retrieving.backed {retrieved : Retrieved} (h : Retrieving env c retrieved pc)
    (hp : db.Backed c.repositoryId retrieved.sourceIndexId retrieved.commitSha retrieved.context) :
    pc.Backed db c := by
  cases h with
  | raised h => exact h.backed
  | empty hs h =>
    have hcited : Cited (claimsOf none) retrieved.context := fun cl hcl => by cases hcl
    exact sound_of_respond hp hcited hs h
  | found payload included model hs => exact ⟨hp, hs⟩

theorem Concluding.backed {retrieved : Retrieved} {included : List HistoryTurn} {result : GenerationResult}
    (h : Concluding env c retrieved included result pc)
    (hp : db.Backed c.repositoryId retrieved.sourceIndexId retrieved.commitSha retrieved.context)
    (ha : c.Accepts retrieved.sourceIndexId) : pc.Backed db c := by
  cases h with
  | raised h => exact h.backed
  | answered hc h => exact sound_of_respond hp hc ha h

theorem Effect.backed (hs : db.Sliced) (h : Effect env now c input pc db t pc' t') (hp : pc.Backed db c) :
    pc'.Backed db c := by
  cases h with
  | idle => exact hp
  | raised h => exact h.backed
  | authorized => exact trivial
  | sourced => exact trivial
  | indexed hpc h => exact Db.backed_of_activeIndex h
  | fell hpc => subst hpc; exact hp
  | planned hpc => rcases hpc with rfl | rfl <;> exact hp
  | admitted hpc => subst hpc; exact hp
  | lexical hpc => subst hpc; exact hp
  | selected hpc h => subst hpc; exact h.backed hp
  | beganEmbedding hpc => subst hpc; exact hp
  | calledEmbed hpc => subst hpc; exact hp
  | embedded hpc => subst hpc; exact hp
  | failedCall => exact trivial
  | finishedEmbedding hpc hf h => subst hpc; exact h.backed hp
  | vectored hpc => subst hpc; exact hp
  | loaded hpc hf h =>
    subst hpc
    exact h.backed (Db.Backed.hits hp hs hf)
  | beganGeneration hpc => subst hpc; exact hp
  | calledGenerate hpc => subst hpc; exact hp
  | streamed hpc => subst hpc; exact hp
  | previewed hpc => subst hpc; exact hp
  | generated hpc => subst hpc; exact hp
  | finishedGeneration hpc hf h => subst hpc; exact h.backed hp.1 hp.2
  | recorded => exact trivial

/-- What was read stays backed as long as its repository's evidence does. -/
theorem Pc.Backed.carried (hp : pc.Backed db c)
    (hb : ∀ {sourceId commitSha evidence}, db.Backed c.repositoryId sourceId commitSha evidence →
      db'.Backed c.repositoryId sourceId commitSha evidence) : pc.Backed db' c := by
  cases pc with
  | beginGeneration | generate | generating | finishGeneration => exact ⟨hb hp.1, hp.2⟩
  | answered answer => exact ⟨hp.1.carried hb, hp.2⟩
  | authorize | source | index | recordUsage | raised => exact trivial
  | _ => exact hb hp

end Answers

/-! ### Processes and messages -/

namespace Tables

/-- `P` holds of the repository of the conversation, as long as the conversation is there. -/
def Binds (issued : List Uuid) (t : Tables) (conversationId : Uuid) (P : Uuid → Prop) : Prop :=
  conversationId ∈ issued ∧ ∀ c ∈ t.conversations, c.id = conversationId → P c.repositoryId

/-- Conversations keep their repository, and the repositories of those that stay keep what was quoted. -/
structure Carries (issued issued' : List Uuid) (db db' : Db) (t t' : Tables) : Prop where
  ids : ∀ i ∈ issued, i ∈ issued'
  conversations : ∀ c' ∈ t'.conversations, c'.id ∈ issued →
    ∃ c ∈ t.conversations, c.id = c'.id ∧ c.repositoryId = c'.repositoryId
  backed : ∀ c' ∈ t'.conversations, ∀ {sourceId commitSha evidence},
    db.Backed c'.repositoryId sourceId commitSha evidence → db'.Backed c'.repositoryId sourceId commitSha evidence

section Binds
variable {issued issued' : List Uuid} {db db' : Db} {t t' : Tables} {conversationId : Uuid} {P P' : Uuid → Prop}

theorem Binds.mono (h : t.Binds issued conversationId P) (hP : ∀ r, P r → P' r) : t.Binds issued conversationId P' :=
  ⟨h.1, fun c hc hid => hP _ (h.2 c hc hid)⟩

theorem Binds.carried (h : t.Binds issued conversationId P) (hc : Carries issued issued' db db' t t')
    (hP : ∀ c' ∈ t'.conversations, P c'.repositoryId → P' c'.repositoryId) : t'.Binds issued' conversationId P' := by
  refine ⟨hc.ids _ h.1, fun c' hc' hid => ?_⟩
  obtain ⟨c, hcm, hid', hr⟩ := hc.conversations c' hc' (hid ▸ h.1)
  have hp := h.2 c hcm (hid'.trans hid)
  rw [hr] at hp
  exact hP c' hc' hp

/-- A conversation that was just read binds what holds of it. -/
theorem Binds.of_mem (hk : Table.Keyed (·.id) t.conversations) (hi : ∀ c ∈ t.conversations, c.id ∈ issued)
    {c : Conversation} (hc : c ∈ t.conversations) (hp : P c.repositoryId) : t.Binds issued c.id P := by
  refine ⟨hi c hc, fun c' hc' hid => ?_⟩
  have hsame : c' = c := hk.eq hc' hc hid
  rw [hsame]
  exact hp

theorem Binds.sound {answer : AnswerResponse} (h : t.Binds issued conversationId fun r => Sound db r answer)
    (hc : Carries issued issued' db db' t t') : t'.Binds issued' conversationId fun r => Sound db' r answer :=
  h.carried hc fun c' hc' hs => hs.carried (hc.backed c' hc')

end Binds

theorem mem_pair {conversationId : Uuid} {count : Nat} {question : Text} {answer : AnswerResponse} {m : Message}
    (h : m ∈ pair conversationId count question answer) :
    m.conversationId = conversationId ∧ m.turnId = answer.answerId ∧
      (m.role = .user ∧ m.answer = none ∨ m.role = .assistant ∧ m.answer = some answer) := by
  unfold pair at h
  rcases List.mem_cons.1 h with rfl | h
  · exact ⟨rfl, rfl, .inl ⟨rfl, rfl⟩⟩
  · rw [List.mem_singleton.1 h]
    exact ⟨rfl, rfl, .inr ⟨rfl, rfl⟩⟩

end Tables

namespace Ask
variable {env : Env} {now : Time} {issued issued' : List Uuid} {db db' : Db} {t t' : Tables} {p : Ask}

/-- What a question has read is in the repository of its conversation. -/
def Backed (issued : List Uuid) (db : Db) (t : Tables) (p : Ask) : Prop :=
  match p.pc with
  | .answering repositoryId pc =>
    t.Binds issued p.conversationId fun r => r = repositoryId ∧ pc.Backed db (p.callOf repositoryId)
  | .append answer => t.Binds issued p.conversationId fun r => Sound db r answer
  | _ => True

theorem Backed.carried (h : p.Backed issued db t) (hc : Tables.Carries issued issued' db db' t t') :
    p.Backed issued' db' t' := by
  unfold Backed at h ⊢
  split
  · rename_i repositoryId pc hpc
    rw [hpc] at h
    refine h.carried hc ?_
    rintro c' hc' ⟨rfl, hb⟩
    exact ⟨rfl, hb.carried (hc.backed c' hc')⟩
  · rename_i answer hpc
    rw [hpc] at h
    exact h.sound hc
  · exact trivial

theorem backed_resume {repositoryId : Uuid} {pc : Answers.Pc}
    (h : t.Binds issued p.conversationId fun r => r = repositoryId ∧ pc.Backed db (p.callOf repositoryId)) :
    ({ p with pc := resume repositoryId pc } : Ask).Backed issued db t := by
  cases pc with
  | answered answer =>
    show t.Binds issued p.conversationId fun r => Sound db r answer
    refine h.mono ?_
    rintro r ⟨rfl, hs, -⟩
    exact hs
  | raised e => exact trivial
  | _ => exact h

theorem Effect.backed {input : Answers.Input} {pc' : AskPc} (hs : db.Sliced)
    (hk : Table.Keyed (·.id) t'.conversations) (hi : ∀ c ∈ t'.conversations, c.id ∈ issued)
    (h : Effect env now p input db t pc' t') (hp : p.Backed issued db t') :
    ({ p with pc := pc' } : Ask).Backed issued db t' := by
  cases h with
  | idle => exact hp
  | ended => exact trivial
  | @began c hpc h =>
    obtain ⟨hc, hid, -⟩ := Tables.owned_eq h
    show t.Binds issued p.conversationId fun r =>
      r = c.repositoryId ∧ Answers.Pc.authorize.Backed db (p.callOf c.repositoryId)
    rw [← hid]
    exact Tables.Binds.of_mem hk hi hc ⟨rfl, trivial⟩
  | @answering repositoryId pc pc' t' hpc h =>
    unfold Backed at hp
    rw [hpc] at hp
    exact backed_resume (hp.mono fun r hr => ⟨hr.1, h.backed hs hr.2⟩)
  | appended => exact trivial

end Ask

namespace Runs
variable {env : Env} {now : Time} {issued issued' : List Uuid} {db db' : Db} {t t' : Tables} {k : Worker}

/-- What a worker has read is in the repository of the conversation of its run. -/
def Worker.Backed (issued : List Uuid) (db : Db) (t : Tables) (k : Worker) : Prop :=
  match k.pc with
  | .answering conversationId _ call pc =>
    t.Binds issued conversationId fun r => r = call.repositoryId ∧ pc.Backed db call
  | .publish conversationId _ call answer =>
    t.Binds issued conversationId fun r => Sound db r answer ∧ call.Accepts answer.sourceIndexId
  | _ => True

theorem Worker.Backed.carried (h : k.Backed issued db t) (hc : Tables.Carries issued issued' db db' t t') :
    k.Backed issued' db' t' := by
  unfold Worker.Backed at h ⊢
  split
  · rename_i conversationId question call pc hpc
    rw [hpc] at h
    refine h.carried hc ?_
    rintro c' hc' ⟨hr, hb⟩
    exact ⟨hr, hb.carried (hr ▸ hc.backed c' hc')⟩
  · rename_i conversationId question call answer hpc
    rw [hpc] at h
    exact h.carried hc fun c' hc' hs => ⟨hs.1.carried (hc.backed c' hc'), hs.2⟩
  · exact trivial

theorem Pc.Ending.backed {pc : Pc} (h : pc.Ending) : ({ k with pc := pc } : Worker).Backed issued db t := by
  cases pc <;> first | exact trivial | cases h

theorem Worker.backed_resume {conversationId : Uuid} {question : Text} {call : Call} {pc : Answers.Pc}
    (h : t.Binds issued conversationId fun r => r = call.repositoryId ∧ pc.Backed db call) :
    ({ k with pc := Pc.resume conversationId question call pc } : Worker).Backed issued db t := by
  cases pc with
  | answered answer =>
    show t.Binds issued conversationId fun r => Sound db r answer ∧ call.Accepts answer.sourceIndexId
    refine h.mono ?_
    rintro r ⟨rfl, hs⟩
    exact hs
  | raised e => exact (handler_ending e).backed
  | _ => exact h

theorem Worker.Effect.backed {input : Answers.Input} {pc' : Pc} (hs : db.Sliced)
    (hk : Table.Keyed (·.id) t'.conversations) (hi : ∀ c ∈ t'.conversations, c.id ∈ issued)
    (h : Worker.Effect env now k input db t pc' t') (hp : k.Backed issued db t') :
    ({ k with pc := pc' } : Worker).Backed issued db t' := by
  cases h with
  | idle => exact hp
  | ending h => exact h.backed
  | @loaded run conversation request hpc hr hid hst hcm hcid hm =>
    exact Tables.Binds.of_mem (P := fun r => r = conversation.repositoryId ∧ Answers.Pc.authorize.Backed db _) hk hi hcm
      ⟨rfl, trivial⟩
  | answering hpc h =>
    unfold Worker.Backed at hp
    rw [hpc] at hp
    exact Worker.backed_resume (hp.mono fun r hr => ⟨hr.1, h.backed hs hr.2⟩)
  | published => exact trivial
  | failed => exact trivial

end Runs

/-- A saved answer is sound for the repository of its conversation, and a run's answer is from its source. -/
structure Message.Backed (issued : List Uuid) (db : Db) (t : Tables) (m : Message) : Prop where
  answered : m.role = .assistant → m.answer.isSome
  sound : ∀ answer ∈ m.answer, t.Binds issued m.conversationId fun r => Sound db r answer
  pinned : ∀ answer ∈ m.answer, ∀ r ∈ t.runs, r.id = m.turnId → answer.sourceIndexId = r.sourceIndexId

theorem Message.backed_of_pair {issued : List Uuid} {db : Db} {t : Tables} {conversationId : Uuid} {count : Nat}
    {question : Text} {answer : AnswerResponse} {m : Message}
    (hm : m ∈ Tables.pair conversationId count question answer)
    (hs : t.Binds issued conversationId fun r => Sound db r answer)
    (hp : ∀ r ∈ t.runs, r.id = answer.answerId → answer.sourceIndexId = r.sourceIndexId) : m.Backed issued db t := by
  obtain ⟨hconv, hturn, ⟨hrole, hans⟩ | ⟨hrole, hans⟩⟩ := Tables.mem_pair hm
  · refine ⟨fun h => ?_, fun a ha => ?_, fun a ha => ?_⟩
    · rw [hrole] at h
      cases h
    · rw [hans] at ha
      cases ha
    · rw [hans] at ha
      cases ha
  · refine ⟨fun _ => ?_, fun a ha => ?_, fun a ha => ?_⟩
    · rw [hans]
      rfl
    · rw [hans] at ha
      cases ha
      rw [hconv]
      exact hs
    · rw [hans] at ha
      cases ha
      rw [hturn]
      exact hp

namespace Chat
variable {env : Env} {now : Time} {ids : List Uuid} {w w' : World} {db db' : Db} {s s' : Chat}

/-- Everything read, found and saved is backed. -/
structure BackedInv (issued : List Uuid) (db : Db) (s : Chat) : Prop where
  asks : ∀ p ∈ s.asks, p.Backed issued db s.tables
  workers : ∀ k ∈ s.workers, k.Backed issued db s.tables
  messages : ∀ m ∈ s.tables.messages, m.Backed issued db s.tables

theorem BackedInv.empty (issued : List Uuid) (db : Db) : BackedInv issued db Chat.empty :=
  ⟨List.forall_mem_nil _, List.forall_mem_nil _, List.forall_mem_nil _⟩

/-- Time passes, and the job system does something. -/
theorem BackedInv.carried {issued issued' : List Uuid} (h : BackedInv issued db s)
    (hc : Tables.Carries issued issued' db db' s.tables s.tables) : BackedInv issued' db' s :=
  ⟨fun p hp => (h.asks p hp).carried hc, fun k hk => (h.workers k hk).carried hc, fun m hm =>
    ⟨(h.messages m hm).answered, fun a ha => ((h.messages m hm).sound a ha).sound hc, (h.messages m hm).pinned⟩⟩

theorem BackedInv.effect (h : BackedInv w.issued db s) (hi : RunInv w s) (hci : ConversationInv w s)
    (hci' : ConversationInv w' s') (hs : db.Sliced) (hf : ∀ i ∈ ids, i ∉ w.issued)
    (hw : ∀ i ∈ w.issued, i ∈ w'.issued)
    (he : Effect env now ids db s s'.tables s'.asks s'.submits s'.workers s'.log) : BackedInv w'.issued db s' := by
  have hwr := written hi hf he
  have hc : Tables.Carries w.issued w'.issued db db s.tables s'.tables := by
    refine ⟨hw, fun c' hc' hid => ?_, fun _ _ _ _ _ hb => hb⟩
    rcases (conversed hi hci hwr).mem hc' with ⟨c, hcm, hid', -, hr⟩ | ⟨hnew, -⟩
    · exact ⟨c, hcm, hid', hr⟩
    · exact absurd hid (hf _ hnew)
  have hruns : ∀ r' ∈ s'.tables.runs, r'.id ∈ w.issued →
      ∃ r ∈ s.tables.runs, r.id = r'.id ∧ r.sourceIndexId = r'.sourceIndexId := by
    intro r' hr' hid
    rcases changes hi hf he hr' with ⟨r, hr, hsame, -⟩ | hn
    · exact ⟨r, hr, hsame.id.symm, hsame.sourceIndexId.symm⟩
    · exact absurd hid (hf _ hn.id)
  refine ⟨fun p' hp' => ?asks, fun k' hk' => ?workers, fun m hm => ?messages⟩
  case asks =>
    rcases asks_effect he hp' with hp | ⟨hpc, -⟩ | ⟨p, hp, input, pc', rfl, heff⟩
    · exact (h.asks p' hp).carried hc
    · unfold Ask.Backed
      rw [hpc]
      exact trivial
    · exact heff.backed hs hci'.keyed hci'.ids ((h.asks p hp).carried hc)
  case workers =>
    rcases workers_effect he hk' with hk | ⟨hpc, -⟩ | ⟨k, hk, input, pc', rfl, heff⟩
    · exact (h.workers k' hk).carried hc
    · unfold Runs.Worker.Backed
      rw [hpc]
      exact trivial
    · exact heff.backed hs hci'.keyed hci'.ids ((h.workers k hk).carried hc)
  case messages =>
    rcases hwr.messages hm with hold | ⟨k, hk, cid, question, call, answer, c, hpc, hcm, hroom, -, hpair⟩ |
      ⟨i, p, answer, c, hp, -, hpc, hcm, hroom, hpair⟩
    · have hb := h.messages m hold
      refine ⟨hb.answered, fun a ha => (hb.sound a ha).sound hc, fun a ha r' hr' hid => ?_⟩
      obtain ⟨r, hr, hrid, hrs⟩ := hruns r' hr' (hid ▸ hi.turns m hold)
      rw [← hrs]
      exact hb.pinned a ha r hr (hrid.trans hid)
    · have hserves := hi.workers k hk
      unfold Runs.Worker.Serves at hserves
      rw [hpc] at hserves
      have hb := h.workers k hk
      unfold Runs.Worker.Backed at hb
      rw [hpc] at hb
      refine Message.backed_of_pair hpair ((hb.mono fun r hr => hr.1).sound hc) fun r' hr' hid => ?_
      have hissued : r'.id ∈ w.issued := by
        rw [hid, hserves.2]
        exact hi.claims k hk
      obtain ⟨r, hr, hrid, hrs⟩ := hruns r' hr' hissued
      have hexpected := (hserves.1.row r hr (hrid.trans (hid.trans hserves.2))).2.2
      rw [← hrs]
      exact (hb.2 c hcm hroom.1).2 _ hexpected
    · have hpm := Table.mem_of_getElem? hp
      have hb := h.asks p hpm
      unfold Ask.Backed at hb
      rw [hpc] at hb
      refine Message.backed_of_pair hpair (hb.sound hc) fun r' hr' hid => ?_
      have hsep := hi.asks p hpm
      rw [hsep.answer hpc] at hid
      obtain ⟨r, hr, hrid, -⟩ := hruns r' hr' (hid ▸ hsep.issued)
      exact absurd (hrid.trans hid) (hsep.runs r hr)

end Chat

/-! ### Every run -/

namespace System
variable {env : Env}

/-- Evidence stays backed in the repositories that stay. -/
theorem backed_step (s : System) (a : Action) (h : GenInv env s) {repositoryId sourceId : Uuid} {commitSha : Text}
    {evidence : List Evidence} (hr : ∃ r ∈ (step env s a).jobs.db.repositories, r.id = repositoryId)
    (hb : s.jobs.db.Backed repositoryId sourceId commitSha evidence) :
    (step env s a).jobs.db.Backed repositoryId sourceId commitSha evidence := by
  cases a with
  | tick elapsed => exact hb
  | jobs a =>
    simp only [step] at hr ⊢
    split at hr
    · rename_i hfr
      rw [if_pos hfr]
      refine hb.lasting (Jobs.lasting env s.world.clock h.jobs.inv h.generations.piped hr) fun x hx f hf himp => ?_
      exact Jobs.files_mono h.jobs.inv hfr.1.2 h.jobs.content.sources hx f hf himp
    · rename_i hfr
      rw [if_neg hfr]
      exact hb
  | chat a =>
    simp only [step]
    split <;> exact hb

structure SourceInv (env : Env) (s : System) : Prop where
  gen : GenInv env s
  backed : Chat.BackedInv s.world.issued s.jobs.db s.chat

theorem sourceInv_step (s : System) (a : Action) (h : SourceInv env s) : SourceInv env (step env s a) := by
  have hgen := genInv_step s a h.gen
  obtain ⟨ids, hf, hw, he⟩ := chatStep env s a
  have hissued : ∀ i ∈ s.world.issued, i ∈ (step env s a).world.issued := fun i hi => hw ▸ List.mem_append_left _ hi
  have hchat : Chat.BackedInv (step env s a).world.issued s.jobs.db (step env s a).chat :=
    h.backed.effect h.gen.chat.runs h.gen.chat.conversations hgen.chat.conversations h.gen.jobs.content.sliced hf
      hissued he
  refine ⟨hgen, hchat.carried ⟨fun i hi => hi, fun c hc _ => ⟨c, hc, rfl, rfl⟩, fun c hc _ _ _ hb => ?_⟩⟩
  obtain ⟨r, hr, hid, -⟩ := hgen.chat.owners.conversations c hc
  exact backed_step s a h.gen ⟨r, hr, hid⟩ hb

theorem sourceInv (env : Env) (acts : List Action) : SourceInv env (run env acts) :=
  Machine.invariant ⟨genInv env [], .empty _ _⟩ sourceInv_step acts

/-- Runs keep the source they were submitted with. -/
structure Pins (s s' : System) : Prop where
  issued : ∀ i ∈ s.world.issued, i ∈ s'.world.issued
  runs : Table.Persists (·.id) s.world.issued (fun r r' => r'.sourceIndexId = r.sourceIndexId)
    s.chat.tables.runs s'.chat.tables.runs

theorem Pins.refl (s : System) : Pins s s := ⟨fun _ h => h, fun r hr _ => ⟨r, hr, rfl, rfl⟩⟩

theorem Pins.trans {s s' s'' : System} (h : Pins s s') (h' : Pins s' s'') : Pins s s'' :=
  ⟨fun i hi => h'.issued i (h.issued i hi), h.runs.trans (fun _ _ _ hr hr' => hr'.trans hr) h.issued h'.runs⟩

theorem pins_step (s : System) (a : Action) (h : SourceInv env s) : Pins s (step env s a) := by
  obtain ⟨ids, hf, hw, he⟩ := chatStep env s a
  refine ⟨fun i hi => hw ▸ List.mem_append_left _ hi, fun r' hr' hid => ?_⟩
  rcases Chat.changes h.gen.chat.runs hf he hr' with ⟨r, hr, hsame, -⟩ | hn
  · exact ⟨r, hr, hsame.id.symm, hsame.sourceIndexId⟩
  · exact absurd hid (hf _ hn.id)

theorem pins (acts more : List Action) : Pins (run env acts) ((machine env).exec (run env acts) more) :=
  Machine.relates sourceInv_step Pins.refl Pins.trans pins_step (sourceInv env acts) more

/-- What a saved answer stands on: its claims cite its evidence, and the evidence is source code of the
conversation's own repository, at the commit of the index the answer names. -/
structure Founded (s : System) (m : Message) (answer : AnswerResponse) : Prop where
  cited : Cited answer.claims answer.evidence
  source : ∃ c ∈ s.chat.tables.conversations, c.id = m.conversationId ∧ s.jobs.db.Owns c.userId c.repositoryId ∧
    ∃ x ∈ s.jobs.db.indexes, x.id = answer.sourceIndexId ∧ x.repositoryId = c.repositoryId ∧
      ∀ e ∈ answer.evidence, ∃ k f, s.jobs.db.Quotes x e k f ∧
        ∀ f' ∈ s.jobs.db.files, f'.importJobId = x.data.importJobId → f'.path = e.path → f' = f

theorem SourceInv.founded {s : System} (h : SourceInv env s) {m : Message} (hm : m ∈ s.chat.tables.messages)
    {answer : AnswerResponse} (ha : m.answer = some answer) : Founded s m answer := by
  obtain ⟨c, hc, hid⟩ := h.gen.chat.conversations.messages m hm
  have hsound : Sound s.jobs.db c.repositoryId answer := ((h.backed.messages m hm).sound answer ha).2 c hc hid
  obtain ⟨x, hx, hxid, hxr, -, -, hq⟩ := hsound.backed
  refine ⟨hsound.cited, c, hc, hid, h.gen.chat.owners.conversations c hc, x, hx, hxid, hxr, fun e he => ?_⟩
  obtain ⟨k, f, q⟩ := hq e he
  refine ⟨k, f, q, fun f' hf' himp hpath => ?_⟩
  exact h.gen.jobs.output.onePath q.file hf' (himp.trans q.source.symm) (hpath.trans q.path.symm)

/-- Every message of the assistant that is saved holds an answer that is founded; if a run produced it, the
answer names the source the run was pinned to when it was submitted. -/
theorem answers_founded (env : Env) (acts more : List Action) :
    let s := run env acts
    let s' := (machine env).exec s more
    ∀ m ∈ s'.chat.tables.messages, m.role = .assistant → ∃ answer, m.answer = some answer ∧ Founded s' m answer ∧
      ∀ r ∈ s.chat.tables.runs, ∀ r' ∈ s'.chat.tables.runs, r'.id = r.id → r.id = m.turnId →
        answer.sourceIndexId = r.sourceIndexId := by
  intro s s' m hm hrole
  have h : SourceInv env s := sourceInv env acts
  have h' : SourceInv env s' := Machine.exec_always sourceInv_step h more
  have hb := h'.backed.messages m hm
  obtain ⟨answer, ha⟩ := Option.isSome_iff_exists.1 (hb.answered hrole)
  refine ⟨answer, ha, h'.founded hm ha, fun r hr r' hr' hid hturn => ?_⟩
  rw [hb.pinned answer ha r' hr' (hid.trans hturn)]
  exact (pins acts more).runs.of_mem h.gen.chat.runs.keyed hr (h.gen.chat.runs.ids r hr) hr' hid

end System
end RepoPilot
