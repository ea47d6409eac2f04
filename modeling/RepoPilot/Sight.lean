import RepoPilot.Tenants
import RepoPilot.Removal

/-! # What a request sees

The answer to a request of a user is the answer it gets from the user's own rows and counters alone. One
lemma for each query and each request. -/

namespace RepoPilot
open Generation

variable {now : Time} {userId repositoryId : Uuid} {db : Db}

/-! ### Repositories -/

namespace RepositoryService

theorem listOwned_own : listOwned (db.own userId) userId = listOwned db userId := by
  have hr : (db.own userId).repositories.filter (·.userId = userId) = db.repositories.filter (·.userId = userId) :=
    Table.filter_within fun r _ h => h
  unfold listOwned
  rw [hr]
  congr 1
  refine List.flatMap_congr fun r hr => ?_
  obtain ⟨hr, hu⟩ := List.mem_filter.1 hr
  have hj : (db.own userId).imports.filter (fun j => j.repositoryId = r.id ∧ j.isCurrent = true) =
      db.imports.filter fun j => j.repositoryId = r.id ∧ j.isCurrent = true :=
    Table.filter_within fun j _ h => decide_eq_true <| Db.mem_own_repositories.2
      ⟨r, hr, (of_decide_eq_true h).1.symm, of_decide_eq_true hu⟩
  rw [hj]

theorem list_own : list (db.own userId) userId = list db userId := by
  unfold list
  rw [listOwned_own]

theorem get_own : get (db.own userId) userId repositoryId = get db userId repositoryId := by
  unfold get
  rw [Db.owned_own]

theorem files_own {offset limit : Nat} :
    files (db.own userId) userId repositoryId offset limit = files db userId repositoryId offset limit := by
  unfold files
  rw [Db.owned_own]
  cases ho : db.owned userId repositoryId with
  | error e => rfl
  | ok p =>
    have hf : (db.own userId).files.filter (fun f => f.repositoryId = repositoryId ∧ f.importJobId = p.2.id) =
        db.files.filter fun f => f.repositoryId = repositoryId ∧ f.importJobId = p.2.id :=
      Table.filter_within fun f _ h =>
        decide_eq_true ((of_decide_eq_true h).2 ▸ Db.import_of_owned ho)
    simp only [bind, Except.bind]
    rw [hf]

theorem content_own {fileId : Uuid} :
    content (db.own userId) userId repositoryId fileId = content db userId repositoryId fileId := by
  unfold content
  rw [Db.owned_own]
  cases ho : db.owned userId repositoryId with
  | error e => rfl
  | ok p =>
    have hf : (db.own userId).files.find? (fun f =>
          f.id = fileId ∧ f.repositoryId = repositoryId ∧ f.importJobId = p.2.id) =
        db.files.find? fun f => f.id = fileId ∧ f.repositoryId = repositoryId ∧ f.importJobId = p.2.id :=
      Table.find?_within fun f _ h =>
        decide_eq_true ((of_decide_eq_true h).2.2 ▸ Db.import_of_owned ho)
    simp only [bind, Except.bind]
    rw [hf]

end RepositoryService

/-! ### Indexes and search -/

namespace IndexService

theorem state_own : state (db.own userId) userId repositoryId = state db userId repositoryId := by
  unfold state
  rw [Db.owned_own]
  cases ho : db.owned userId repositoryId with
  | error e => rfl
  | ok p =>
    have h := Db.owns_of_owned ho
    simp only [bind, Except.bind]
    rw [Db.latestIndex_own h, Db.activeIndex_own h]

theorem file_own {fileId : Uuid} {symbolOffset chunkOffset : Nat} :
    file (db.own userId) userId repositoryId fileId symbolOffset chunkOffset =
      file db userId repositoryId fileId symbolOffset chunkOffset := by
  unfold file
  rw [Db.owned_own]
  cases ho : db.owned userId repositoryId with
  | error e => rfl
  | ok p =>
    have h := Db.owns_of_owned ho
    have hf : (db.own userId).files.find? (fun f => f.id = fileId ∧ f.importJobId = p.2.id) =
        db.files.find? fun f => f.id = fileId ∧ f.importJobId = p.2.id :=
      Table.find?_within fun f _ h => decide_eq_true ((of_decide_eq_true h).2 ▸ Db.import_of_owned ho)
    simp only [bind, Except.bind]
    rw [hf, Db.activeIndex_own h]
    cases db.files.find? fun f => f.id = fileId ∧ f.importJobId = p.2.id with
    | none => rfl
    | some file =>
      cases ha : db.activeIndex repositoryId p.2.id with
      | none => rfl
      | some index =>
        obtain ⟨hi, hir, -⟩ := Db.activeIndex_eq ha
        have hin := Db.mem_own_indexes hi (hir ▸ h)
        have hsymbols : symbols (db.own userId) index.id fileId symbolOffset = symbols db index.id fileId symbolOffset := by
          unfold symbols
          rw [show (db.own userId).symbols.filter (fun s => s.indexId = index.id ∧ s.fileId = fileId) =
              db.symbols.filter fun s => s.indexId = index.id ∧ s.fileId = fileId from
            Table.filter_within fun s _ hx => decide_eq_true ((of_decide_eq_true hx).1 ▸ hin)]
        have hchunks : chunks (db.own userId) index.id fileId chunkOffset = chunks db index.id fileId chunkOffset := by
          unfold chunks
          rw [show (db.own userId).chunks.filter (fun c => c.indexId = index.id ∧ c.fileId = fileId) =
              db.chunks.filter fun c => c.indexId = index.id ∧ c.fileId = fileId from
            Table.filter_within fun c _ hx => decide_eq_true ((of_decide_eq_true hx).1 ▸ hin)]
        dsimp only
        rw [hsymbols, hchunks]

end IndexService

theorem PreparationService.state_own {settings : Settings} :
    state settings (db.own userId) userId repositoryId = state settings db userId repositoryId := by
  unfold state
  rw [Db.state_own]

namespace SearchService
variable {env : Env} {settings : Settings} {provider : Option EmbeddingProvider}
  {embed : List (List Nat) → Except Raised EmbeddingBatch}

theorem indexOf_own (h : db.Owns userId repositoryId) {sourceId : Uuid} {mode : Mode} :
    indexOf (db.own userId) repositoryId sourceId mode = indexOf db repositoryId sourceId mode := by
  unfold indexOf
  rw [Db.activeSearch_own h, Db.activeSearch_own h]

theorem indexOf_eq {sourceId : Uuid} {mode : Mode} {x : SearchIndex} (h : indexOf db repositoryId sourceId mode = some x) :
    x ∈ db.searches ∧ x.repositoryId = repositoryId := by
  unfold indexOf at h
  rcases Option.or_eq_some_iff.1 h with h | ⟨-, h⟩
  · exact ⟨(Db.activeSearch_eq h).1, (Db.activeSearch_eq h).2.1⟩
  · split at h
    · exact ⟨(Db.activeSearch_eq h).1, (Db.activeSearch_eq h).2.1⟩
    · cases h

section Index
variable (hs : db.Schema) {source : RepositoryIndex} {index : SearchIndex}
include hs

theorem semantic_own (hx : ∀ x ∈ db.searches, x.id = index.id → db.Owns userId x.repositoryId) {query : Text} :
    semantic env settings provider embed query index (db.own userId) =
      semantic env settings provider embed query index db := by
  unfold semantic
  cases provider with
  | none => rfl
  | some p =>
    dsimp only
    congr! 12
    exact Retrieval.vector_own hs hx _

theorem assemble_own (hi : ∀ i ∈ db.indexes, i.id = source.id → db.Owns userId i.repositoryId)
    {request : SearchRequest} {channels : List (String × List Uuid)} {usage : Nat} :
    assemble env settings request source index channels usage (db.own userId) =
      assemble env settings request source index channels usage db := by
  unfold assemble
  rw [Db.sourceChunks_own hs hi]

end Index

theorem search_own {later : Db} (hs : db.Schema) (hs' : later.Schema) (hk : Db.Kept userId db later)
    {request : SearchRequest} {limit : Option AppError} :
    search env settings provider embed userId repositoryId request limit (db.own userId) (later.own userId) =
      search env settings provider embed userId repositoryId request limit db later := by
  unfold search search'
  rw [Db.source_own]
  cases hsource : Searches.source db userId repositoryId with
  | error e => rfl
  | ok source =>
    obtain ⟨repository, imported, ho, ha⟩ := Searches.source_eq hsource
    have h := Db.owns_of_owned ho
    obtain ⟨hi, hir, -⟩ := Db.activeIndex_eq ha
    have hsources := hk.indexes source hi (hir ▸ h)
    simp only [lift, Except.mapError, bind, Except.bind]
    rw [indexOf_own h]
    cases hx : indexOf db repositoryId source.id request.mode with
    | none => rfl
    | some index =>
      obtain ⟨hxm, hxr⟩ := indexOf_eq hx
      have hnow := (Db.Kept.refl hs).searches index hxm (hxr ▸ h)
      have hlater := hk.searches index hxm (hxr ▸ h)
      dsimp only
      rw [Retrieval.lexical_own hs hnow, Retrieval.symbols_own hs hnow, semantic_own hs' hlater]
      simp only [assemble_own hs' hsources]

end SearchService

/-! ### Conversations and runs -/

variable {t : Tables} {conversationId runId : Uuid}

namespace ConversationService

theorem listOwned_own : listOwned (t.own userId) userId repositoryId = listOwned t userId repositoryId := by
  have hc : (t.own userId).conversations.filter (fun c => c.userId = userId ∧ c.repositoryId = repositoryId) =
      t.conversations.filter fun c => c.userId = userId ∧ c.repositoryId = repositoryId :=
    Table.filter_within fun c _ h => decide_eq_true (of_decide_eq_true h).1
  unfold listOwned
  rw [hc]

theorem list_own : list (db.own userId) (t.own userId) userId repositoryId = list db t userId repositoryId := by
  unfold list
  rw [Db.owned_own, listOwned_own]

theorem detail_own :
    detail (db.own userId) (t.own userId) userId conversationId = detail db t userId conversationId := by
  unfold detail
  rw [Tables.owned_own]

theorem messages_own {before : Option Nat} :
    messages (db.own userId) (t.own userId) userId conversationId before =
      messages db t userId conversationId before := by
  unfold messages
  rw [Tables.owned_own]
  cases ho : t.owned db userId conversationId with
  | error e => rfl
  | ok c =>
    have hc := Tables.conversation_of_owned ho
    have hm : (t.own userId).messages.filter (fun m => m.conversationId = conversationId ∧ ∀ b ∈ before, m.position < b) =
        t.messages.filter fun m => m.conversationId = conversationId ∧ ∀ b ∈ before, m.position < b :=
      Table.filter_within fun m _ h => decide_eq_true ((of_decide_eq_true h).1 ▸ hc)
    simp only [bind, Except.bind, Tables.messagePage]
    rw [hm]

end ConversationService

namespace RunService

theorem list_own : list (db.own userId) (t.own userId) userId conversationId = list db t userId conversationId := by
  unfold list
  rw [Tables.owned_own]
  cases ho : t.owned db userId conversationId with
  | error e => rfl
  | ok c =>
    have hc := Tables.conversation_of_owned ho
    have hr : (t.own userId).runs.filter (·.conversationId = conversationId) =
        t.runs.filter (·.conversationId = conversationId) :=
      Table.filter_within fun r _ h => decide_eq_true (of_decide_eq_true h ▸ hc)
    simp only [bind, Except.bind, recent]
    rw [hr]

theorem get_own : get (db.own userId) (t.own userId) userId runId = get db t userId runId := by
  unfold get
  rw [Tables.ownedRun_own]

theorem usage_own : usage (db.own userId) (t.own userId) userId runId = usage db t userId runId := by
  unfold usage
  rw [Tables.ownedRun_own]
  cases ho : t.ownedRun db userId runId with
  | error e => rfl
  | ok run =>
    obtain ⟨hr, hid, hc⟩ := Tables.ownedRun_eq ho
    have hin := Tables.mem_own_runs hr hc
    have hq : (t.own userId).receipts.filter (·.runId = runId) = t.receipts.filter (·.runId = runId) :=
      Table.filter_within fun q _ h => decide_eq_true (by rw [of_decide_eq_true h, ← hid]; exact hin)
    simp only [bind, Except.bind]
    rw [hq]

end RunService

/-! ### Any request -/

theorem Query.answer_own {env : Env} {h : Host} {later : Db} (hs : db.Schema) (hs' : later.Schema)
    (hk : Db.Kept userId db later) (q : Query) :
    q.answer env h userId (db.own userId) (t.own userId) (later.own userId) = q.answer env h userId db t later := by
  cases q with
  | repositories => exact congrArg (fun items => Except.ok (Response.repositories items)) RepositoryService.list_own
  | repository rid => simp only [answer, RepositoryService.get_own]
  | files rid offset limit => simp only [answer, RepositoryService.files_own]
  | content rid fid => simp only [answer, RepositoryService.content_own]
  | indexState rid => simp only [answer, IndexService.state_own]
  | indexedFile rid fid symbolOffset chunkOffset => simp only [answer, IndexService.file_own]
  | searchState rid => simp only [answer, PreparationService.state_own]
  | search rid request => simp only [answer, SearchService.search_own hs hs' hk]
  | conversations rid => simp only [answer, ConversationService.list_own]
  | conversation cid => simp only [answer, ConversationService.detail_own]
  | messages cid before => simp only [answer, ConversationService.messages_own]
  | runs cid => simp only [answer, RunService.list_own]
  | run runId => simp only [answer, RunService.get_own]
  | usage runId => simp only [answer, RunService.usage_own]

namespace System
variable {env : Env} {s s' : System}

/-- A row that is still there is still the same user's. -/
theorem kept (hj : JobsInv env s) (hs : Schema s) (ho : OwnerInv s) (hs' : Schema s') (hd : Descends s s') :
    Db.Kept userId s.jobs.db s'.jobs.db := by
  have howns : ∀ {rid : Uuid}, s.jobs.db.Owns userId rid → (∃ r ∈ s'.jobs.db.repositories, r.id = rid) →
      s'.jobs.db.Owns userId rid := by
    rintro rid ⟨r, hr, rfl, hu⟩ ⟨r', hr', hid⟩
    exact ⟨r', hr', hid, (hd.repositories.of_mem hs.db.repositoryKeys hr (ho.ids r hr) hr' hid).trans hu⟩
  have hindexed : ∀ i' ∈ s'.jobs.db.indexes, ∃ r ∈ s'.jobs.db.repositories, r.id = i'.repositoryId := by
    intro i' hi'
    obtain ⟨j, hj, -, hjr⟩ := hs'.db.indexes i' hi'
    obtain ⟨r, hr, hid⟩ := hs'.db.imports j hj
    exact ⟨r, hr, hid.trans hjr⟩
  refine ⟨fun i hi h i' hi' hid => ?_, fun x hx h x' hx' hid => ?_⟩
  · have hsame := hd.indexes.of_mem hs.db.indexKeys hi (hj.inv.indexes.ids i hi) hi' hid
    exact howns (hsame.1 ▸ h) (hindexed i' hi')
  · have hsame := hd.searches.of_mem hs.db.searchKeys hx (hj.inv.searches.ids x hx) hx' hid
    obtain ⟨i, hi, -, hir⟩ := hs'.db.searches x' hx'
    obtain ⟨r, hr, hrid⟩ := hindexed i hi
    exact howns (hsame.1 ▸ h) ⟨r, hr, hrid.trans hir⟩

/-- The answer to a request of a user, at any moment of any run, whatever happens while a search waits
for its provider, comes from the user's own rows alone. -/
theorem answers_own (env : Env) (acts more : List Action) (h : Host) (userId : Uuid) (q : Query) :
    let s := run env acts
    let s' := (machine env).exec s more
    q.answer env h userId (s.jobs.db.own userId) (s.chat.tables.own userId) (s'.jobs.db.own userId) =
      q.answer env h userId s.jobs.db s.chat.tables s'.jobs.db := by
  intro s s'
  have hinv : s' = run env (acts ++ more) := (Machine.exec_append ..).symm
  have hs : Schema s := schema env acts
  have hs' : Schema s' := by
    rw [hinv]
    exact schema env _
  exact q.answer_own hs.db hs'.db (kept (jobsInv env acts) hs (chatInv env acts).owners hs' (descends acts more))

end System
end RepoPilot
