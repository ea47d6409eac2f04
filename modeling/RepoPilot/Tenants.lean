import RepoPilot.Services
import RepoPilot.Integrity

/-! # Whose rows they are

A row belongs to the owner of the repository or of the conversation it hangs on. `part` is what hangs on
some of them. A query of a request selects
rows of one part only, so it finds the same rows in that part alone. -/

namespace RepoPilot

/-! ### Queries on some of the rows -/

namespace Table
variable {α : Type} {t : List α} {q r : α → Bool}

/-- A selection within `q` finds the same rows among those with `q`. -/
theorem filter_within (h : ∀ x ∈ t, r x = true → q x = true) : (t.filter q).filter r = t.filter r := by
  rw [List.filter_filter]
  refine List.filter_congr fun x hx => ?_
  by_cases hr : r x = true
  · rw [hr, h x hx hr]
    rfl
  · rw [Bool.not_eq_true] at hr
    rw [hr]
    rfl

theorem find?_within (h : ∀ x ∈ t, r x = true → q x = true) : (t.filter q).find? r = t.find? r := by
  rw [← List.head?_filter, ← List.head?_filter, filter_within h]

theorem exists_within {P : α → Prop} (h : ∀ x ∈ t, P x → q x = true) : (∃ x ∈ t.filter q, P x) ↔ ∃ x ∈ t, P x := by
  constructor
  · rintro ⟨x, hx, hP⟩
    exact ⟨x, (List.mem_filter.1 hx).1, hP⟩
  · rintro ⟨x, hx, hP⟩
    exact ⟨x, List.mem_filter.2 ⟨hx, h x hx hP⟩, hP⟩

end Table

namespace Db

/-- What hangs on the repositories with `p`. -/
def part (p : Repository → Bool) (db : Db) : Db :=
  let repositories := db.repositories.filter p
  let imports := db.imports.filter (·.repositoryId ∈ repositories.map (·.id))
  let indexes := db.indexes.filter (·.repositoryId ∈ repositories.map (·.id))
  let searches := db.searches.filter (·.repositoryId ∈ repositories.map (·.id))
  { repositories := repositories
    imports := imports
    files := db.files.filter (·.importJobId ∈ imports.map (·.id))
    indexes := indexes
    symbols := db.symbols.filter (·.indexId ∈ indexes.map (·.id))
    chunks := db.chunks.filter (·.indexId ∈ indexes.map (·.id))
    searches := searches
    documents := db.documents.filter (·.searchIndexId ∈ searches.map (·.id)) }

/-- What belongs to the user. -/
def own (userId : Uuid) (db : Db) : Db := db.part (·.userId = userId)

/-- What belongs to other users. -/
def others (userId : Uuid) (db : Db) : Db := db.part (·.userId ≠ userId)

/-! ### The user's own rows -/

section Own
variable {db : Db} {userId repositoryId sourceId : Uuid} {mode : Mode}

theorem mem_own_repositories : repositoryId ∈ (db.own userId).repositories.map (·.id) ↔ db.Owns userId repositoryId := by
  unfold own part Owns
  simp only [List.mem_map, List.mem_filter, decide_eq_true_eq]
  constructor
  · rintro ⟨r, ⟨hr, hu⟩, hid⟩
    exact ⟨r, hr, hid, hu⟩
  · rintro ⟨r, hr, hid, hu⟩
    exact ⟨r, ⟨hr, hu⟩, hid⟩

theorem mem_own_imports {j : ImportJob} (hj : j ∈ db.imports) (ho : db.Owns userId j.repositoryId) :
    j.id ∈ (db.own userId).imports.map (·.id) :=
  List.mem_map_of_mem (List.mem_filter.2 ⟨hj, decide_eq_true (mem_own_repositories.2 ho)⟩)

theorem mem_own_indexes {i : RepositoryIndex} (hi : i ∈ db.indexes) (ho : db.Owns userId i.repositoryId) :
    i.id ∈ (db.own userId).indexes.map (·.id) :=
  List.mem_map_of_mem (List.mem_filter.2 ⟨hi, decide_eq_true (mem_own_repositories.2 ho)⟩)

theorem mem_own_searches {x : SearchIndex} (hx : x ∈ db.searches) (ho : db.Owns userId x.repositoryId) :
    x.id ∈ (db.own userId).searches.map (·.id) :=
  List.mem_map_of_mem (List.mem_filter.2 ⟨hx, decide_eq_true (mem_own_repositories.2 ho)⟩)

theorem owns_of_owned {p : Repository × ImportJob} (h : db.owned userId repositoryId = .ok p) :
    db.Owns userId repositoryId :=
  ⟨p.1, (owned_eq h).1, (owned_eq h).2.1, (owned_eq h).2.2.1⟩

theorem import_of_owned {p : Repository × ImportJob} (h : db.owned userId repositoryId = .ok p) :
    p.2.id ∈ (db.own userId).imports.map (·.id) := by
  obtain ⟨hr, hid, hu, hj, hrid, -⟩ := owned_eq h
  exact mem_own_imports hj ⟨p.1, hr, hid.trans hrid.symm, hu⟩

/-- `RepositoryStore.owned` looks at the user's own rows only. -/
@[simp] theorem owned_own (db : Db) (userId repositoryId : Uuid) :
    (db.own userId).owned userId repositoryId = db.owned userId repositoryId := by
  have hr : (db.own userId).repositories.find? (fun r => r.id = repositoryId ∧ r.userId = userId) =
      db.repositories.find? fun r => r.id = repositoryId ∧ r.userId = userId :=
    Table.find?_within fun r _ h => decide_eq_true (of_decide_eq_true h).2
  unfold owned
  rw [hr]
  cases hf : db.repositories.find? fun r => r.id = repositoryId ∧ r.userId = userId with
  | none => rfl
  | some r =>
    have hp : r.id = repositoryId ∧ r.userId = userId := by simpa using List.find?_some hf
    have hj : (db.own userId).imports.find? (fun j => j.repositoryId = r.id ∧ j.isCurrent = true) =
        db.imports.find? fun j => j.repositoryId = r.id ∧ j.isCurrent = true := by
      refine Table.find?_within fun j _ h => decide_eq_true (mem_own_repositories.2 ?_)
      exact ⟨r, List.mem_of_find?_eq_some hf, (of_decide_eq_true h).1.symm, hp.2⟩
    dsimp only
    rw [hj]

section Jobs
variable (h : db.Owns userId repositoryId)
include h

theorem latestIndex_own : (db.own userId).latestIndex repositoryId sourceId = db.latestIndex repositoryId sourceId :=
  Table.find?_within fun i _ hi => decide_eq_true <| mem_own_repositories.2 <| by
    rw [(of_decide_eq_true hi).1]
    exact h

theorem activeIndex_own : (db.own userId).activeIndex repositoryId sourceId = db.activeIndex repositoryId sourceId :=
  congrArg newest <| Table.filter_within fun i _ hi => decide_eq_true <| mem_own_repositories.2 <| by
    rw [(of_decide_eq_true hi).1]
    exact h

theorem latestSearch_own : (db.own userId).latestSearch repositoryId = db.latestSearch repositoryId :=
  Table.find?_within fun x _ hx => decide_eq_true <| mem_own_repositories.2 <| by
    rw [(of_decide_eq_true hx).1]
    exact h

theorem activeSearch_own :
    (db.own userId).activeSearch repositoryId sourceId mode = db.activeSearch repositoryId sourceId mode :=
  congrArg newest <| Table.filter_within fun x _ hx => decide_eq_true <| mem_own_repositories.2 <| by
    rw [(of_decide_eq_true hx).1]
    exact h

end Jobs

/-- `PreparationService.source`. -/
@[simp] theorem source_own (db : Db) (userId repositoryId : Uuid) :
    Searches.source (db.own userId) userId repositoryId = Searches.source db userId repositoryId := by
  unfold Searches.source
  rw [owned_own]
  cases ho : db.owned userId repositoryId with
  | error e => rfl
  | ok p =>
    dsimp only
    rw [activeIndex_own (owns_of_owned ho)]

@[simp] theorem state_own (db : Db) (userId repositoryId : Uuid) :
    Searches.state (db.own userId) userId repositoryId = Searches.state db userId repositoryId := by
  unfold Searches.state
  rw [source_own]
  cases hs : Searches.source db userId repositoryId with
  | error e => rfl
  | ok source =>
    obtain ⟨repository, imported, ho, -⟩ := Searches.source_eq hs
    have h := owns_of_owned ho
    simp only [bind, Except.bind]
    rw [activeSearch_own h, activeSearch_own h, latestSearch_own h]

/-- What the user owns in `db` is not another's in `later`. -/
structure Kept (userId : Uuid) (db later : Db) : Prop where
  indexes : ∀ i ∈ db.indexes, db.Owns userId i.repositoryId →
    ∀ i' ∈ later.indexes, i'.id = i.id → later.Owns userId i'.repositoryId
  searches : ∀ x ∈ db.searches, db.Owns userId x.repositoryId →
    ∀ x' ∈ later.searches, x'.id = x.id → later.Owns userId x'.repositoryId

theorem Kept.refl (hs : db.Schema) : Kept userId db db := by
  refine ⟨fun i hi ho i' hi' hid => ?_, fun x hx ho x' hx' hid => ?_⟩
  · cases hs.indexKeys.eq hi' hi hid
    exact ho
  · cases hs.searchKeys.eq hx' hx hid
    exact ho

/-! ### Chunks and documents -/

/-- The file of a chunk of the user's index is the user's. -/
theorem chunkFile_own (hs : db.Schema) {c : CodeChunk} (hc : c ∈ db.chunks)
    (hi : c.indexId ∈ (db.own userId).indexes.map (·.id)) {f : RepositoryFile} (hf : f ∈ db.files)
    (hid : f.id = c.fileId) : f.importJobId ∈ (db.own userId).imports.map (·.id) := by
  obtain ⟨i, hi, hic⟩ := List.mem_map.1 hi
  obtain ⟨hi, ho⟩ := List.mem_filter.1 hi
  have ho : db.Owns userId i.repositoryId := mem_own_repositories.1 (of_decide_eq_true ho)
  obtain ⟨i', hi', hid', hsource⟩ := hs.chunkIndexes c hc
  obtain ⟨f', hf', hfid, himport⟩ := hs.chunkFiles c hc
  cases hs.indexKeys.eq hi' hi (hid'.trans hic.symm)
  cases hs.fileKeys.eq hf hf' (hid.trans hfid.symm)
  obtain ⟨j, hj, hjid, hrid⟩ := hs.indexes i hi
  rw [himport, ← hsource, ← hjid]
  exact mem_own_imports hj (hrid ▸ ho)

/-- So are the index and the chunk of a document of the user's search index. -/
theorem documentChunk_own (hs : db.Schema) {d : SearchDocument} (hd : d ∈ db.documents)
    (hx : d.searchIndexId ∈ (db.own userId).searches.map (·.id)) {c : CodeChunk} (hc : c ∈ db.chunks)
    (hid : c.id = d.chunkId) : c.indexId ∈ (db.own userId).indexes.map (·.id) := by
  obtain ⟨x, hx, hxd⟩ := List.mem_map.1 hx
  obtain ⟨hx, ho⟩ := List.mem_filter.1 hx
  have ho : db.Owns userId x.repositoryId := mem_own_repositories.1 (of_decide_eq_true ho)
  obtain ⟨x', hx', hxid, hsource⟩ := hs.documentSearches d hd
  obtain ⟨c', hc', hcid, hindex⟩ := hs.documentChunks d hd
  cases hs.searchKeys.eq hx' hx (hxid.trans hxd.symm)
  cases hs.chunkKeys.eq hc hc' (hid.trans hcid.symm)
  obtain ⟨i, hi, hiid, hrid⟩ := hs.searches x hx
  rw [hindex, ← hsource, ← hiid]
  exact mem_own_indexes hi (hrid ▸ ho)

section Index
variable (hs : db.Schema) (hi : ∀ i ∈ db.indexes, i.id = sourceId → db.Owns userId i.repositoryId)
include hs hi

theorem chunk_own {c : CodeChunk} (hc : c ∈ db.chunks) (he : c.indexId = sourceId) :
    c.indexId ∈ (db.own userId).indexes.map (·.id) := by
  obtain ⟨i, hm, hid, -⟩ := hs.chunkIndexes c hc
  rw [← hid]
  exact mem_own_indexes hm (hi i hm (hid.trans he))

theorem placed_own : (db.own userId).placed sourceId = db.placed sourceId := by
  have hchunks : (db.own userId).chunks.filter (·.indexId = sourceId) = db.chunks.filter (·.indexId = sourceId) :=
    Table.filter_within fun c hc he => decide_eq_true (chunk_own hs hi hc (of_decide_eq_true he))
  unfold placed
  rw [hchunks]
  refine List.filterMap_congr fun c hc => ?_
  obtain ⟨hc, hci⟩ := List.mem_filter.1 hc
  have hfiles : (db.own userId).files.find? (·.id = c.fileId) = db.files.find? (·.id = c.fileId) :=
    Table.find?_within fun f hf hid => decide_eq_true
      (chunkFile_own hs hc (chunk_own hs hi hc (of_decide_eq_true hci)) hf (of_decide_eq_true hid))
  rw [hfiles]

omit hs hi in
theorem sourceChunk_own {c : CodeChunk} (hc : c.indexId ∈ (db.own userId).indexes.map (·.id)) (f : RepositoryFile) :
    sourceChunk (db.own userId).symbols c f = sourceChunk db.symbols c f := by
  have hsymbol : (db.own userId).symbols.find? (fun s =>
        s.indexId = c.indexId ∧ s.fileId = c.fileId ∧ some s.ordinal = c.chunk.symbolOrdinal) =
      db.symbols.find? fun s =>
        s.indexId = c.indexId ∧ s.fileId = c.fileId ∧ some s.ordinal = c.chunk.symbolOrdinal :=
    Table.find?_within fun s _ h => decide_eq_true ((of_decide_eq_true h).1 ▸ hc)
  unfold sourceChunk
  rw [hsymbol]

theorem sourceChunks_own (ids : Option (List Uuid)) :
    (db.own userId).sourceChunks sourceId ids = db.sourceChunks sourceId ids := by
  unfold sourceChunks
  rw [placed_own hs hi]
  refine List.map_congr_left fun p hp => ?_
  have hp := (List.mem_filter.1 ((List.mem_insertionSort _).1 hp)).1
  unfold placed at hp
  obtain ⟨c, hc, hcp⟩ := List.mem_filterMap.1 hp
  obtain ⟨f, -, rfl⟩ := Option.map_eq_some_iff.1 hcp
  obtain ⟨hc, he⟩ := List.mem_filter.1 hc
  exact sourceChunk_own (chunk_own hs hi hc (of_decide_eq_true he)) f

end Index
end Own
end Db

namespace Retrieval
variable {env : Env} {db : Db} {userId indexId : Uuid}

/-- The candidates' rows. -/
theorem mem_joined {p : SearchDocument × CodeChunk × RepositoryFile} (h : p ∈ joined db indexId) :
    p.1 ∈ db.documents ∧ p.1.searchIndexId = indexId ∧ p.2.1 ∈ db.chunks ∧ p.2.1.id = p.1.chunkId := by
  unfold joined at h
  obtain ⟨d, hd, hp⟩ := List.mem_filterMap.1 h
  obtain ⟨hd, hx⟩ := List.mem_filter.1 hd
  simp only [Option.bind_eq_bind, Option.bind_eq_some_iff] at hp
  obtain ⟨c, hc, f, -, he⟩ := hp
  cases he
  exact ⟨hd, of_decide_eq_true hx, List.mem_of_find?_eq_some hc, by simpa using List.find?_some hc⟩

variable (hs : db.Schema) (hx : ∀ x ∈ db.searches, x.id = indexId → db.Owns userId x.repositoryId)
include hs hx

theorem document_own {d : SearchDocument} (hd : d ∈ db.documents) (he : d.searchIndexId = indexId) :
    d.searchIndexId ∈ (db.own userId).searches.map (·.id) := by
  obtain ⟨x, hm, hid, -⟩ := hs.documentSearches d hd
  rw [← hid]
  exact Db.mem_own_searches hm (hx x hm (hid.trans he))

theorem joined_own : joined (db.own userId) indexId = joined db indexId := by
  have hdocuments : (db.own userId).documents.filter (·.searchIndexId = indexId) =
      db.documents.filter (·.searchIndexId = indexId) :=
    Table.filter_within fun d hd he => decide_eq_true (document_own hs hx hd (of_decide_eq_true he))
  unfold joined
  rw [hdocuments]
  refine List.filterMap_congr fun d hd => ?_
  obtain ⟨hd, hdx⟩ := List.mem_filter.1 hd
  have hdx := document_own hs hx hd (of_decide_eq_true hdx)
  have hchunk : (db.own userId).chunks.find? (·.id = d.chunkId) = db.chunks.find? (·.id = d.chunkId) :=
    Table.find?_within fun c hc hid =>
      decide_eq_true (Db.documentChunk_own hs hd hdx hc (of_decide_eq_true hid))
  rw [hchunk]
  cases hf : db.chunks.find? (·.id = d.chunkId) with
  | none => rfl
  | some c =>
    have hc := List.mem_of_find?_eq_some hf
    have hid : c.id = d.chunkId := by simpa using List.find?_some hf
    have hfile : (db.own userId).files.find? (·.id = c.fileId) = db.files.find? (·.id = c.fileId) :=
      Table.find?_within fun f hf' hfid => decide_eq_true
        (Db.chunkFile_own hs hc (Db.documentChunk_own hs hd hdx hc hid) hf' (of_decide_eq_true hfid))
    simp only [Option.bind_eq_bind, Option.bind_some]
    rw [hfile]

theorem lexical_own (terms : List Text) : lexical env (db.own userId) indexId terms = lexical env db indexId terms := by
  unfold lexical
  rw [joined_own hs hx]

theorem vector_own (query : Vector) : vector env (db.own userId) indexId query = vector env db indexId query := by
  unfold vector
  rw [joined_own hs hx]

theorem symbols_own (terms : List Text) : symbols env (db.own userId) indexId terms = symbols env db indexId terms := by
  have hrows : (joined db indexId).filter (fun p => ∃ s ∈ (db.own userId).symbols, Named env terms p.2.1 s) =
      (joined db indexId).filter fun p => ∃ s ∈ db.symbols, Named env terms p.2.1 s := by
    refine List.filter_congr fun p hp => decide_eq_decide.2 (Table.exists_within fun s _ hn => decide_eq_true ?_)
    obtain ⟨hd, hdx, hc, hid⟩ := mem_joined hp
    rw [hn.1]
    exact Db.documentChunk_own hs hd (document_own hs hx hd hdx) hc hid
  unfold symbols
  rw [joined_own hs hx, hrows]

end Retrieval

/-! ### Conversations and runs -/

namespace Tables

/-- What hangs on the conversations with `p`. -/
def part (p : Conversation → Bool) (t : Tables) : Tables :=
  let conversations := t.conversations.filter p
  let runs := t.runs.filter (·.conversationId ∈ conversations.map (·.id))
  { conversations := conversations
    messages := t.messages.filter (·.conversationId ∈ conversations.map (·.id))
    runs := runs
    events := t.events.filter (·.runId ∈ runs.map (·.id))
    receipts := t.receipts.filter (·.runId ∈ runs.map (·.id)) }

/-- What belongs to the user. -/
def own (userId : Uuid) (t : Tables) : Tables := t.part (·.userId = userId)

/-- What belongs to other users. -/
def others (userId : Uuid) (t : Tables) : Tables := t.part (·.userId ≠ userId)

section Own
variable {db : Db} {t : Tables} {userId conversationId runId : Uuid}

theorem mem_own_conversations {c : Conversation} (hc : c ∈ t.conversations) (hu : c.userId = userId) :
    c.id ∈ (t.own userId).conversations.map (·.id) :=
  List.mem_map_of_mem (List.mem_filter.2 ⟨hc, decide_eq_true hu⟩)

theorem conversation_of_owned {c : Conversation} (h : t.owned db userId conversationId = .ok c) :
    conversationId ∈ (t.own userId).conversations.map (·.id) := by
  obtain ⟨hc, hid, hu, -⟩ := owned_eq h
  exact hid ▸ mem_own_conversations hc hu

/-- The user owns the repository among the user's own rows too. -/
theorem owner_own (db : Db) (userId repositoryId : Uuid) :
    (∃ r ∈ (db.own userId).repositories, r.id = repositoryId ∧ r.userId = userId) ↔
      ∃ r ∈ db.repositories, r.id = repositoryId ∧ r.userId = userId :=
  Table.exists_within fun _ _ h => decide_eq_true h.2

/-- `ConversationStore.owned` looks at the user's own rows only. -/
@[simp] theorem owned_own (db : Db) (t : Tables) (userId conversationId : Uuid) :
    (t.own userId).owned (db.own userId) userId conversationId = t.owned db userId conversationId := by
  have hc : (t.own userId).conversations.find? (fun c => c.id = conversationId ∧ c.userId = userId ∧
        ∃ r ∈ (db.own userId).repositories, r.id = c.repositoryId ∧ r.userId = userId) =
      t.conversations.find? fun c => c.id = conversationId ∧ c.userId = userId ∧
        ∃ r ∈ db.repositories, r.id = c.repositoryId ∧ r.userId = userId := by
    simp only [owner_own]
    exact Table.find?_within fun c _ h => decide_eq_true (of_decide_eq_true h).2.1
  unfold owned
  rw [hc]

/-- So does `RunStore.owned`. -/
@[simp] theorem ownedRun_own (db : Db) (t : Tables) (userId runId : Uuid) :
    (t.own userId).ownedRun (db.own userId) userId runId = t.ownedRun db userId runId := by
  have hc : ∀ run : AnswerRun, (∃ c ∈ (t.own userId).conversations, c.id = run.conversationId ∧ c.userId = userId ∧
        ∃ r ∈ db.repositories, r.id = c.repositoryId ∧ r.userId = userId) ↔
      ∃ c ∈ t.conversations, c.id = run.conversationId ∧ c.userId = userId ∧
        ∃ r ∈ db.repositories, r.id = c.repositoryId ∧ r.userId = userId :=
    fun run => Table.exists_within fun c _ h => decide_eq_true h.2.1
  have hr : (t.own userId).runs.find? (fun run => run.id = runId ∧ ∃ c ∈ (t.own userId).conversations,
        c.id = run.conversationId ∧ c.userId = userId ∧
          ∃ r ∈ (db.own userId).repositories, r.id = c.repositoryId ∧ r.userId = userId) =
      t.runs.find? fun run => run.id = runId ∧ ∃ c ∈ t.conversations, c.id = run.conversationId ∧
        c.userId = userId ∧ ∃ r ∈ db.repositories, r.id = c.repositoryId ∧ r.userId = userId := by
    simp only [owner_own, hc]
    refine Table.find?_within fun run _ h => decide_eq_true ?_
    obtain ⟨-, c, hcm, hid, hu, -⟩ := of_decide_eq_true h
    exact hid ▸ mem_own_conversations hcm hu
  unfold ownedRun
  rw [hr]

theorem ownedRun_eq {run : AnswerRun} (h : t.ownedRun db userId runId = .ok run) :
    run ∈ t.runs ∧ run.id = runId ∧ run.conversationId ∈ (t.own userId).conversations.map (·.id) := by
  unfold ownedRun at h
  split at h
  · cases h
  · rename_i run' hf
    cases h
    have hp := List.find?_some hf
    obtain ⟨hid, c, hc, hcid, hu, -⟩ := of_decide_eq_true hp
    exact ⟨List.mem_of_find?_eq_some hf, hid, hcid ▸ mem_own_conversations hc hu⟩

theorem mem_own_runs {run : AnswerRun} (hr : run ∈ t.runs)
    (hc : run.conversationId ∈ (t.own userId).conversations.map (·.id)) : run.id ∈ (t.own userId).runs.map (·.id) :=
  List.mem_map_of_mem (List.mem_filter.2 ⟨hr, decide_eq_true hc⟩)

end Own
end Tables
end RepoPilot
