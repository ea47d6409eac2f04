import RepoPilot.IndexedFiles
import RepoPilot.Integrity

/-! # Keys through ordinals

Symbols and chunks also refer to each other inside a file: a symbol to its parent and a chunk to its symbol, both by
ordinal. The worker of an index inserts the ordinals that `index_source` gave, and these fit each other. -/

namespace RepoPilot

/-- The keys of symbols and chunks that hold an ordinal. -/
structure Db.Outlined (db : Db) : Prop where
  symbolOrdinals : Table.Keyed (fun y => (y.indexId, y.fileId, y.ordinal)) db.symbols
  chunkOrdinals : Table.Keyed (fun c => (c.indexId, c.fileId, c.chunk.ordinal)) db.chunks
  parents : ∀ y ∈ db.symbols, ∀ p ∈ y.parentOrdinal,
    ∃ z ∈ db.symbols, z.indexId = y.indexId ∧ z.fileId = y.fileId ∧ z.ordinal = p
  chunkSymbols : ∀ c ∈ db.chunks, ∀ o ∈ c.chunk.symbolOrdinal,
    ∃ z ∈ db.symbols, z.indexId = c.indexId ∧ z.fileId = c.fileId ∧ z.ordinal = o

/-- Rows that differ inside each group differ. -/
theorem Table.keyed_of_groups {α κ β γ : Type} [DecidableEq β] {key : α → κ} {g : α → β} {o : α → γ}
    (hkey : ∀ y z, key y = key z → g y = g z ∧ o y = o z) {rows : List α}
    (h : ∀ y ∈ rows, Table.Keyed o (rows.filter (g · = g y))) : Table.Keyed key rows := by
  induction rows with
  | nil => exact List.nodup_nil
  | cons y rows ih =>
    refine List.nodup_cons.2 ⟨fun hy => ?_, ih fun z hz => ?_⟩
    · obtain ⟨z, hz, he⟩ := List.mem_map.1 hy
      obtain ⟨hg, ho⟩ := hkey z y he
      have hgroup := h y List.mem_cons_self
      rw [List.filter_cons_of_pos (by simp)] at hgroup
      exact (List.nodup_cons.1 hgroup).1 (List.mem_map.2 ⟨z, List.mem_filter.2 ⟨hz, decide_eq_true hg⟩, ho⟩)
    · exact (h z (List.mem_cons_of_mem _ hz)).sublist (((List.sublist_cons_self y rows).filter _).map o)

namespace Source
open RepoPilot.Parser
variable {sha256 : Text → Text} {parse : Text → Tree} {content : Text}

/-! ### The ordinals of one source -/

/-- The ordinals of a source fit each other. -/
structure Linked (result : IndexedSource) : Prop where
  parents : ∀ s ∈ result.symbols, ∀ p ∈ s.parent, p < result.symbols.length
  ordinals : (result.chunks.map (·.ordinal)).Nodup
  owners : ∀ c ∈ result.chunks, ∀ o ∈ c.symbolOrdinal, o < result.symbols.length

theorem parents_of_nested {symbols : List Symbol} (h : Nested symbols) :
    ∀ s ∈ symbols, ∀ p ∈ s.parent, p < symbols.length := by
  intro s hs p hp
  obtain ⟨i, hi⟩ := List.mem_iff_getElem?.1 hs
  obtain ⟨t, ht, -⟩ := h.held i s p hi hp
  exact (List.getElem?_eq_some_iff.1 ht).1

theorem parents_parsePython (parse : Text → Tree) (content : Text) :
    ∀ s ∈ (parsePython parse content).symbols, ∀ p ∈ s.parent, p < (parsePython parse content).symbols.length := by
  unfold parsePython
  cases parse content with
  | syntaxError => exact List.forall_mem_nil _
  | recursionError => exact List.forall_mem_nil _
  | root node =>
    dsimp only
    cases hd : (walk maxNodes [(node, none)] []).diagnostic with
    | none =>
      have hnone : symbolsOf [] = [] := rfl
      obtain ⟨rows, hrows, hwalked⟩ := walk_walked hnone (Walked.start node) rfl hd
      rw [← hrows]
      exact parents_of_nested (nested_of_walked hwalked)
    | some diagnostic =>
      rw [walk_diagnostic (hd ▸ Option.some_ne_none diagnostic)]
      exact List.forall_mem_nil _

/-- A region carries the place of its symbol. -/
theorem regions_place {symbols : List Symbol} {rs : List (Nat × Nat × Nat)}
    (h : regions content (lineStarts content) symbols = some rs) : ∀ r ∈ rs, r.2.2 < symbols.length := by
  intro r hr
  obtain ⟨p, hp, hregion⟩ := exists_of_mem_mapM h hr
  have hplace := (List.mem_zipIdx' (List.mem_filter.1 hp).1).1
  unfold region at hregion
  dsimp only at hregion
  split at hregion
  · obtain ⟨first, -, he⟩ := Option.bind_eq_some_iff.1 hregion
    cases he
    exact hplace
  · obtain ⟨first, -, he⟩ := Option.bind_eq_some_iff.1 hregion
    cases he
    exact hplace

/-- The chunks are numbered, and belong to symbols that are there. -/
theorem linked_chunkSource {symbols : List Symbol} {mode : String} {maxBytes : Nat} {chunks : List Chunk}
    (h : chunkSource sha256 content symbols mode maxBytes = .ok chunks) :
    (chunks.map (·.ordinal)).Nodup ∧ ∀ c ∈ chunks, ∀ o ∈ c.symbolOrdinal, o < symbols.length := by
  unfold chunkSource at h
  split at h
  · cases h
  dsimp only at h
  split at h
  · cases h
  rename_i rs hrs
  cases h
  refine ⟨?_, fun c hc o ho => ?_⟩
  · rw [List.map_map]
    show (List.map Prod.snd _).Nodup
    rw [List.zipIdx_map_snd]
    exact List.nodup_range'
  · obtain ⟨⟨⟨first, stop, symbol⟩, ordinal⟩, hp, rfl⟩ := List.mem_map.1 hc
    obtain ⟨⟨from', to', label⟩, hspan, hp⟩ := List.mem_flatMap.1 (List.fst_mem_of_mem_zipIdx hp)
    obtain ⟨q, -, he⟩ := List.mem_map.1 hp
    cases he
    obtain rfl : label = some o := ho
    exact regions_place hrs _ ((List.perm_insertionSort _ _).mem_iff.1 (mem_of_mem_spans hspan))

theorem linked_indexSource {language : String} {result : IndexedSource}
    (h : indexSource sha256 (parsePython parse) content language = .ok result) : Linked result := by
  unfold indexSource at h
  split at h
  · cases h
  dsimp only at h
  have hparents : ∀ s ∈ (if language = "python" then parsePython parse content else ⟨[], none⟩).symbols,
      ∀ p ∈ s.parent, p < (if language = "python" then parsePython parse content else ⟨[], none⟩).symbols.length := by
    split
    · exact parents_parsePython parse content
    · exact List.forall_mem_nil _
  generalize (if language = "python" then parsePython parse content else ⟨[], none⟩) = parsed at h hparents
  generalize hmade : chunkSource _ _ _ _ _ = made at h
  cases made with
  | error e => cases h
  | ok chunks =>
    cases h
    obtain ⟨hordinals, howners⟩ := linked_chunkSource hmade
    exact ⟨hparents, hordinals, howners⟩

end Source

/-! ### The ordinals of an index -/

namespace System
variable {env : Env} {parse : Text → Parser.Tree} {db : Db} {x : RepositoryIndex} {f : RepositoryFile}
  {result : Source.IndexedSource}

theorem FileRows.linked (h : FileRows env db x f result) (hparse : env.parsePython = Parser.parsePython parse) :
    Source.Linked result := by
  have hindexed := h.indexed
  rw [hparse] at hindexed
  exact Source.linked_indexSource hindexed

/-- Every ordinal below the number of symbols of a file is one of a row. -/
theorem FileRows.symbol (h : FileRows env db x f result) {o : Nat} (ho : o < result.symbols.length) :
    ∃ z ∈ db.symbols, z.indexId = x.id ∧ z.fileId = f.id ∧ z.ordinal = o := by
  have hz : symbolOf x f.id (result.symbols[o], o) ∈ result.symbols.zipIdx.map (symbolOf x f.id) :=
    List.mem_map_of_mem (List.mem_zipIdx_iff_getElem?.2 (List.getElem?_eq_getElem ho))
  rw [← h.symbols] at hz
  exact ⟨_, (List.mem_filter.1 hz).1, rfl, rfl, rfl⟩

theorem FileRows.symbolOrdinals (h : FileRows env db x f result) :
    Table.Keyed (·.ordinal) (db.symbols.filter fun y => y.indexId = x.id ∧ y.fileId = f.id) := by
  have hordinals : (result.symbols.zipIdx.map (symbolOf x f.id)).map (·.ordinal) = result.symbols.zipIdx.map Prod.snd :=
    List.map_map
  unfold Table.Keyed
  rw [h.symbols, hordinals, List.zipIdx_map_snd]
  exact List.nodup_range'

theorem FileRows.chunkOrdinals (h : FileRows env db x f result) (hl : Source.Linked result) :
    Table.Keyed (·.chunk.ordinal) (db.chunks.filter fun c => c.indexId = x.id ∧ c.fileId = f.id) := by
  have hordinals := hl.ordinals
  rw [← h.chunks, List.map_map] at hordinals
  exact hordinals

theorem FileRows.parent (h : FileRows env db x f result) (hl : Source.Linked result) {y : CodeSymbol}
    (hy : y ∈ db.symbols) (hx : y.indexId = x.id) (hf : y.fileId = f.id) {p : Nat} (hp : p ∈ y.parentOrdinal) :
    p < result.symbols.length := by
  have hrow : y ∈ db.symbols.filter fun y => y.indexId = x.id ∧ y.fileId = f.id :=
    List.mem_filter.2 ⟨hy, decide_eq_true ⟨hx, hf⟩⟩
  rw [h.symbols] at hrow
  obtain ⟨q, hq, rfl⟩ := List.mem_map.1 hrow
  exact hl.parents q.1 (List.fst_mem_of_mem_zipIdx hq) p hp

theorem FileRows.owner (h : FileRows env db x f result) (hl : Source.Linked result) {c : CodeChunk}
    (hc : c ∈ db.chunks) (hx : c.indexId = x.id) (hf : c.fileId = f.id) {o : Nat} (ho : o ∈ c.chunk.symbolOrdinal) :
    o < result.symbols.length := by
  refine hl.owners c.chunk ?_ o ho
  rw [← h.chunks]
  exact List.mem_map_of_mem (List.mem_filter.2 ⟨hc, decide_eq_true ⟨hx, hf⟩⟩)

/-- The rows of a file and an index that a row refers to. -/
theorem BuildInv.rowsAt {s : System} (h : BuildInv env s) (hs : s.jobs.db.Schema) {indexId fileId importJobId : Uuid}
    (hx : ∃ x ∈ s.jobs.db.indexes, x.id = indexId ∧ x.status = .completed)
    (hi : ∃ x ∈ s.jobs.db.indexes, x.id = indexId ∧ x.data.importJobId = importJobId)
    (hf : ∃ f ∈ s.jobs.db.files, f.id = fileId ∧ f.importJobId = importJobId) :
    ∃ x f result, indexId = x.id ∧ fileId = f.id ∧ FileRows env s.jobs.db x f result := by
  obtain ⟨x, hx, rfl, hc⟩ := hx
  obtain ⟨x', hx', hid, himp⟩ := hi
  obtain rfl := hs.indexKeys.eq hx' hx hid
  obtain ⟨f, hf, rfl, hfile⟩ := hf
  obtain ⟨result, hrows⟩ := h.fileRows hx hc hf (hfile.trans himp.symm)
  exact ⟨x', f, result, rfl, rfl, hrows⟩

theorem BuildInv.outlined {s : System} (h : BuildInv env s) (hs : s.jobs.db.Schema)
    (hparse : env.parsePython = Parser.parsePython parse) : s.jobs.db.Outlined := by
  have hpublished := h.snap.gen.jobs.output.indexesPublished
  have hsymbol : ∀ y ∈ s.jobs.db.symbols, ∃ x f result, y.indexId = x.id ∧ y.fileId = f.id ∧
      FileRows env s.jobs.db x f result := fun y hy =>
    h.rowsAt hs (hpublished.symbolOwner y hy) (hs.symbolIndexes y hy) (hs.symbolFiles y hy)
  have hchunk : ∀ c ∈ s.jobs.db.chunks, ∃ x f result, c.indexId = x.id ∧ c.fileId = f.id ∧
      FileRows env s.jobs.db x f result := fun c hc =>
    h.rowsAt hs (hpublished.chunkOwner c hc) (hs.chunkIndexes c hc) (hs.chunkFiles c hc)
  refine ⟨?_, ?_, fun y hy p hp => ?_, fun c hc o ho => ?_⟩
  · refine Table.keyed_of_groups (g := fun y : CodeSymbol => (y.indexId, y.fileId)) (o := (·.ordinal)) ?_ ?_
    · simp +contextual
    · intro y hy
      obtain ⟨x, f, result, hx, hf, hrows⟩ := hsymbol y hy
      simp only [hx, hf, Prod.mk.injEq]
      exact hrows.symbolOrdinals
  · refine Table.keyed_of_groups (g := fun c : CodeChunk => (c.indexId, c.fileId)) (o := (·.chunk.ordinal)) ?_ ?_
    · simp +contextual
    · intro c hc
      obtain ⟨x, f, result, hx, hf, hrows⟩ := hchunk c hc
      simp only [hx, hf, Prod.mk.injEq]
      exact hrows.chunkOrdinals (hrows.linked hparse)
  · obtain ⟨x, f, result, hx, hf, hrows⟩ := hsymbol y hy
    rw [hx, hf]
    exact hrows.symbol (hrows.parent (hrows.linked hparse) hy hx hf hp)
  · obtain ⟨x, f, result, hx, hf, hrows⟩ := hchunk c hc
    rw [hx, hf]
    exact hrows.symbol (hrows.owner (hrows.linked hparse) hc hx hf ho)

/-- In every reachable state every row has the rows it refers to, and no two rows share a key. -/
theorem integrity (env : Env) (parse : Text → Parser.Tree) (acts : List Action) :
    let s := run { env with parsePython := Parser.parsePython parse } acts
    Schema s ∧ s.jobs.db.Outlined := by
  intro s
  have hs : Schema s := schema _ acts
  exact ⟨hs, (buildInv _ acts).outlined hs.db rfl⟩

end System
end RepoPilot
