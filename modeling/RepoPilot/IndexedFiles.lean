import RepoPilot.Snapshots
import RepoPilot.JobGuarantees
import RepoPilot.Definitions
import RepoPilot.Symbols

/-! # What an index holds of a file

The rows of a completed index are those its worker built from the files of the import, and for each file they are
exactly what `index_source` makes of its content: the symbols in their order, and chunks that cover the text. -/

namespace RepoPilot

/-- Two conditions, one after the other. -/
theorem filter_both {β : Type} (rows : List β) (p q : β → Prop) [DecidablePred p] [DecidablePred q] :
    rows.filter (fun y => p y ∧ q y) = (rows.filter fun y => p y).filter fun y => q y := by
  rw [List.filter_filter]
  exact List.filter_congr fun y _ => by simp [Bool.and_comm]

namespace Source
open RepoPilot.Parser

/-- The symbols of a Python source lie on its lines. -/
theorem outline_parsePython {parse : Text → Tree} (hparse : ∀ content root, parse content = .root root → Ranged content root)
    (content : Text) : Outline content (parsePython parse content).symbols := by
  have hnil : Outline content [] := ⟨by simp, by simp, by simp, by simp⟩
  unfold parsePython
  cases hroot : parse content with
  | syntaxError => exact hnil
  | recursionError => exact hnil
  | root node =>
    dsimp only
    cases hd : (walk maxNodes [(node, none)] []).diagnostic with
    | none =>
      have hnone : symbolsOf [] = [] := rfl
      obtain ⟨rows, hrows, hwalked⟩ := walk_walked hnone (Walked.start node) rfl hd
      rw [← hrows]
      exact outline_of_walked (hparse content node hroot) hwalked
    | some diagnostic =>
      rw [walk_diagnostic (hd ▸ Option.some_ne_none diagnostic)]
      exact hnil

/-- What is indexed of a source covers it. -/
theorem covers_indexSource {sha256 : Text → Text} {parse : Text → Tree}
    (hparse : ∀ content root, parse content = .root root → Ranged content root) {content : Text} {language : String}
    {result : IndexedSource} (h : indexSource sha256 (parsePython parse) content language = .ok result) :
    Covers content maxChunkBytes result.chunks := by
  unfold indexSource at h
  split at h
  · cases h
  dsimp only at h
  have houtline : Outline content (if language = "python" then parsePython parse content else ⟨[], none⟩).symbols := by
    split
    · exact outline_parsePython hparse content
    · exact ⟨by simp, by simp, by simp, by simp⟩
  generalize (if language = "python" then parsePython parse content else ⟨[], none⟩) = parsed at h houtline
  generalize hmade : chunkSource _ _ _ _ _ = made at h
  cases made with
  | error e => cases h
  | ok chunks =>
    cases h
    obtain ⟨chunks', hchunks, hcovers⟩ := chunkSource_covers sha256 content parsed.symbols _ maxChunkBytes houtline (by decide)
    cases hmade.symm.trans hchunks
    exact hcovers

/-- The symbols that are indexed are those of the parser. -/
theorem symbols_indexSource {sha256 : Text → Text} {parse : Text → Parsed} {content : Text} {language : String}
    {result : IndexedSource} (h : indexSource sha256 parse content language = .ok result) :
    result.symbols = if language = "python" then (parse content).symbols else [] := by
  unfold indexSource at h
  split at h
  · cases h
  · dsimp only at h
    generalize chunkSource _ _ _ _ _ = made at h
    cases made with
    | error e => cases h
    | ok chunks =>
      cases h
      dsimp only
      split <;> rfl

end Source

namespace Indexes
variable {env : Env} {files : List RepositoryFile} {built built' : Built} {f : RepositoryFile}

/-! ### One file of a build -/

/-- The symbols and chunks of the file `f` are those of `result`, behind those of `built`. -/
structure Adds (f : RepositoryFile) (result : Source.IndexedSource) (built built' : Built) : Prop where
  symbols : built'.symbols.filter (·.1 = f.id) =
    built.symbols.filter (·.1 = f.id) ++ result.symbols.zipIdx.map fun p => (f.id, p.2, p.1)
  chunks : built'.chunks.filter (·.1 = f.id) = built.chunks.filter (·.1 = f.id) ++ result.chunks.map (f.id, ·)

theorem filter_map_key {α β : Type} (i j : Uuid) (xs : List α) (g : α → β) :
    (xs.map fun x => (i, g x)).filter (·.1 = j) = if i = j then xs.map fun x => (i, g x) else [] := by
  by_cases h : i = j
  · rw [if_pos h, List.filter_eq_self]
    intro p hp
    obtain ⟨x, -, rfl⟩ := List.mem_map.1 hp
    simpa using h
  · rw [if_neg h, List.filter_eq_nil_iff]
    intro p hp
    obtain ⟨x, -, rfl⟩ := List.mem_map.1 hp
    simpa using h

theorem addFile_eq (h : addFile env built f = .ok built') :
    ∃ result, Source.indexSource env.sha256 env.parsePython f.content f.language = .ok result ∧
      built'.symbols = built.symbols ++ result.symbols.zipIdx.map (fun p => (f.id, p.2, p.1)) ∧
      built'.chunks = built.chunks ++ result.chunks.map (f.id, ·) ∧
      built'.symbols.length ≤ 10000 ∧ built'.chunks.length ≤ 10000 := by
  unfold addFile at h
  simp only [bind_ok] at h
  obtain ⟨result, hr, h⟩ := h
  split at h
  · cases h
  · rename_i hsize
    cases h
    refine ⟨result, hr, rfl, rfl, ?_, ?_⟩ <;> simp only [List.length_append, List.length_map, List.length_zipIdx] <;> omega

/-- A build within the limits of an index. -/
theorem build_size (h : build env files = .ok built) : built.symbols.length ≤ 10000 ∧ built.chunks.length ≤ 10000 :=
  foldlM_keeps (P := fun built : Built => built.symbols.length ≤ 10000 ∧ built.chunks.length ≤ 10000)
    (fun _ _ _ _ _ h => (addFile_eq h).choose_spec.2.2.2) ⟨by simp, by simp⟩ h

/-- A file that is not among the files adds nothing. -/
theorem foldlM_other {i : Uuid} (h : files.foldlM (addFile env) built = .ok built') (hi : ∀ f ∈ files, f.id ≠ i) :
    built'.symbols.filter (·.1 = i) = built.symbols.filter (·.1 = i) ∧
      built'.chunks.filter (·.1 = i) = built.chunks.filter (·.1 = i) := by
  refine foldlM_keeps (P := fun b => b.symbols.filter (·.1 = i) = built.symbols.filter (·.1 = i) ∧
    b.chunks.filter (·.1 = i) = built.chunks.filter (·.1 = i)) (fun b f hf b' hb hadd => ?_) ⟨rfl, rfl⟩ h
  obtain ⟨result, -, hsym, hch, -⟩ := addFile_eq hadd
  have hne := hi f hf
  rw [hsym, hch, List.filter_append, List.filter_append, filter_map_key, filter_map_key, if_neg hne, if_neg hne,
    List.append_nil, List.append_nil]
  exact hb

/-- Each file adds what is indexed of its content. -/
theorem foldlM_adds (h : files.foldlM (addFile env) built = .ok built') (hn : (files.map (·.id)).Nodup) (hf : f ∈ files) :
    ∃ result, Source.indexSource env.sha256 env.parsePython f.content f.language = .ok result ∧
      Adds f result built built' := by
  induction files generalizing built with
  | nil => cases hf
  | cons g files ih =>
    rw [List.foldlM_cons, bind_ok] at h
    obtain ⟨b, hb, h⟩ := h
    obtain ⟨hg, hn⟩ := List.nodup_cons.1 hn
    obtain ⟨result, hr, hsym, hch, -⟩ := addFile_eq hb
    rcases List.mem_cons.1 hf with rfl | hf
    · obtain ⟨hs, hc⟩ := foldlM_other h fun x hx he => hg (List.mem_map.2 ⟨x, hx, he⟩)
      refine ⟨result, hr, ?_, ?_⟩
      · rw [hs, hsym, List.filter_append, filter_map_key, if_pos rfl]
      · rw [hc, hch, List.filter_append, filter_map_key, if_pos rfl]
    · obtain ⟨result', hr', ha⟩ := ih h hn hf
      have hne : g.id ≠ f.id := fun he => hg (List.mem_map.2 ⟨f, hf, he.symm⟩)
      refine ⟨result', hr', ?_, ?_⟩
      · rw [ha.symbols, hsym, List.filter_append, filter_map_key, if_neg hne, List.append_nil]
      · rw [ha.chunks, hch, List.filter_append, filter_map_key, if_neg hne, List.append_nil]

/-- The build of an import holds of each file exactly what is indexed of its content. -/
theorem build_file (h : build env files = .ok built) (hn : (files.map (·.id)).Nodup) (hf : f ∈ files) :
    ∃ result, Source.indexSource env.sha256 env.parsePython f.content f.language = .ok result ∧
      built.symbols.filter (·.1 = f.id) = result.symbols.zipIdx.map (fun p => (f.id, p.2, p.1)) ∧
      built.chunks.filter (·.1 = f.id) = result.chunks.map (f.id, ·) := by
  obtain ⟨result, hr, ha⟩ := foldlM_adds h hn hf
  exact ⟨result, hr, ha.symbols, ha.chunks⟩

/-! ### What a worker has built -/

/-- What a worker with the claim `claim` on an index of the import `source` works on. -/
def Builds (env : Env) (claim : Claim) (db : Db) (source : Uuid) : Pc → Prop
  | .parsing s files | .parse s files => s = source ∧ files = sourceFiles claim source db
  | .storing s built _ | .publish s built _ | .published s built _ =>
    s = source ∧ build env (sourceFiles claim source db) = .ok built
  | _ => True

theorem Builds.congr {claim : Claim} {db db' : Db} {source : Uuid} {pc : Pc} (h : Builds env claim db source pc)
    (hf : sourceFiles claim source db' = sourceFiles claim source db) : Builds env claim db' source pc := by
  unfold Builds at h ⊢
  rw [hf]
  exact h

/-- A step of the worker works on the same files. -/
theorem Builds.effect {claim : Claim} {now : Time} {input : Input} {pc pc' : Pc} {db db' : Db} {x : RepositoryIndex}
    (h : Builds env claim db x.data.importJobId pc) (hk : Table.Keyed Job.id db.indexes) (hx : x ∈ db.indexes)
    (hid : x.id = claim.jobId) (he : Effect env now claim input pc db pc' db') :
    Builds env claim db x.data.importJobId pc' := by
  cases he with
  | idle => exact h
  | stopped pc' hpc' hpc => rcases hpc' with rfl | ⟨code, message, rfl⟩ <;> trivial
  | @loaded job hpc hj =>
    have hjid := List.find?_some hj
    rw [hk.eq (List.mem_of_find?_eq_some hj) hx ((of_decide_eq_true hjid).trans hid.symm)]
    exact ⟨rfl, rfl⟩
  | parsing hpc hr => rw [hpc] at h; exact h
  | parsed hpc hb =>
    rw [hpc] at h
    refine ⟨h.1, ?_⟩
    rw [← h.2]
    exact hb
  | storing hpc hr => rw [hpc] at h; exact h
  | published hpc hin hlen hp => rw [hpc] at h; exact h
  | failed hpc => trivial

/-- A worker reads the files of one import. -/
theorem sourceFiles_congr {claim : Claim} {db db' : Db} {source : Uuid}
    (h : db'.files.filter (·.importJobId = source) = db.files.filter (·.importJobId = source)) :
    sourceFiles claim source db' = sourceFiles claim source db := by
  unfold sourceFiles
  rw [filter_both db'.files (fun f => f.importJobId = source) fun f => f.repositoryId = claim.repositoryId, h, ← filter_both]

end Indexes

namespace System
variable {env : Env} {s : System}

/-- The worker of an index knows its repository, and has built it from its import. -/
structure BuildInv (env : Env) (s : System) : Prop where
  snap : SnapInv env s
  workers : ∀ k ∈ s.jobs.indexWorkers, ∀ x ∈ s.jobs.db.indexes, x.id = k.claim.jobId →
    k.claim.repositoryId = x.repositoryId ∧ Indexes.Builds env k.claim s.jobs.db x.data.importJobId k.pc

/-- The files of an index that is still there are as they were. -/
theorem SnapInv.files_kept (h : SnapInv env s) {a : Jobs.Action} {x₀ : RepositoryIndex}
    (h' : (Jobs.step env s.world.clock a s.jobs).LinkInv) (hf : ∀ i ∈ a.ids, i ∉ s.world.issued)
    (hx₀ : x₀ ∈ s.jobs.db.indexes) {x : RepositoryIndex} (hx : x ∈ (Jobs.step env s.world.clock a s.jobs).db.indexes)
    (himp : x₀.data.importJobId = x.data.importJobId) (hrep : x₀.repositoryId = x.repositoryId) :
    (Jobs.step env s.world.clock a s.jobs).db.files.filter (·.importJobId = x.data.importJobId) =
      s.jobs.db.files.filter (·.importJobId = x.data.importJobId) := by
  obtain ⟨j, hj, hjx, hc, hjr⟩ := h.gen.jobs.content.sources x₀ hx₀
  obtain ⟨j', hj', hjx', -, hjr'⟩ := Jobs.sources_step env s.world.clock h.gen.jobs.inv hf h.gen.jobs.content.sources x hx
  obtain ⟨r, hr, hid⟩ := h'.imports j' hj'
  have hfix := Jobs.fixed env s.world.clock h.snapped h.gen.jobs.inv hf ⟨r, hr, hid.trans hjr'⟩
  have hfiles := (hfix.imports j hj (hjr.trans hrep) hc).2
  rwa [hjx, himp] at hfiles

theorem buildInv_jobs (h : BuildInv env s) {a : Jobs.Action} (hf : ∀ i ∈ a.ids, i ∉ s.world.issued) :
    let s' := Jobs.step env s.world.clock a s.jobs
    ∀ k ∈ s'.indexWorkers, ∀ x ∈ s'.db.indexes, x.id = k.claim.jobId →
      k.claim.repositoryId = x.repositoryId ∧ Indexes.Builds env k.claim s'.db x.data.importJobId k.pc := by
  intro s' k hk x hx hid
  have hinv := h.snap.gen.jobs.inv
  have hlink : s'.LinkInv := h.snap.link.jobs.step hinv h.snap.gen.jobs.output h.snap.gen.jobs.content hf
  have hold : ∀ {claim : Claim} {pc : Indexes.Pc}, claim.jobId = x.id → claim.jobId ∈ s.world.issued →
      (∀ x₀ ∈ s.jobs.db.indexes, x₀.id = claim.jobId →
        claim.repositoryId = x₀.repositoryId ∧ Indexes.Builds env claim s.jobs.db x₀.data.importJobId pc) →
      claim.repositoryId = x.repositoryId ∧ Indexes.Builds env claim s'.db x.data.importJobId pc := by
    intro claim pc hcx hissued hb
    obtain ⟨x₀, hx₀, hid₀, himp, -, hrep⟩ :=
      Jobs.index_origin env s.world.clock hinv hf hx (hcx ▸ hissued)
    obtain ⟨hr, hb⟩ := hb x₀ hx₀ (hid₀.trans hcx.symm)
    rw [himp] at hb
    exact ⟨hr.trans hrep, hb.congr (Indexes.sourceFiles_congr (h.snap.files_kept hlink hf hx₀ hx himp hrep))⟩
  rcases Jobs.Inv.indexWorkers_step hk with hk | ⟨jobId, token, p, -, hp, rfl, hdb⟩ | ⟨i, input, k₀, -, hk₀, he, heff⟩
  · exact hold hid.symm (hinv.indexClaims k hk).job (h.workers k hk)
  · obtain ⟨q, hq, -, -, ht, hjob, hrep, -⟩ := Job.claimJob_eq hp
    change x ∈ s'.db.indexes at hx
    rw [hdb, ht] at hx
    obtain ⟨y, hy, rfl⟩ := Table.mem_update.1 hx
    have hyq : y = q := by
      refine hinv.indexes.keyed.eq hy hq ?_
      rw [← hjob, ← hid]
      split <;> rfl
    subst hyq
    refine ⟨hrep.trans ?_, trivial⟩
    split <;> rfl
  · have hk₀ := Table.mem_of_getElem? hk₀
    rw [he] at hid ⊢
    refine hold hid.symm (hinv.indexClaims k₀ hk₀).job fun x₀ hx₀ hid₀ => ?_
    obtain ⟨hr, hb⟩ := h.workers k₀ hk₀ x₀ hx₀ hid₀
    exact ⟨hr, hb.effect hinv.indexes.keyed hx₀ hid₀ heff⟩

theorem buildInv_step (s : System) (a : Action) (h : BuildInv env s) : BuildInv env (step env s a) := by
  refine ⟨snapInv_step s a h.snap, ?_⟩
  cases a with
  | tick elapsed => exact h.workers
  | chat a => simp only [step]; split <;> exact h.workers
  | jobs a =>
    simp only [step]
    split
    · rename_i hfr
      exact buildInv_jobs h hfr.1.2
    · exact h.workers

theorem buildInv (env : Env) (acts : List Action) : BuildInv env (run env acts) :=
  Machine.invariant ⟨snapInv env [], List.forall_mem_nil _⟩ buildInv_step acts

/-! ### The rows of one file -/

/-- The symbol `p.1` of a file, the `p.2`-th of its symbols. -/
def symbolOf (x : RepositoryIndex) (fileId : Uuid) (p : Symbol × Nat) : CodeSymbol where
  indexId := x.id
  importJobId := x.data.importJobId
  fileId := fileId
  ordinal := p.2
  name := p.1.name
  qualifiedName := p.1.qualifiedName
  kind := p.1.kind
  signature := p.1.signature
  docstring := p.1.docstring
  parentOrdinal := p.1.parent
  startLine := p.1.startLine
  endLine := p.1.endLine

/-- The chunks of a file, among the rows of a publication. -/
theorem chunkRows_file {claim : Claim} {source fileId : Uuid} {ids : List Uuid} {chunks : List (Uuid × Chunk)}
    (h : ids.length = chunks.length) :
    ((List.zipWith (Indexes.chunkRow claim source) ids chunks).filter (·.fileId = fileId)).map (·.chunk) =
      (chunks.filter (·.1 = fileId)).map (·.2) := by
  induction chunks generalizing ids with
  | nil => simp
  | cons c chunks ih =>
    cases ids with
    | nil => cases h
    | cons i ids =>
      have hrest := ih (Nat.succ.inj h)
      simp only [List.zipWith_cons_cons, List.filter_cons]
      by_cases hc : c.1 = fileId
      · simpa [Indexes.chunkRow, hc] using hrest
      · simpa [Indexes.chunkRow, hc] using hrest

/-- The rows of a completed index that belong to the file `f`. -/
structure FileRows (env : Env) (db : Db) (x : RepositoryIndex) (f : RepositoryFile) (result : Source.IndexedSource) :
    Prop where
  indexed : Source.indexSource env.sha256 env.parsePython f.content f.language = .ok result
  symbols : db.symbols.filter (fun y => y.indexId = x.id ∧ y.fileId = f.id) = result.symbols.zipIdx.map (symbolOf x f.id)
  chunks : (db.chunks.filter fun c => c.indexId = x.id ∧ c.fileId = f.id).map (·.chunk) = result.chunks
  symbolCount : result.symbols.length ≤ 10000
  chunkCount : result.chunks.length ≤ 10000

/-- What a completed index was built from. -/
theorem BuildInv.published (h : BuildInv env s) {x : RepositoryIndex} (hx : x ∈ s.jobs.db.indexes)
    (hc : x.status = .completed) : ∃ claim built ids, claim.jobId = x.id ∧ claim.repositoryId = x.repositoryId ∧
      Indexes.build env (Indexes.sourceFiles claim x.data.importJobId s.jobs.db) = .ok built ∧
      ids.length = built.chunks.length ∧
      s.jobs.db.symbols.filter (·.indexId = x.id) = built.symbols.map (Indexes.symbolRow claim x.data.importJobId) ∧
      s.jobs.db.chunks.filter (·.indexId = x.id) =
        List.zipWith (Indexes.chunkRow claim x.data.importJobId) ids built.chunks := by
  obtain ⟨i, k, source, built, n, ids, hk, hid, hpc, hlen, hsym, hch, -⟩ :=
    h.snap.gen.jobs.output.indexesPublished.result x hx hc
  obtain ⟨hrep, hb⟩ := h.workers k (Table.mem_of_getElem? hk) x hx hid.symm
  rw [hpc] at hb
  obtain ⟨rfl, hb⟩ := hb
  exact ⟨k.claim, built, ids, hid, hrep, hb, hlen, hsym, hch⟩

/-- A completed index holds of every file of its import exactly what is indexed of its content. -/
theorem BuildInv.fileRows (h : BuildInv env s) {x : RepositoryIndex} (hx : x ∈ s.jobs.db.indexes)
    (hc : x.status = .completed) {f : RepositoryFile} (hf : f ∈ s.jobs.db.files) (himp : f.importJobId = x.data.importJobId) :
    ∃ result, FileRows env s.jobs.db x f result := by
  obtain ⟨claim, built, ids, hjob, hrep, hb, hlen, hsym, hch⟩ := h.published hx hc
  have hjobs := h.snap.gen.jobs
  obtain ⟨j, hj, hjx, -, hjr⟩ := hjobs.content.sources x hx
  have hmem : f ∈ Indexes.sourceFiles claim x.data.importJobId s.jobs.db := by
    refine (List.mem_insertionSort _).2 (List.mem_filter.2 ⟨hf, decide_eq_true ⟨himp, ?_⟩⟩)
    rw [← h.snap.link.jobs.files f hf j hj (hjx.trans himp.symm), hjr, hrep]
  have hnodup : ((Indexes.sourceFiles claim x.data.importJobId s.jobs.db).map (·.id)).Nodup := by
    refine ((List.perm_insertionSort _ _).map _).nodup_iff.2 ?_
    exact hjobs.content.fileKeys.filter _
  obtain ⟨result, hr, hs, hcs⟩ := Indexes.build_file hb hnodup hmem
  obtain ⟨hsize, hsize'⟩ := Indexes.build_size hb
  refine ⟨result, hr, ?_, ?_, ?_, ?_⟩
  · rw [filter_both s.jobs.db.symbols (fun y => y.indexId = x.id) fun y => y.fileId = f.id, hsym, List.filter_map]
    have hcomp : ((fun y : CodeSymbol => decide (y.fileId = f.id)) ∘ Indexes.symbolRow claim x.data.importJobId) =
        fun p : Uuid × Nat × Symbol => decide (p.1 = f.id) := rfl
    rw [hcomp, hs, List.map_map]
    refine List.map_congr_left fun p _ => ?_
    simp [Indexes.symbolRow, symbolOf, hjob]
  · rw [filter_both s.jobs.db.chunks (fun c => c.indexId = x.id) fun c => c.fileId = f.id, hch, chunkRows_file hlen, hcs, List.map_map]
    exact List.map_id _
  · have := List.length_filter_le (fun p => decide (p.1 = f.id)) built.symbols
    rw [hs, List.length_map, List.length_zipIdx] at this
    omega
  · have := List.length_filter_le (fun p => decide (p.1 = f.id)) built.chunks
    rw [hcs, List.length_map] at this
    omega

end System
end RepoPilot
