import RepoPilot.Admission
import RepoPilot.IndexedFiles
import RepoPilot.Paging
import RepoPilot.Pages
import RepoPilot.Provenance
import RepoPilot.Services

/-! # Browsing a snapshot page by page

The file list and an indexed file are read in pages, each request in whatever state it meets. Because the snapshot
under them never changes, the pages fit together: the list is every file once, by path, and the chunks of a file are
its text. -/

namespace RepoPilot

/-- A query for the key of a row with more conditions that the row meets. -/
theorem Table.Keyed.find?_and {α κ : Type} [DecidableEq κ] {key : α → κ} {t : List α} (h : Table.Keyed key t) {r : α}
    (hr : r ∈ t) {p : α → Prop} [DecidablePred p] (hp : p r) : t.find? (fun q => key q = key r ∧ p q) = some r := by
  cases hf : t.find? fun q => key q = key r ∧ p q with
  | none =>
    have := List.find?_eq_none.1 hf r hr
    simp [hp] at this
  | some q =>
    have hq := List.find?_some hf
    exact congrArg some (h.eq (List.mem_of_find?_eq_some hf) hr (of_decide_eq_true hq).1)

/-! ### Pages of one state -/

namespace RepositoryService

/-- The files of an import by path. -/
def byPath (db : Db) (repositoryId importId : Uuid) : List RepositoryFile :=
  (db.files.filter fun f => f.repositoryId = repositoryId ∧ f.importJobId = importId).insertionSort fun a b => a.path ≤ b.path

variable {db : Db} {userId repositoryId : Uuid} {offset limit : Nat}

theorem files_ok {p : FilePage} (h : files db userId repositoryId offset limit = .ok p) :
    ∃ r j, db.owned userId repositoryId = .ok (r, j) ∧
      (p.items, p.nextOffset) = Paging.page limit ((byPath db repositoryId j.id).map FileResponse.validate) offset := by
  unfold files at h
  cases ho : db.owned userId repositoryId with
  | error e => rw [ho] at h; cases h
  | ok source =>
    rw [ho] at h
    cases h
    refine ⟨source.1, source.2, rfl, ?_⟩
    rw [Paging.page_map, ← Paging.page_of_lookahead]
    rfl

theorem files_error {e : AppError} (h : files db userId repositoryId offset limit = .error e) :
    db.owned userId repositoryId = .error e := by
  unfold files at h
  cases ho : db.owned userId repositoryId with
  | error e' =>
    rw [ho] at h
    cases h
    rfl
  | ok source => rw [ho] at h; cases h

end RepositoryService

namespace IndexService

/-- The chunks of a file in an index. -/
def chunkRows (db : Db) (indexId fileId : Uuid) : List CodeChunk :=
  (db.chunks.filter fun c => c.indexId = indexId ∧ c.fileId = fileId).insertionSort fun a b =>
    a.chunk.ordinal ≤ b.chunk.ordinal

def symbolRows (db : Db) (indexId fileId : Uuid) : List CodeSymbol :=
  (db.symbols.filter fun s => s.indexId = indexId ∧ s.fileId = fileId).insertionSort fun a b => a.ordinal ≤ b.ordinal

theorem chunkRows_congr {db db' : Db} {indexId fileId : Uuid}
    (h : db'.chunks.filter (·.indexId = indexId) = db.chunks.filter (·.indexId = indexId)) :
    chunkRows db' indexId fileId = chunkRows db indexId fileId := by
  unfold chunkRows
  rw [filter_both db'.chunks (fun c => c.indexId = indexId) fun c => c.fileId = fileId, h, ← filter_both]

theorem symbolRows_congr {db db' : Db} {indexId fileId : Uuid}
    (h : db'.symbols.filter (·.indexId = indexId) = db.symbols.filter (·.indexId = indexId)) :
    symbolRows db' indexId fileId = symbolRows db indexId fileId := by
  unfold symbolRows
  rw [filter_both db'.symbols (fun s => s.indexId = indexId) fun s => s.fileId = fileId, h, ← filter_both]

/-- A page of an indexed file, read of the index `x` and the file `f`. -/
structure PageOf (db : Db) (x : RepositoryIndex) (f : RepositoryFile) (symbolOffset chunkOffset : Nat)
    (p : IndexedFilePage) : Prop where
  index : p.indexId = x.id
  path : p.path = f.path
  language : p.language = f.language
  commitSha : p.commitSha = x.data.commitSha
  symbols : (p.symbols, p.nextSymbolOffset) = Paging.page 50 (symbolRows db x.id f.id) symbolOffset
  chunks : (p.chunks, p.nextChunkOffset) = Paging.page 20 ((chunkRows db x.id f.id).map ChunkResponse.validate) chunkOffset

variable {db : Db} {userId repositoryId fileId : Uuid} {symbolOffset chunkOffset : Nat}

theorem file_eq {r : Repository} {j : ImportJob} {f : RepositoryFile} {x : RepositoryIndex}
    (h : db.owned userId repositoryId = .ok (r, j))
    (hf : (db.files.find? fun f => f.id = fileId ∧ f.importJobId = j.id) = some f)
    (hx : db.activeIndex repositoryId j.id = some x) :
    ∃ p, file db userId repositoryId fileId symbolOffset chunkOffset = .ok p ∧ PageOf db x f symbolOffset chunkOffset p := by
  have hid : f.id = fileId := by
    have := List.find?_some hf
    exact (of_decide_eq_true this).1
  unfold file
  rw [h]
  dsimp only [Bind.bind, Except.bind]
  rw [hf, hx]
  subst hid
  refine ⟨_, rfl, rfl, rfl, rfl, rfl, ?_, ?_⟩
  · rw [← Paging.page_of_lookahead]
    rfl
  · rw [Paging.page_map, ← Paging.page_of_lookahead]
    rfl

/-- What a page that is served was read of. -/
theorem file_ok {p : IndexedFilePage} (h : file db userId repositoryId fileId symbolOffset chunkOffset = .ok p) :
    ∃ r j f x, db.owned userId repositoryId = .ok (r, j) ∧
      (db.files.find? fun f => f.id = fileId ∧ f.importJobId = j.id) = some f ∧ db.activeIndex repositoryId j.id = some x := by
  unfold file at h
  cases ho : db.owned userId repositoryId with
  | error e => rw [ho] at h; cases h
  | ok source =>
  obtain ⟨r, j⟩ := source
  rw [ho] at h
  dsimp only [Bind.bind, Except.bind] at h
  cases hf : db.files.find? fun f => f.id = fileId ∧ f.importJobId = j.id with
  | none => rw [hf] at h; cases h
  | some f =>
    rw [hf] at h
    cases hx : db.activeIndex repositoryId j.id with
    | none => rw [hx] at h; cases h
    | some x => exact ⟨r, j, f, x, rfl, hf, hx⟩

/-- The route of `file`: offsets above 10000 are not valid. -/
def routeFile (db : Db) (userId repositoryId fileId : Uuid) (symbolOffset chunkOffset : Nat) :
    Except AppError IndexedFilePage :=
  if 10000 < symbolOffset ∨ 10000 < chunkOffset then
    .error ⟨"validation_error", "Check the submitted fields and try again.", 422⟩
  else file db userId repositoryId fileId symbolOffset chunkOffset

theorem routeFile_eq (hs : symbolOffset ≤ 10000) (hc : chunkOffset ≤ 10000) :
    routeFile db userId repositoryId fileId symbolOffset chunkOffset =
      file db userId repositoryId fileId symbolOffset chunkOffset :=
  if_neg (by omega)

theorem file_of_routeFile {p : IndexedFilePage}
    (h : routeFile db userId repositoryId fileId symbolOffset chunkOffset = .ok p) :
    file db userId repositoryId fileId symbolOffset chunkOffset = .ok p := by
  unfold routeFile at h
  split at h
  · cases h
  · exact h

end IndexService

namespace System
variable {env : Env} {s s' : System} {userId repositoryId fileId : Uuid}

/-! ### The file list -/

/-- The import of a repository whose owner reads it has all the files of that repository that he lists. -/
theorem SnapInv.byPath_eq (h : SnapInv env s) {r : Repository} {j : ImportJob}
    (ho : s.jobs.db.owned userId repositoryId = .ok (r, j)) :
    RepositoryService.byPath s.jobs.db repositoryId j.id =
      (s.jobs.db.files.filter (·.importJobId = j.id)).insertionSort fun a b => a.path ≤ b.path := by
  obtain ⟨-, -, -, hj, hjr, -⟩ := Db.owned_eq ho
  unfold RepositoryService.byPath
  congr 1
  refine List.filter_congr fun f hf => ?_
  rw [decide_eq_decide]
  refine ⟨fun h => h.2, fun himp => ⟨?_, himp⟩⟩
  rw [← h.link.jobs.files f hf j hj himp.symm, hjr]

/-- The file list of a completed import is the same in every later state. -/
theorem Fixes.byPath (hfix : Fixes s s') (h : SnapInv env s) (h' : SnapInv env s') {r r' : Repository}
    {j j' : ImportJob} (ho : s.jobs.db.owned userId repositoryId = .ok (r, j)) (hc : j.status = .completed)
    (ho' : s'.jobs.db.owned userId repositoryId = .ok (r', j')) :
    RepositoryService.byPath s'.jobs.db repositoryId j'.id = RepositoryService.byPath s.jobs.db repositoryId j.id := by
  obtain ⟨-, hd, hfiles⟩ := hfix.owned h h' ho hc ho'
  rw [h.byPath_eq ho, h'.byPath_eq ho', hd.filed.id_eq, hfiles]

/-- An import that has not completed has no files. -/
theorem SnapInv.byPath_nil (h : SnapInv env s) {r : Repository} {j : ImportJob}
    (ho : s.jobs.db.owned userId repositoryId = .ok (r, j)) (hc : j.status ≠ .completed) :
    RepositoryService.byPath s.jobs.db repositoryId j.id = [] := by
  obtain ⟨-, -, -, hj, -⟩ := Db.owned_eq ho
  have hnone : s.jobs.db.files.filter (·.importJobId = j.id) = [] := by
    refine List.filter_eq_nil_iff.2 fun f hf himp => hc ?_
    obtain ⟨q, hq, hid, hs⟩ := h.gen.jobs.output.files.owner f hf
    rwa [h.gen.jobs.inv.imports.keyed.eq hq hj (hid.trans (of_decide_eq_true himp))] at hs
  rw [h.byPath_eq ho, hnone, List.insertionSort_nil]

theorem SnapInv.byPath_sorted (h : SnapInv env s) {r : Repository} {j : ImportJob}
    (ho : s.jobs.db.owned userId repositoryId = .ok (r, j)) :
    (RepositoryService.byPath s.jobs.db repositoryId j.id).Pairwise fun a b => a.path < b.path := by
  rw [h.byPath_eq ho]
  have hsorted := List.pairwise_insertionSort (fun a b : RepositoryFile => a.path ≤ b.path)
    (s.jobs.db.files.filter (·.importJobId = j.id))
  have hnodup : ((s.jobs.db.files.filter (·.importJobId = j.id)).insertionSort fun a b => a.path ≤ b.path).Nodup :=
    (List.perm_insertionSort _ _).nodup_iff.2 ((List.Nodup.of_map _ h.gen.jobs.content.fileKeys).filter _)
  refine (hsorted.and hnodup).imp_of_mem fun {f g} hf hg hle => ?_
  obtain ⟨hf, hfj⟩ := List.mem_filter.1 ((List.mem_insertionSort _).1 hf)
  obtain ⟨hg, hgj⟩ := List.mem_filter.1 ((List.mem_insertionSort _).1 hg)
  refine lt_of_le_of_ne hle.1 fun he => hle.2 ?_
  exact h.gen.jobs.output.onePath hf hg ((of_decide_eq_true hgj).trans (of_decide_eq_true hfj).symm) he.symm |>.symm

/-- The response for a file of the list. -/
theorem SnapInv.content_iff (h : SnapInv env s) {r : Repository} {j : ImportJob}
    (ho : s.jobs.db.owned userId repositoryId = .ok (r, j)) (file : FileResponse) :
    file ∈ (RepositoryService.byPath s.jobs.db repositoryId j.id).map FileResponse.validate ↔
      ∃ content commitSha, RepositoryService.content s.jobs.db userId repositoryId file.id =
        .ok ⟨file, content, commitSha⟩ := by
  obtain ⟨hr, hid, -, hj, hjr, -⟩ := Db.owned_eq ho
  unfold RepositoryService.content
  rw [ho]
  dsimp only [Bind.bind, Except.bind]
  constructor
  · intro hm
    obtain ⟨f, hf, rfl⟩ := List.mem_map.1 hm
    obtain ⟨hf, hfj⟩ := List.mem_filter.1 ((List.mem_insertionSort _).1 hf)
    obtain ⟨hfr, hfj⟩ := of_decide_eq_true hfj
    obtain ⟨q, hq, hqid, hs⟩ := h.gen.jobs.output.files.owner f hf
    rw [h.gen.jobs.inv.imports.keyed.eq hq hj (hqid.trans hfj)] at hs
    obtain ⟨sha, hsha⟩ := Option.isSome_iff_exists.1 (h.snapped.fetched j hj hs r hr (hid.trans hjr.symm))
    have hfind := h.gen.jobs.content.fileKeys.find?_and hf
      (p := fun g => g.repositoryId = repositoryId ∧ g.importJobId = j.id) ⟨hfr, hfj⟩
    refine ⟨f.content, sha, ?_⟩
    rw [show (FileResponse.validate f).id = f.id from rfl, hfind, hsha]
  · rintro ⟨content, commitSha, hc⟩
    split at hc
    · rename_i f sha hf hsha
      cases hc
      have hp := List.find?_some hf
      obtain ⟨-, hp⟩ := of_decide_eq_true hp
      refine List.mem_map.2 ⟨f, (List.mem_insertionSort _).2 (List.mem_filter.2 ⟨List.mem_of_find?_eq_some hf, ?_⟩), rfl⟩
      exact decide_eq_true hp
    · cases hc

theorem SnapInv.byPath_length (h : SnapInv env s) {r : Repository} {j : ImportJob}
    (ho : s.jobs.db.owned userId repositoryId = .ok (r, j)) (hc : j.status = .completed) :
    (RepositoryService.byPath s.jobs.db repositoryId j.id).length = j.data.filesStored := by
  obtain ⟨-, -, -, hj, -⟩ := Db.owned_eq ho
  obtain ⟨i, k, source, result, ids, -, -, -, -, -, hdata, -⟩ := h.gen.jobs.output.importsPublished.result j hj hc
  rw [h.byPath_eq ho, List.length_insertionSort, hdata]

/-- The later requests meet the snapshots of the first one. -/
theorem fixes_request (env : Env) (acts : List Action) (gap : Nat → List Action) (n : Nat) :
    Fixes (request env acts gap 0) (request env acts gap n) := by
  have hzero : request env acts gap 0 = run env acts := by
    unfold request
    rw [List.range_zero, List.map_nil, List.flatten_nil, List.append_nil]
  have hlater : request env acts gap n = (machine env).exec (run env acts) ((List.range n).map gap).flatten :=
    Machine.run_append _ _ _
  rw [hzero, hlater]
  exact fixes acts _

/-- A client that follows the file list of a repository, with pages of any size and anything happening between its
requests, comes to the end after at most one request for each full page and one more. Unless the repository is removed
meanwhile, its pages are the files that can be read of the import at the first request, each once, by path, and
as many as the import says it stored. -/
theorem file_list_complete (env : Env) (acts : List Action) (gap : Nat → List Action) (userId repositoryId : Uuid)
    (limit : Nat) :
    let state := request env acts gap
    ∀ r j, (state 0).jobs.db.owned userId repositoryId = .ok (r, j) →
      ∃ result, Paging.walk
          (fun n offset => RepositoryService.files (state n).jobs.db userId repositoryId offset (limit + 1))
          (·.nextOffset) (j.data.filesStored / (limit + 1) + 1) 0 0 = some result ∧
        match result with
        | .ok pages =>
          let items := pages.flatMap (·.items)
          (items.map (·.path)).Pairwise (· < ·) ∧
          (∀ file, file ∈ items ↔ ∃ content commitSha,
            RepositoryService.content (state 0).jobs.db userId repositoryId file.id = .ok ⟨file, content, commitSha⟩) ∧
          (j.status = .completed → items.length = j.data.filesStored) ∧ ∀ page ∈ pages, page.items.length ≤ limit + 1
        | .error e => e = Db.notFound ∧ ∃ n, (state n).jobs.db.owned userId repositoryId = .error Db.notFound := by
  intro state r j ho
  have hinv : ∀ n, SnapInv env (state n) := fun n => snapInv env _
  have hpage : ∀ n offset p, n = 0 ∨ offset < ((RepositoryService.byPath (state 0).jobs.db repositoryId j.id).map
      FileResponse.validate).length →
      RepositoryService.files (state n).jobs.db userId repositoryId offset (limit + 1) = .ok p →
      (p.items, p.nextOffset) = Paging.page (limit + 1)
        ((RepositoryService.byPath (state 0).jobs.db repositoryId j.id).map FileResponse.validate) offset := by
    intro n offset p hn hp
    obtain ⟨r', j', ho', hpages⟩ := RepositoryService.files_ok hp
    rw [hpages]
    rcases hn with rfl | hn
    · cases ho.symm.trans ho'
      rfl
    · have hc : j.status = .completed := by
        by_contra hno
        rw [(hinv 0).byPath_nil ho hno] at hn
        cases hn
      rw [(fixes_request env acts gap n).byPath (hinv 0) (hinv n) ho hc ho']
  have henough : ((RepositoryService.byPath (state 0).jobs.db repositoryId j.id).map FileResponse.validate).length ≤
      (limit + 1) * (j.data.filesStored / (limit + 1) + 1) := by
    rw [List.length_map]
    by_cases hc : j.status = .completed
    · rw [(hinv 0).byPath_length ho hc]
      exact (Nat.lt_mul_div_succ _ (Nat.succ_pos limit)).le
    · rw [(hinv 0).byPath_nil ho hc]
      exact Nat.zero_le _
  obtain ⟨result, hwalk, hends⟩ := Paging.walk_from_start hpage (Nat.succ_pos _) henough
  refine ⟨result, hwalk, ?_⟩
  cases result with
  | error e =>
    obtain ⟨n, offset, -, he⟩ := hends
    have ho' := RepositoryService.files_error he
    obtain rfl := Db.owned_error ho'
    exact ⟨rfl, n, ho'⟩
  | ok pages =>
    obtain ⟨hflat, -, hall⟩ := hends
    rw [List.drop_zero] at hflat
    dsimp only
    rw [hflat]
    refine ⟨?_, (hinv 0).content_iff ho, fun hc => ?_, fun page hm => ?_⟩
    · rw [List.map_map, List.pairwise_map]
      exact (hinv 0).byPath_sorted ho
    · rw [List.length_map]
      exact (hinv 0).byPath_length ho hc
    · obtain ⟨n, offset, hp⟩ := hall page hm
      obtain ⟨_, _, -, hpages⟩ := RepositoryService.files_ok hp
      rw [(Prod.mk.inj hpages).1]
      exact Paging.page_length_le _ _ _

/-! ### An indexed file -/

/-- What a request for an indexed file was answered from, and that later requests are answered from the same. -/
structure Shown (s : System) (userId repositoryId fileId : Uuid) (x : RepositoryIndex) (f : RepositoryFile) : Prop where
  index : x ∈ s.jobs.db.indexes
  completed : x.status = .completed
  repository : x.repositoryId = repositoryId
  file : f ∈ s.jobs.db.files
  id : f.id = fileId
  source : f.importJobId = x.data.importJobId
  content : RepositoryService.content s.jobs.db userId repositoryId fileId =
    .ok ⟨FileResponse.validate f, f.content, x.data.commitSha⟩

theorem SnapInv.shown (h : SnapInv env s) {symbolOffset chunkOffset : Nat} {p : IndexedFilePage}
    (hp : IndexService.file s.jobs.db userId repositoryId fileId symbolOffset chunkOffset = .ok p) :
    ∃ x f, Shown s userId repositoryId fileId x f := by
  obtain ⟨r, j, f, x, ho, hf, hx⟩ := IndexService.file_ok hp
  obtain ⟨hm, hxr, himp, hc⟩ := Db.activeIndex_eq hx
  obtain ⟨-, -, -, hj, hjr, -⟩ := Db.owned_eq ho
  have hfm := List.mem_of_find?_eq_some hf
  have hfp := List.find?_some hf
  obtain ⟨hid, hfj⟩ := of_decide_eq_true hfp
  have hfr : f.repositoryId = repositoryId := by rw [← h.link.jobs.files f hfm j hj hfj.symm, hjr]
  refine ⟨x, f, hm, hc, hxr, hfm, hid, hfj.trans himp.symm, ?_⟩
  have hfind := h.gen.jobs.content.fileKeys.find?_and hfm
    (p := fun g => g.repositoryId = repositoryId ∧ g.importJobId = j.id) ⟨hfr, hfj⟩
  unfold RepositoryService.content
  rw [ho]
  dsimp only [Bind.bind, Except.bind]
  rw [← hid, hfind, (h.index_eq ho hm hxr).2.2]

/-- As long as the repository is there, a page of the file is read of the same rows. -/
theorem Shown.later {x : RepositoryIndex} {f : RepositoryFile} (hs : Shown s userId repositoryId fileId x f)
    (hfix : Fixes s s') (h : SnapInv env s) (h' : SnapInv env s') {r' : Repository} {j' : ImportJob}
    (ho' : s'.jobs.db.owned userId repositoryId = .ok (r', j')) (symbolOffset chunkOffset : Nat) :
    ∃ p, IndexService.file s'.jobs.db userId repositoryId fileId symbolOffset chunkOffset = .ok p ∧
      IndexService.PageOf s.jobs.db x f symbolOffset chunkOffset p := by
  obtain ⟨r, j, ho⟩ : ∃ r j, s.jobs.db.owned userId repositoryId = .ok (r, j) := by
    have hcontent := hs.content
    unfold RepositoryService.content at hcontent
    cases ho : s.jobs.db.owned userId repositoryId with
    | error e => rw [ho] at hcontent; cases hcontent
    | ok source => exact ⟨source.1, source.2, rfl⟩
  obtain ⟨himp, hc, -⟩ := h.index_eq ho hs.index hs.repository
  obtain ⟨-, hd, hfiles⟩ := hfix.owned h h' ho hc ho'
  obtain ⟨⟨x', hx', hdx⟩, hsym, hch⟩ := hfix.activeIndex h h' hs.index hs.repository hs.completed ho'
  have hf' : f ∈ s'.jobs.db.files := by
    have hm : f ∈ s.jobs.db.files.filter (·.importJobId = j.id) :=
      List.mem_filter.2 ⟨hs.file, decide_eq_true (hs.source.trans himp)⟩
    rw [← hfiles] at hm
    exact List.mem_of_mem_filter hm
  have hfind := h'.gen.jobs.content.fileKeys.find?_and hf' (p := fun g => g.importJobId = j'.id)
    (hs.source.trans (himp.trans hd.filed.id_eq.symm))
  rw [hs.id] at hfind
  rw [himp, ← hd.filed.id_eq] at hx'
  have hfile : ∃ p, IndexService.file s'.jobs.db userId repositoryId fileId symbolOffset chunkOffset = .ok p ∧
      IndexService.PageOf s'.jobs.db x' f symbolOffset chunkOffset p := IndexService.file_eq ho' hfind hx'
  obtain ⟨p, hp, hpage⟩ := hfile
  refine ⟨p, hp, hpage.index.trans hdx.filed.id_eq, hpage.path, hpage.language, ?_, ?_, ?_⟩
  · rw [hpage.commitSha, hdx.filed.data_eq]
  · rw [hpage.symbols, hdx.filed.id_eq, IndexService.symbolRows_congr hsym]
  · rw [hpage.chunks, hdx.filed.id_eq, IndexService.chunkRows_congr hch]

/-! ### The rows behind the pages -/

/-- The symbol a row was made of. -/
def toSymbol (y : CodeSymbol) : Symbol where
  name := y.name
  qualifiedName := y.qualifiedName
  kind := y.kind
  parent := y.parentOrdinal
  startLine := y.startLine
  endLine := y.endLine
  signature := y.signature
  docstring := y.docstring

theorem FileRows.symbolRows {x : RepositoryIndex} {f : RepositoryFile} {result : Source.IndexedSource} {db : Db}
    (h : FileRows env db x f result) :
    IndexService.symbolRows db x.id f.id = result.symbols.zipIdx.map (symbolOf x f.id) := by
  unfold IndexService.symbolRows
  rw [h.symbols]
  refine List.Pairwise.insertionSort_eq ?_
  have hlt : (result.symbols.zipIdx.map (symbolOf x f.id)).map (·.ordinal) = List.range' 0 result.symbols.length := by
    rw [List.map_map]
    exact List.zipIdx_map_snd 0 result.symbols
  have hsorted : ((result.symbols.zipIdx.map (symbolOf x f.id)).map (·.ordinal)).Pairwise (· ≤ ·) :=
    hlt ▸ List.pairwise_le_range'
  exact List.pairwise_map.1 hsorted

theorem FileRows.chunkRows {x : RepositoryIndex} {f : RepositoryFile} {result : Source.IndexedSource} {db : Db}
    (h : FileRows env db x f result) (hc : Source.Covers f.content Source.maxChunkBytes result.chunks) :
    (IndexService.chunkRows db x.id f.id).map (·.chunk) = result.chunks := by
  unfold IndexService.chunkRows
  rw [List.Pairwise.insertionSort_eq]
  · exact h.chunks
  have hsorted : (result.chunks.map (·.ordinal)).Pairwise (· ≤ ·) := hc.ordinals ▸ List.pairwise_le_range
  rw [← h.chunks, List.map_map] at hsorted
  exact List.pairwise_map.1 hsorted

/-- Pages that belong together: of one index, and with the path, language and commit of the file. -/
def Together (file : FileContentResponse) (pages : List IndexedFilePage) : Prop :=
  ∃ indexId, ∀ p ∈ pages, p.indexId = indexId ∧ p.path = file.path ∧ p.language = file.language ∧
    p.commitSha = file.commitSha ∧ p.symbols.length ≤ 50 ∧ p.chunks.length ≤ 20

/-- What the requests of a walk have in common: the state of the first one answers them all, but for a repository
that is removed. -/
theorem shown_request {parse : Text → Parser.Tree} (acts : List Action) (gap : Nat → List Action)
    (hparse : ∀ content root, parse content = .root root → Source.Ranged content root) {x : RepositoryIndex}
    {f : RepositoryFile} :
    let env := { env with parsePython := Parser.parsePython parse }
    let state := request env acts gap
    Shown (state 0) userId repositoryId fileId x f →
    ∃ result, FileRows env (state 0).jobs.db x f result ∧ Source.Covers f.content Source.maxChunkBytes result.chunks ∧
      ∀ n symbolOffset chunkOffset,
        (∀ p, IndexService.file (state n).jobs.db userId repositoryId fileId symbolOffset chunkOffset = .ok p →
          IndexService.PageOf (state 0).jobs.db x f symbolOffset chunkOffset p) ∧
        ∀ e, IndexService.file (state n).jobs.db userId repositoryId fileId symbolOffset chunkOffset = .error e →
          e = Db.notFound ∧ (state n).jobs.db.owned userId repositoryId = .error Db.notFound := by
  intro env state hs
  have hinv : ∀ n, SnapInv env (state n) := fun n => snapInv env _
  have hbuild : BuildInv env (state 0) := buildInv env _
  obtain ⟨result, hrows⟩ := hbuild.fileRows hs.index hs.completed hs.file hs.source
  refine ⟨result, hrows, Source.covers_indexSource hparse hrows.indexed, fun n symbolOffset chunkOffset => ⟨?_, ?_⟩⟩
  · intro p hp
    obtain ⟨r, j, _, _, ho, -⟩ := IndexService.file_ok hp
    obtain ⟨q, hq, hpage⟩ :=
      hs.later (fixes_request env acts gap n) (hinv 0) (hinv n) ho symbolOffset chunkOffset
    cases hp.symm.trans hq
    exact hpage
  · intro e he
    cases ho : (state n).jobs.db.owned userId repositoryId with
    | ok source =>
      obtain ⟨q, hq, -⟩ := hs.later (fixes_request env acts gap n) (hinv 0) (hinv n) ho symbolOffset chunkOffset
      cases he.symm.trans hq
    | error e' =>
      unfold IndexService.file at he
      rw [ho] at he
      cases he
      obtain rfl := Db.owned_error ho
      exact ⟨rfl, rfl⟩

/-- Where a walk over an indexed file stops: with pages of the file that was there to read at the first request, or
because the first request failed or the repository was removed meanwhile. -/
def Browsed (state : Nat → System) (userId repositoryId fileId : Uuid) (first : Except AppError IndexedFilePage)
    (Whole : FileContentResponse → List IndexedFilePage → Prop) : Except AppError (List IndexedFilePage) → Prop
  | .ok pages => ∃ file, RepositoryService.content (state 0).jobs.db userId repositoryId fileId = .ok file ∧
      Together file pages ∧ Whole file pages
  | .error e => first = .error e ∨
      e = Db.notFound ∧ ∃ n, (state n).jobs.db.owned userId repositoryId = .error Db.notFound

/-- A walk over one of the two lists of an indexed file; `at₁` and `at₂` say where the request for the offset of a page
stands in the symbols and in the chunks. -/
theorem browse {parse : Text → Parser.Tree} (acts : List Action) (gap : Nat → List Action)
    (hparse : ∀ content root, parse content = .root root → Source.Ranged content root) (at₁ at₂ : Nat → Nat → Nat)
    {β : Type} (items : IndexedFilePage → List β) {next : IndexedFilePage → Option Nat} (limit : Nat) {requests : Nat}
    (hrequests : 0 < requests) {Whole : FileContentResponse → List IndexedFilePage → Prop} :
    let env := { env with parsePython := Parser.parsePython parse }
    let state := request env acts gap
    (∀ x f result, FileRows env (state 0).jobs.db x f result →
      Source.Covers f.content Source.maxChunkBytes result.chunks → ∃ rows : List β, rows.length ≤ limit * requests ∧
        (∀ n o, o ≤ rows.length → at₁ n o ≤ 10000 ∧ at₂ n o ≤ 10000) ∧
        (∀ n o p, IndexService.PageOf (state 0).jobs.db x f (at₁ n o) (at₂ n o) p →
          (items p, next p) = Paging.page limit rows o) ∧
        ∀ pages : List IndexedFilePage, pages.flatMap items = rows →
          Whole ⟨FileResponse.validate f, f.content, x.data.commitSha⟩ pages) →
    ∃ result, Paging.walk (fun n o => IndexService.routeFile (state n).jobs.db userId repositoryId fileId (at₁ n o) (at₂ n o))
        next requests 0 0 = some result ∧
      Browsed state userId repositoryId fileId
        (IndexService.routeFile (state 0).jobs.db userId repositoryId fileId (at₁ 0 0) (at₂ 0 0)) Whole result := by
  intro env state hview
  cases hfirst : IndexService.routeFile (state 0).jobs.db userId repositoryId fileId (at₁ 0 0) (at₂ 0 0) with
  | error e =>
    obtain ⟨k, rfl⟩ := Nat.exists_eq_succ_of_ne_zero hrequests.ne'
    refine ⟨.error e, ?_, .inl rfl⟩
    unfold Paging.walk
    rw [hfirst]
  | ok p₀ =>
    obtain ⟨x, f, hs⟩ := (snapInv env _).shown (IndexService.file_of_routeFile hfirst)
    obtain ⟨result, hrows, hcovers, hsame⟩ := shown_request acts gap hparse hs
    obtain ⟨rows, hlength, hbound, hpage, hwhole⟩ := hview x f result hrows hcovers
    obtain ⟨walked, hwalk, hends⟩ := Paging.walk_from_start
      (fun n o p _ hp => hpage n o p ((hsame n _ _).1 p (IndexService.file_of_routeFile hp))) hrequests hlength
    refine ⟨walked, hwalk, ?_⟩
    cases walked with
    | error e =>
      obtain ⟨n, o, ho, he⟩ := hends
      dsimp only at he
      rw [IndexService.routeFile_eq (hbound n o ho).1 (hbound n o ho).2] at he
      obtain ⟨he, hgone⟩ := (hsame n _ _).2 e he
      exact .inr ⟨he, n, hgone⟩
    | ok pages =>
      obtain ⟨hflat, -, hall⟩ := hends
      refine ⟨_, hs.content, ⟨x.id, fun p hp => ?_⟩, hwhole pages hflat⟩
      obtain ⟨n, o, hp⟩ := hall p hp
      have hof := (hsame n _ _).1 p (IndexService.file_of_routeFile hp)
      refine ⟨hof.index, hof.path, hof.language, hof.commitSha, ?_, ?_⟩
      · rw [(Prod.mk.inj hof.symbols).1]
        exact Paging.page_length_le _ _ _
      · rw [(Prod.mk.inj hof.chunks).1]
        exact Paging.page_length_le _ _ _

/-- Both walks come to their end, and a whole file is its chunks and the symbols of the parser. -/
structure ReadThrough (parse : Text → Parser.Tree) (state : Nat → System) (userId repositoryId fileId : Uuid)
    (other : Nat → Nat) : Prop where
  chunks : ∃ result,
    Paging.walk (fun n offset => IndexService.routeFile (state n).jobs.db userId repositoryId fileId (other n) offset)
      (·.nextChunkOffset) 500 0 0 = some result ∧
    Browsed state userId repositoryId fileId
      (IndexService.routeFile (state 0).jobs.db userId repositoryId fileId (other 0) 0)
      (fun file pages =>
        Source.Covers file.content Source.maxChunkBytes ((pages.flatMap (·.chunks)).map (·.chunk))) result
  symbols : ∃ result,
    Paging.walk (fun n offset => IndexService.routeFile (state n).jobs.db userId repositoryId fileId offset (other n))
      (·.nextSymbolOffset) 200 0 0 = some result ∧
    Browsed state userId repositoryId fileId
      (IndexService.routeFile (state 0).jobs.db userId repositoryId fileId 0 (other 0))
      (fun file pages =>
        (pages.flatMap (·.symbols)).map toSymbol =
            (if file.language = "python" then (Parser.parsePython parse file.content).symbols else []) ∧
          (pages.flatMap (·.symbols)).map (·.ordinal) = List.range (pages.flatMap (·.symbols)).length) result

/-- A client that follows the chunks of an indexed file, or its symbols, comes to the end after at most 500 or 200
requests, and no offset it is sent to is refused by the route, whatever happens between the requests and wherever it
stands in the other list. Unless the repository is removed meanwhile, the pages are of one index; the chunks cover the
content of the file and joined they are that content, and the symbols are those of the parser, in its order. -/
theorem indexed_file_read (env : Env) (parse : Text → Parser.Tree)
    (hparse : ∀ content root, parse content = .root root → Source.Ranged content root) (acts : List Action)
    (gap : Nat → List Action) (userId repositoryId fileId : Uuid) (other : Nat → Nat) (hother : ∀ n, other n ≤ 10000) :
    ReadThrough parse (request { env with parsePython := Parser.parsePython parse } acts gap) userId repositoryId fileId
      other := by
  set state := request { env with parsePython := Parser.parsePython parse } acts gap with hstate
  refine ⟨browse acts gap hparse (fun n _ => other n) (fun _ o => o) IndexedFilePage.chunks 20 (by decide) ?_,
    browse acts gap hparse (fun _ o => o) (fun n _ => other n) IndexedFilePage.symbols 50 (by decide) ?_⟩
  · intro x f result hrows hcovers
    have hchunks := hrows.chunkRows hcovers
    have hlength : ((IndexService.chunkRows (state 0).jobs.db x.id f.id).map ChunkResponse.validate).length =
        result.chunks.length := by
      rw [List.length_map, ← hchunks, List.length_map]
    have hcount := hlength.trans_le hrows.chunkCount
    refine ⟨_, hcount, fun n o ho => ⟨hother n, ho.trans hcount⟩, fun n o p hp => hp.chunks, fun pages hpages => ?_⟩
    rw [hpages, List.map_map]
    show Source.Covers f.content Source.maxChunkBytes ((IndexService.chunkRows (state 0).jobs.db x.id f.id).map (·.chunk))
    rw [hchunks]
    exact hcovers
  · intro x f result hrows hcovers
    have hsymbols := hrows.symbolRows
    have hlength : (IndexService.symbolRows (state 0).jobs.db x.id f.id).length = result.symbols.length := by
      rw [hsymbols, List.length_map, List.length_zipIdx]
    have hcount := hlength.trans_le hrows.symbolCount
    refine ⟨_, hcount, fun n o ho => ⟨ho.trans hcount, hother n⟩, fun n o p hp => hp.symbols, fun pages hpages => ?_⟩
    rw [hpages, hlength, hsymbols, List.map_map, List.map_map]
    refine ⟨?_, ?_⟩
    · exact (List.zipIdx_map_fst 0 result.symbols).trans (Source.symbols_indexSource hrows.indexed)
    · rw [List.range_eq_range']
      exact List.zipIdx_map_snd 0 result.symbols

/-- Module, expression and name. -/
def nameRoot : Parser.Node := .mk .other [.mk .other [.mk .other []]]

def parseName (content : Text) : Parser.Tree := if content = ['x'] then .root nameRoot else .syntaxError

theorem parseName_ranged (content : Text) (root : Parser.Node) (h : parseName content = .root root) :
    Source.Ranged content root := by
  unfold parseName at h
  split at h
  swap
  · cases h
  cases h
  have hother : ∀ path node, nameRoot.at path = some node → node.shape = .other := by
    intro path node hat
    match path, hat with
    | [], hat | [0], hat | [0, 0], hat => cases hat; rfl
    | 0 :: 0 :: _ :: _, h | 0 :: (n + 1) :: _, h | (n + 1) :: _, h => cases h
  refine ⟨fun path node first last hat hlines => ?_, fun p q d e _ hd _ => ?_⟩
  · rw [hother path node hat] at hlines
    cases hlines
  · obtain ⟨node, hat, hshape⟩ := Parser.Node.definitionAt_some hd
    rw [hother p node hat] at hshape
    cases hshape

/-- The owner reads the file right after it was indexed. -/
theorem indexed_file_read_name :
    (∃ p, IndexService.routeFile
        (run { Env.plain with parsePython := Parser.parsePython parseName } indexing).jobs.db 0 1 4 0 0 = .ok p ∧
      p.chunks.map (·.chunk.content) = [['x']]) ∧
    ReadThrough parseName
      (request { Env.plain with parsePython := Parser.parsePython parseName } indexing fun _ => []) 0 1 4 fun _ => 0 := by
  refine ⟨⟨⟨5, 4, "a.py".toList, "python", List.replicate 40 'a', [],
    [⟨7, 4, ⟨0, 0, 1, 1, 1, none, "module", ['x'], ['x']⟩⟩], none, none⟩, ?_, by decide⟩, ?_⟩
  · decide +kernel
  · exact indexed_file_read Env.plain parseName parseName_ranged indexing (fun _ => []) 0 1 4 (fun _ => 0)
      fun _ => Nat.zero_le _

end System
end RepoPilot
