import RepoPilot.ChatInvariant

/-! # Referential integrity

What the primary and foreign keys of the tables promise, and that every reachable state keeps it: a row
never outlives the row it hangs on, whatever requests, workers and cycles interleave. -/

namespace RepoPilot

/-- The primary keys of the tables of importing, indexing and search preparation, and the foreign keys through
identifiers. -/
structure Db.Schema (db : Db) : Prop where
  repositoryKeys : Table.Keyed (·.id) db.repositories
  importKeys : Table.Keyed (·.id) db.imports
  fileKeys : Table.Keyed (·.id) db.files
  indexKeys : Table.Keyed (·.id) db.indexes
  chunkKeys : Table.Keyed (·.id) db.chunks
  searchKeys : Table.Keyed (·.id) db.searches
  imports : ∀ j ∈ db.imports, ∃ r ∈ db.repositories, r.id = j.repositoryId
  files : ∀ f ∈ db.files, ∃ j ∈ db.imports, j.id = f.importJobId ∧ j.repositoryId = f.repositoryId
  indexes : ∀ i ∈ db.indexes, ∃ j ∈ db.imports, j.id = i.data.importJobId ∧ j.repositoryId = i.repositoryId
  symbolIndexes : ∀ y ∈ db.symbols, ∃ i ∈ db.indexes, i.id = y.indexId ∧ i.data.importJobId = y.importJobId
  symbolFiles : ∀ y ∈ db.symbols, ∃ f ∈ db.files, f.id = y.fileId ∧ f.importJobId = y.importJobId
  chunkIndexes : ∀ c ∈ db.chunks, ∃ i ∈ db.indexes, i.id = c.indexId ∧ i.data.importJobId = c.importJobId
  chunkFiles : ∀ c ∈ db.chunks, ∃ f ∈ db.files, f.id = c.fileId ∧ f.importJobId = c.importJobId
  searches : ∀ x ∈ db.searches, ∃ i ∈ db.indexes, i.id = x.data.sourceIndexId ∧ i.repositoryId = x.repositoryId
  documentSearches : ∀ d ∈ db.documents, ∃ x ∈ db.searches,
    x.id = d.searchIndexId ∧ x.data.sourceIndexId = d.sourceIndexId
  documentChunks : ∀ d ∈ db.documents, ∃ c ∈ db.chunks, c.id = d.chunkId ∧ c.indexId = d.sourceIndexId

/-- Those of the conversations. -/
structure Tables.Schema (db : Db) (t : Tables) : Prop where
  conversationKeys : Table.Keyed (·.id) t.conversations
  runKeys : Table.Keyed (·.id) t.runs
  receiptKeys : Table.Keyed (·.id) t.receipts
  conversations : ∀ c ∈ t.conversations, db.Owns c.userId c.repositoryId
  messages : ∀ m ∈ t.messages, ∃ c ∈ t.conversations, c.id = m.conversationId
  runs : ∀ r ∈ t.runs, ∃ c ∈ t.conversations, c.id = r.conversationId
  events : ∀ e ∈ t.events, ∃ r ∈ t.runs, r.id = e.runId
  receipts : ∀ q ∈ t.receipts, ∃ r ∈ t.runs, r.id = q.runId

/-! ### What an index worker has located -/

namespace Indexes

/-- The file `fileId` belongs to the import `source`. -/
def Located (db : Db) (source fileId : Uuid) : Prop := ∃ f ∈ db.files, f.id = fileId ∧ f.importJobId = source

/-- Every symbol a worker has built lies in a file of its import. -/
def Locates (db : Db) (source : Uuid) : Pc → Prop
  | .storing _ built _ | .publish _ built _ => ∀ p ∈ built.symbols, Located db source p.1
  | _ => True

theorem Located.mono {db db' : Db} {source fileId : Uuid} (h : Located db source fileId)
    (hf : ∀ f ∈ db.files, f.importJobId = source → f ∈ db'.files) : Located db' source fileId := by
  obtain ⟨f, hm, hid, hs⟩ := h
  exact ⟨f, hf f hm hs, hid, hs⟩

theorem Locates.mono {db db' : Db} {source : Uuid} {pc : Pc} (h : Locates db source pc)
    (hf : ∀ f ∈ db.files, f.importJobId = source → f ∈ db'.files) : Locates db' source pc := by
  cases pc with
  | storing s built n => exact fun p hp => (h p hp).mono hf
  | publish s built n => exact fun p hp => (h p hp).mono hf
  | _ => trivial

theorem addFile_symbols {env : Env} {built built' : Built} {file : RepositoryFile}
    (h : addFile env built file = .ok built') {p : Uuid × Nat × Symbol} (hp : p ∈ built'.symbols) :
    p ∈ built.symbols ∨ file.id = p.1 := by
  unfold addFile at h
  simp only [bind_ok] at h
  obtain ⟨result, -, h⟩ := h
  split at h
  · cases h
  · cases h
    rcases List.mem_append.1 hp with hp | hp
    · exact .inl hp
    · obtain ⟨x, -, rfl⟩ := List.mem_map.1 hp
      exact .inr rfl

/-- Every symbol built from `files` is of one of them. -/
theorem build_symbols {env : Env} {files : List RepositoryFile} {built : Built} (h : build env files = .ok built)
    {p : Uuid × Nat × Symbol} (hp : p ∈ built.symbols) : ∃ f ∈ files, f.id = p.1 := by
  refine foldlM_keeps (P := fun built => ∀ p ∈ built.symbols, ∃ f ∈ files, f.id = p.1)
    (fun built f hf built' hb h p hp => ?_) (List.forall_mem_nil _) h p hp
  rcases addFile_symbols h hp with hp | hid
  · exact hb p hp
  · exact ⟨f, hf, hid⟩

end Indexes

namespace Jobs

/-- The foreign keys that the other invariants of the job system leave open. -/
structure LinkInv (s : Jobs) : Prop where
  imports : ∀ j ∈ s.db.imports, ∃ r ∈ s.db.repositories, r.id = j.repositoryId
  files : ∀ f ∈ s.db.files, ∀ j ∈ s.db.imports, j.id = f.importJobId → j.repositoryId = f.repositoryId
  workers : ∀ k ∈ s.indexWorkers, ∀ x ∈ s.db.indexes, x.id = k.claim.jobId →
    Indexes.Locates s.db x.data.importJobId k.pc
  symbols : ∀ y ∈ s.db.symbols, ∀ x ∈ s.db.indexes, x.id = y.indexId →
    x.data.importJobId = y.importJobId ∧ Indexes.Located s.db x.data.importJobId y.fileId
  chunks : ∀ c ∈ s.db.chunks, ∀ x ∈ s.db.indexes, x.id = c.indexId → x.data.importJobId = c.importJobId

namespace LinkInv
variable {env : Env} {now : Time} {a : Action} {s : Jobs} {w : World}

theorem empty : LinkInv Jobs.empty := by
  constructor <;> intro x hx <;> cases hx

/-- Imports are added to a repository that is there, and go with it. -/
theorem imports_step (env : Env) (now : Time) (h : LinkInv s) (hi : Inv w s) (hf : ∀ i ∈ a.ids, i ∉ w.issued) :
    ∀ j ∈ (Jobs.step env now a s).db.imports, ∃ r ∈ (Jobs.step env now a s).db.repositories, r.id = j.repositoryId := by
  cases hk : a.kind with
  | indexes => rw [(frame_indexes _ _ _ hk).1, (frame_indexes _ _ _ hk).2.1]; exact h.imports
  | searches => rw [(frame_searches _ _ _ hk).1, (frame_searches _ _ _ hk).2.1]; exact h.imports
  | removal =>
    cases a <;> try cases hk
    case removal.removeRepository.refl userId repositoryId =>
      rcases removeRepository_cases s.db userId repositoryId with hr | hr <;> simp only [Jobs.step, hr]
      · exact h.imports
      · intro j hj
        obtain ⟨hj, hne⟩ := List.mem_filter.1 hj
        obtain ⟨r, hr, hid⟩ := h.imports j hj
        refine ⟨r, List.mem_filter.2 ⟨hr, ?_⟩, hid⟩
        rw [hid]
        exact hne
  | imports =>
    have hch := imports_changes env now hi.imports hi.importClaims hf
    have hstays : ∀ r ∈ s.db.repositories, ∃ r' ∈ (Jobs.step env now a s).db.repositories, r'.id = r.id := by
      intro r hr
      rcases (repositoryChange env now a s).stays hr with ⟨r', hr', hid, -⟩ | ⟨userId, p, ha, -⟩
      · exact ⟨r', hr', hid⟩
      · rw [ha] at hk
        cases hk
    intro j' hj'
    rcases hch.grown hj' with ⟨j, hj, hsame, -⟩ | hm
    · obtain ⟨r, hr, hid⟩ := h.imports j hj
      obtain ⟨r', hr', hid'⟩ := hstays r hr
      exact ⟨r', hr', (hid'.trans hid).trans hsame.2.1.symm⟩
    · have hnot : j' ∉ s.db.imports := fun hold => hf _ (fresh_subset now s _ (List.mem_append_right _ hm))
        (hi.imports.ids j' hold)
      cases a <;> try cases hk
      case imports.inr.createImport.refl userId source limit repositoryId jobId =>
        simp only [Jobs.step] at hj' ⊢
        rcases committed_cases s.db (Imports.create now userId source limit repositoryId jobId s.db) with
          hc | ⟨p, hp, hc⟩ <;> rw [hc] at hj' ⊢
        · exact absurd hj' hnot
        · obtain ⟨imports, he, hid, -, hins⟩ := Imports.create_eq hp
          rw [he] at hj' ⊢
          rcases Job.mem_of_insert hins hj' with hj' | rfl
          · exact absurd hj' hnot
          · exact ⟨p.2.1, List.mem_append_right _ List.mem_cons_self, hid⟩
      case imports.inr.retryImport.refl userId repositoryId limit jobId =>
        simp only [Jobs.step] at hj' ⊢
        rcases committed_cases s.db (Imports.retry now userId repositoryId limit jobId s.db) with
          hc | ⟨p, hp, hc⟩ <;> rw [hc] at hj' ⊢
        · exact absurd hj' hnot
        · obtain ⟨imports, old, repository, he, ho, hins⟩ := Imports.retry_eq hp
          rw [he] at hj' ⊢
          rcases Job.mem_of_insert hins hj' with hj' | rfl
          · obtain ⟨q, hq, rfl⟩ := Table.mem_update.1 hj'
            obtain ⟨r, hr, hid⟩ := h.imports q hq
            exact ⟨r, hr, by split <;> exact hid⟩
          · exact ⟨repository, (Db.owned_eq ho).1, rfl⟩
      all_goals cases hm

/-- A row of the next state continues an old import, when its id is an old one. -/
theorem import_origin (env : Env) (now : Time) (hi : Inv w s) (hf : ∀ i ∈ a.ids, i ∉ w.issued) {j : ImportJob}
    (hj : j ∈ (Jobs.step env now a s).db.imports) (hid : j.id ∈ w.issued) :
    ∃ j₀ ∈ s.db.imports, j₀.id = j.id ∧ j₀.repositoryId = j.repositoryId := by
  rcases (imports_changes env now hi.imports hi.importClaims hf).grown hj with ⟨j₀, hj₀, hsame, -⟩ | hm
  · exact ⟨j₀, hj₀, hsame.1.symm, hsame.2.1.symm⟩
  · exact absurd hid (hf _ (fresh_subset now s _ (List.mem_append_right _ hm)))

/-- A file is of the repository of its import: the worker that stores it holds the lease of that job. -/
theorem files_step (env : Env) (now : Time) (h : LinkInv s) (hi : Inv w s) (ho : OutputInv w s)
    (hf : ∀ i ∈ a.ids, i ∉ w.issued) :
    ∀ f ∈ (Jobs.step env now a s).db.files, ∀ j ∈ (Jobs.step env now a s).db.imports, j.id = f.importJobId →
      j.repositoryId = f.repositoryId := by
  intro f hm j hj hid
  have hold : f ∈ s.db.files → j.repositoryId = f.repositoryId := by
    intro hm
    obtain ⟨j', hj', hid', -⟩ := ho.files.owner f hm
    have hissued : j.id ∈ w.issued := by
      rw [hid, ← hid']
      exact hi.imports.ids j' hj'
    obtain ⟨j₀, hj₀, hid₀, hr⟩ := import_origin env now hi hf hj hissued
    rw [← hr]
    exact h.files f hm j₀ hj₀ (hid₀.trans hid)
  cases hk : a.kind with
  | indexes => exact hold ((frame_indexes _ _ _ hk).2.2.1 ▸ hm)
  | searches => exact hold ((frame_searches _ _ _ hk).2.2.1 ▸ hm)
  | removal =>
    cases a <;> try cases hk
    case removal.removeRepository.refl userId repositoryId =>
      refine hold ?_
      rcases removeRepository_cases s.db userId repositoryId with hr | hr <;> simp only [Jobs.step, hr] at hm
      · exact hm
      · exact (List.mem_filter.1 hm).1
  | imports =>
    rcases import_outcome env now hi hf hk with
      ⟨-, hfiles, -⟩ | ⟨k, source, result, ids, db', hkm, -, -, hpub, hdb, -⟩
    · exact hold (hfiles ▸ hm)
    · obtain ⟨imports, hfen, he⟩ := Imports.publishResult_eq hpub
      obtain ⟨⟨q, hq, hlease, -⟩, -⟩ := Job.fencedIf_isSome hfen
      rw [hdb, he] at hm
      rcases List.mem_append.1 hm with hm | hm
      · exact hold hm
      · obtain ⟨id, -, x, -, rfl⟩ := Table.exists_of_mem_zipWith hm
        have hclaim := hi.importClaims k hkm
        obtain ⟨j₀, hj₀, hid₀, hr⟩ := import_origin env now hi hf hj (hid ▸ hclaim.job)
        rw [← hr, hi.imports.keyed.eq hj₀ hq ((hid₀.trans hid).trans hlease.1.symm)]
        exact (hclaim.row q hq hlease.1 hlease.2.2.1).2

/-- What a step of a worker locates. -/
theorem locates_effect {k : Indexes.Worker} {input : Indexes.Input} {pc' : Indexes.Pc} {db' : Db}
    {x : RepositoryIndex} (hr : Indexes.Reads s.db x.data.importJobId k.pc)
    (hl : Indexes.Locates s.db x.data.importJobId k.pc) (he : Indexes.Effect env now k.claim input k.pc s.db pc' db') :
    Indexes.Locates s.db x.data.importJobId pc' := by
  cases he with
  | idle => exact hl
  | stopped pc' h hpc => rcases h with rfl | ⟨code, message, rfl⟩ <;> trivial
  | loaded hpc hj => trivial
  | parsing hpc h => trivial
  | parsed hpc hb =>
    rw [hpc] at hr
    intro p hp
    obtain ⟨f, hf, hid⟩ := Indexes.build_symbols hb hp
    exact ⟨f, (hr.2 f hf).1, hid, (hr.2 f hf).2⟩
  | storing hpc h => rw [hpc] at hl; exact hl
  | published hpc hin hlen hp => trivial
  | failed hpc => trivial

theorem workers_step (h : LinkInv s) (hi : Inv w s) (hc : ContentInv w s) (hf : ∀ i ∈ a.ids, i ∉ w.issued) :
    ∀ k ∈ (Jobs.step env now a s).indexWorkers, ∀ x ∈ (Jobs.step env now a s).db.indexes, x.id = k.claim.jobId →
      Indexes.Locates (Jobs.step env now a s).db x.data.importJobId k.pc := by
  intro k hk x hx hxk
  have hold : ∀ pc, (∀ x₀ ∈ s.db.indexes, x₀.id = k.claim.jobId → Indexes.Locates s.db x₀.data.importJobId pc) →
      k.claim.jobId ∈ w.issued → Indexes.Locates (Jobs.step env now a s).db x.data.importJobId pc := by
    intro pc hpc hid
    obtain ⟨x₀, hx₀, hid₀, himp, -⟩ := index_origin env now hi hf hx (hxk ▸ hid)
    have := hpc x₀ hx₀ (hid₀.trans hxk)
    rw [himp] at this
    exact this.mono (files_mono hi hf hc.sources hx)
  rcases Inv.indexWorkers_step hk with hk | ⟨jobId, token, p, -, -, rfl, -⟩ | ⟨i, input, k₀, -, hk₀, he, heff⟩
  · exact hold _ (h.workers k hk) (hi.indexClaims k hk).job
  · trivial
  · have hk₀ := Table.mem_of_getElem? hk₀
    refine hold _ (fun x₀ hx₀ hid₀ => ?_) (he ▸ (hi.indexClaims k₀ hk₀).job)
    rw [he] at hid₀
    exact locates_effect (hc.workers k₀ hk₀ x₀ hx₀ hid₀) (h.workers k₀ hk₀ x₀ hx₀ hid₀) heff

/-- Symbols and chunks hang on the import of their index. -/
theorem indexed_step (env : Env) (now : Time) (h : LinkInv s) (hi : Inv w s) (ho : OutputInv w s) (hc : ContentInv w s)
    (hf : ∀ i ∈ a.ids, i ∉ w.issued) :
    (∀ y ∈ (Jobs.step env now a s).db.symbols, ∀ x ∈ (Jobs.step env now a s).db.indexes, x.id = y.indexId →
      x.data.importJobId = y.importJobId ∧
        Indexes.Located (Jobs.step env now a s).db x.data.importJobId y.fileId) ∧
    ∀ c ∈ (Jobs.step env now a s).db.chunks, ∀ x ∈ (Jobs.step env now a s).db.indexes, x.id = c.indexId →
      x.data.importJobId = c.importJobId := by
  have hsymbol : ∀ y ∈ s.db.symbols, ∀ x ∈ (Jobs.step env now a s).db.indexes, x.id = y.indexId →
      x.data.importJobId = y.importJobId ∧
        Indexes.Located (Jobs.step env now a s).db x.data.importJobId y.fileId := by
    intro y hy x hx hid
    obtain ⟨r, hr, hrid, -⟩ := ho.symbols.owner y hy
    obtain ⟨x₀, hx₀, hid₀, himp, -⟩ :=
      index_origin env now hi hf hx (by rw [hid, ← hrid]; exact hi.indexes.ids r hr)
    obtain ⟨heq, hl⟩ := h.symbols y hy x₀ hx₀ (hid₀.trans hid)
    rw [himp] at heq hl
    exact ⟨heq, hl.mono (files_mono hi hf hc.sources hx)⟩
  have hchunk : ∀ c ∈ s.db.chunks, ∀ x ∈ (Jobs.step env now a s).db.indexes, x.id = c.indexId →
      x.data.importJobId = c.importJobId := by
    intro c hm x hx hid
    obtain ⟨r, hr, hrid, -⟩ := ho.chunks.owner c hm
    obtain ⟨x₀, hx₀, hid₀, himp, -⟩ :=
      index_origin env now hi hf hx (by rw [hid, ← hrid]; exact hi.indexes.ids r hr)
    exact himp.symm.trans (h.chunks c hm x₀ hx₀ (hid₀.trans hid))
  cases hk : a.kind with
  | imports =>
    rw [(frame_imports _ _ _ hk).2.1, (frame_imports _ _ _ hk).2.2.1]
    exact ⟨hsymbol, hchunk⟩
  | searches =>
    rw [(frame_searches _ _ _ hk).2.2.2.2.1, (frame_searches _ _ _ hk).2.2.2.2.2]
    exact ⟨hsymbol, hchunk⟩
  | removal =>
    cases a <;> try cases hk
    case removal.removeRepository.refl userId repositoryId =>
      have hsub : (∀ y ∈ (s.db.removeRepository userId repositoryId).symbols, y ∈ s.db.symbols) ∧
          ∀ c ∈ (s.db.removeRepository userId repositoryId).chunks, c ∈ s.db.chunks := by
        rcases removeRepository_cases s.db userId repositoryId with hr | hr <;> rw [hr]
        · exact ⟨fun _ h => h, fun _ h => h⟩
        · exact ⟨fun _ h => List.mem_of_mem_filter h, fun _ h => List.mem_of_mem_filter h⟩
      exact ⟨fun y hy => hsymbol y (hsub.1 y hy), fun c hm => hchunk c (hsub.2 c hm)⟩
  | indexes =>
    rcases index_outcome env now hi hf hk with
      ⟨-, hsym, hchunks, -⟩ | ⟨k, source, built, n, ids, db', hkm, -, -, hpub, hdb, hpc, -⟩
    · rw [hsym, hchunks]
      exact ⟨hsymbol, hchunk⟩
    · obtain ⟨indexes, -, he⟩ := Indexes.publishIndex_eq hpub
      have hread : ∀ x ∈ (Jobs.step env now a s).db.indexes, x.id = k.claim.jobId →
          x.data.importJobId = source ∧ ∀ p ∈ built.symbols,
            Indexes.Located (Jobs.step env now a s).db x.data.importJobId p.1 := by
        intro x hx hid
        obtain ⟨x₀, hx₀, hid₀, himp, -⟩ := index_origin env now hi hf hx (hid ▸ (hi.indexClaims k hkm).job)
        have hr := hc.workers k hkm x₀ hx₀ (hid₀.trans hid)
        have hl := h.workers k hkm x₀ hx₀ (hid₀.trans hid)
        rw [hpc] at hr hl
        rw [himp] at hl
        exact ⟨himp.symm.trans hr.1.symm, fun p hp => (hl p hp).mono (files_mono hi hf hc.sources hx)⟩
      refine ⟨fun y hy x hx hid => ?_, fun c hm x hx hid => ?_⟩
      · have hy' := hy
        rw [hdb, he] at hy'
        rcases List.mem_append.1 hy' with hy' | hy'
        · exact hsymbol y hy' x hx hid
        · obtain ⟨p, hp, rfl⟩ := List.mem_map.1 hy'
          exact ⟨(hread x hx hid).1, (hread x hx hid).2 p hp⟩
      · have hm' := hm
        rw [hdb, he] at hm'
        rcases List.mem_append.1 hm' with hm' | hm'
        · exact hchunk c hm' x hx hid
        · obtain ⟨id, -, p, -, rfl⟩ := Table.exists_of_mem_zipWith hm'
          exact (hread x hx hid).1

/-- Every action keeps the links. -/
theorem step (h : LinkInv s) (hi : Inv w s) (ho : OutputInv w s) (hc : ContentInv w s)
    (hf : ∀ i ∈ a.ids, i ∉ w.issued) : LinkInv (Jobs.step env now a s) := by
  obtain ⟨hs, hch⟩ := h.indexed_step env now hi ho hc hf
  exact ⟨h.imports_step env now hi hf, h.files_step env now hi ho hf, h.workers_step hi hc hf, hs, hch⟩

end LinkInv

/-- The keys of the job system. -/
theorem schema {env : Env} {w : World} {s : Jobs} (hi : Inv w s) (ho : OutputInv w s) (hc : ContentInv w s)
    (hv : CoverageInv env s) (hl : LinkInv s) (hk : Table.Keyed (·.id) s.db.repositories) : s.db.Schema where
  repositoryKeys := hk
  importKeys := hi.imports.keyed
  fileKeys := hc.fileKeys
  indexKeys := hi.indexes.keyed
  chunkKeys := hc.chunkKeys
  searchKeys := hi.searches.keyed
  imports := hl.imports
  files := fun f hf => by
    obtain ⟨j, hj, hid, -⟩ := ho.files.owner f hf
    exact ⟨j, hj, hid, hl.files f hf j hj hid⟩
  indexes := fun x hx => by
    obtain ⟨j, hj, hid, -, hr⟩ := hc.sources x hx
    exact ⟨j, hj, hid, hr⟩
  symbolIndexes := fun y hy => by
    obtain ⟨x, hx, hid, -⟩ := ho.symbols.owner y hy
    exact ⟨x, hx, hid, (hl.symbols y hy x hx hid).1⟩
  symbolFiles := fun y hy => by
    obtain ⟨x, hx, hid, -⟩ := ho.symbols.owner y hy
    obtain ⟨himp, f, hf, hfid, hs⟩ := hl.symbols y hy x hx hid
    exact ⟨f, hf, hfid, hs.trans himp⟩
  chunkIndexes := fun c hm => by
    obtain ⟨x, hx, hid, -⟩ := ho.chunks.owner c hm
    exact ⟨x, hx, hid, hl.chunks c hm x hx hid⟩
  chunkFiles := fun c hm => by
    obtain ⟨x, hx, hid, -⟩ := ho.chunks.owner c hm
    obtain ⟨f, hf, hfid, hs, -⟩ := hc.cut c hm x hx hid
    exact ⟨f, hf, hfid, hs.trans (hl.chunks c hm x hx hid)⟩
  searches := fun r hr => by
    obtain ⟨x, hx, hid, -, hrep⟩ := hv.sources r hr
    exact ⟨x, hx, hid, hrep⟩
  documentSearches := fun d hd => by
    obtain ⟨r, hr, hid⟩ := hv.owners d hd
    have hmem : d ∈ Searches.documentsOf s.db r.id := List.mem_filter.2 ⟨hd, decide_eq_true hid.symm⟩
    exact ⟨r, hr, hid, ((hv.stored r hr).source d hmem).symm⟩
  documentChunks := fun d hd => by
    obtain ⟨r, hr, hid⟩ := hv.owners d hd
    have hmem : d ∈ Searches.documentsOf s.db r.id := List.mem_filter.2 ⟨hd, decide_eq_true hid.symm⟩
    obtain ⟨pending, hcover⟩ := (hv.stored r hr).chunks
    have hchunk : d.chunkId ∈ s.db.chunkIds r.data.sourceIndexId :=
      hcover.subset (List.mem_append_left _ (List.mem_map_of_mem hmem))
    obtain ⟨c, hm, hcid⟩ := List.mem_map.1 hchunk
    obtain ⟨hm, hindex⟩ := List.mem_filter.1 hm
    exact ⟨c, hm, hcid, (of_decide_eq_true hindex).trans ((hv.stored r hr).source d hmem).symm⟩

end Jobs

/-! ### Events and receipts -/

namespace Chat
variable {env : Env} {now : Time} {ids : List Uuid} {db : Db} {w : World} {s : Chat} {t' : Tables}
  {as' : List Ask} {sb' : List Runs.Submit} {ws' : List Runs.Worker} {log' : List Entry}

/-- Events and receipts hang on runs that are there. -/
structure LinkInv (s : Chat) : Prop where
  events : ∀ e ∈ s.tables.events, ∃ r ∈ s.tables.runs, r.id = e.runId
  receipts : ∀ q ∈ s.tables.receipts, ∃ r ∈ s.tables.runs, r.id = q.runId

/-- Whose receipt it is: an old one's run, or a run that is there. -/
def Paid (t : Tables) (q : UsageReceipt) : Prop :=
  (∃ q₀ ∈ t.receipts, q₀.runId = q.runId) ∨ ∃ r ∈ t.runs, r.id = q.runId

theorem paid_writes {c : Call} {input : Answers.Input} {pc : Answers.Pc} {t t' : Tables}
    (h : Answers.Writes env now c input pc t t') {q : UsageReceipt} (hq : q ∈ t'.receipts) : Paid t q := by
  cases h with
  | none | previewed => exact .inl ⟨q, hq, rfl⟩
  | began hrun hin h =>
    obtain ⟨⟨run, hrun, hheld⟩, -, rfl⟩ := Tables.begin_eq h
    rcases List.mem_append.1 hq with hq | hq
    · exact .inl ⟨q, hq, rfl⟩
    · rw [List.mem_singleton.1 hq]
      exact .inr ⟨run, hrun, hheld.1⟩
  | finished hr h =>
    obtain ⟨-, -, rfl⟩ := Tables.finish_eq h
    obtain ⟨q₀, hq₀, rfl⟩ := Table.mem_update.1 hq
    exact .inl ⟨q₀, hq₀, by split <;> rfl⟩

/-- Receipts do not come from nowhere. -/
theorem paid_effect (hi : RunInv w s) (hf : ∀ i ∈ ids, i ∉ w.issued) (h : Effect env now ids db s t' as' sb' ws' log')
    {q : UsageReceipt} (hq : q ∈ t'.receipts) : Paid s.tables q := by
  have hsame : t'.receipts = s.tables.receipts → Paid s.tables q := fun he => .inl ⟨q, he ▸ hq, rfl⟩
  cases h with
  | same | stamped | created | asking | submitting => exact hsame rfl
  | claimed hid hpc hr => exact hsame (Tables.transition_receipts hi.keyed fun _ _ _ => rfl)
  | worked hk hids h =>
    cases h with
    | idle | ending | loaded => exact hsame rfl
    | answering hpc h => exact paid_writes h.writes hq
    | published hpc h =>
      obtain ⟨run, -, -, c, -, -, ht⟩ := Runs.publish_eq hi.keyed h
      exact hsame ht.receipts
    | failed hpc hr => exact hsame (Tables.transition_receipts hi.keyed fun _ _ _ => rfl)
  | stopped hm => exact hsame (Tables.transition_receipts hi.keyed fun r hr hp => (hm r hr hp).same.id)
  | removed p => exact .inl ⟨q, mem_receipts_deleteConversations hq, rfl⟩
  | submitted hp hids _ h =>
    cases h with
    | @inserted _ _ runId _ hpc hin h =>
      have hne : ∀ r ∈ s.tables.runs, r.id ≠ runId := fun r hr he => hf _ (hids _ hin) (he ▸ hi.ids r hr)
      obtain ⟨-, rfl⟩ := Runs.insertRun_eq hi.keyed hne (.inl rfl) h
      exact hsame rfl
    | _ => exact hsame rfl
  | asked hp h =>
    cases h with
    | idle | ended | began => exact hsame rfl
    | answering hpc h => exact paid_writes h.writes hq
    | appended hpc h =>
      obtain ⟨c, -, -, rfl⟩ := Tables.appendPair_eq h
      exact hsame rfl

/-- Runs stay, unless conversations are removed with all that hangs on them. -/
theorem Written.runs_stay (h : Written now ids db s t' as') :
    (∀ r ∈ s.tables.runs, ∃ r' ∈ t'.runs, r'.id = r.id) ∨ ∃ p, t' = s.tables.deleteConversations p := by
  have hupdate : ∀ {p : AnswerRun → Prop} [DecidablePred p] {f : AnswerRun → AnswerRun},
      (∀ r ∈ s.tables.runs, p r → (f r).id = r.id) → t'.runs = Table.update p f s.tables.runs →
        ∀ r ∈ s.tables.runs, ∃ r' ∈ t'.runs, r'.id = r.id := by
    intro p _ f hid he r hr
    rw [he]
    refine ⟨_, Table.mem_update_of_mem hr, ?_⟩
    split
    · exact hid r hr ‹_›
    · rfl
  cases h with
  | kept runs | asked _ _ _ _ _ runs => exact .inl fun r hr => ⟨r, runs ▸ hr, rfl⟩
  | created _ _ _ h =>
    rw [h]
    exact .inl fun r hr => ⟨r, hr, rfl⟩
  | rewritten runs hid => exact .inl (hupdate (fun r _ _ => hid r) runs)
  | moved hid h => exact .inl (hupdate (fun r hr hp => (Tables.settled_id _).trans (hid r hr hp)) h.runs)
  | removed p h => exact .inr ⟨p, h⟩
  | inserted hid hr h =>
    rw [h]
    exact .inl fun r hr => ⟨r, List.mem_append_left _ hr, rfl⟩
  | published hk hpc hrun hheld hc hroom h =>
    refine .inl (hupdate (fun r _ _ => ?_) h.runs)
    exact Tables.settled_id _

/-- An event of the next state is old, or of a run that is there. -/
theorem Written.events_of (h : Written now ids db s t' as') {e : RunEvent} (he : e ∈ t'.events) :
    e ∈ s.tables.events ∨ (∃ r ∈ s.tables.runs, r.id = e.runId) ∨ ∃ r ∈ t'.runs, r.id = e.runId := by
  cases h with
  | kept _ events | rewritten _ _ events | asked _ _ _ _ _ _ events => exact .inl (events ▸ he)
  | created _ _ _ h =>
    rw [h] at he
    exact .inl he
  | moved hid h => exact (h.mem_events he).imp_right .inl
  | removed p h =>
    rw [h] at he
    exact .inl (List.mem_of_mem_filter he)
  | inserted hid hr h =>
    rw [h] at he ⊢
    rcases List.mem_append.1 he with he | he
    · exact .inl he
    · rw [List.mem_singleton.1 he]
      exact .inr (.inr ⟨_, List.mem_append_right _ List.mem_cons_self, rfl⟩)
  | published hk hpc hrun hheld hc hroom h => exact (h.mem_events he).imp_right .inl

/-- What hangs on a run goes with it when its conversation is removed. -/
theorem kept_of_remaining {t : Tables} {p : Conversation → Bool} {runId : Uuid}
    (h : runId ∉ ((t.runs.filter (·.conversationId ∈ (t.conversations.filter p).map (·.id))).map (·.id)))
    (hr : ∃ r ∈ t.runs, r.id = runId) : ∃ r ∈ (t.deleteConversations p).runs, r.id = runId := by
  obtain ⟨r, hr, hid⟩ := hr
  refine ⟨r, List.mem_filter.2 ⟨hr, decide_eq_true fun hgone => h ?_⟩, hid⟩
  exact List.mem_map.2 ⟨r, List.mem_filter.2 ⟨hr, decide_eq_true hgone⟩, hid⟩

theorem LinkInv.empty : LinkInv Chat.empty := by
  constructor <;> intro x hx <;> cases hx

theorem LinkInv.effect (h : LinkInv s) (hi : RunInv w s) (hf : ∀ i ∈ ids, i ∉ w.issued) {s' : Chat}
    (he : Effect env now ids db s s'.tables s'.asks s'.submits s'.workers s'.log) : LinkInv s' := by
  have hw := written hi hf he
  rcases hw.runs_stay with hstay | ⟨p, hp⟩
  · have hrun : ∀ {runId : Uuid}, (∃ r ∈ s.tables.runs, r.id = runId) → ∃ r ∈ s'.tables.runs, r.id = runId := by
      rintro runId ⟨r, hr, hid⟩
      obtain ⟨r', hr', hid'⟩ := hstay r hr
      exact ⟨r', hr', hid'.trans hid⟩
    refine ⟨fun e hm => ?_, fun q hq => ?_⟩
    · rcases hw.events_of hm with hm | hold | hnew
      · exact hrun (h.events e hm)
      · exact hrun hold
      · exact hnew
    · rcases paid_effect hi hf he hq with ⟨q₀, hq₀, hid⟩ | hold
      · exact hid ▸ hrun (h.receipts q₀ hq₀)
      · exact hrun hold
  · constructor <;> rw [hp]
    · intro e hm
      obtain ⟨hm, hgone⟩ := List.mem_filter.1 hm
      exact kept_of_remaining (of_decide_eq_true hgone) (h.events e hm)
    · intro q hq
      obtain ⟨hq, hgone⟩ := List.mem_filter.1 hq
      exact kept_of_remaining (of_decide_eq_true hgone) (h.receipts q hq)

end Chat

/-! ### The whole system -/

namespace System
variable {env : Env}

structure LinkInv (s : System) : Prop where
  jobs : s.jobs.LinkInv
  chat : s.chat.LinkInv

theorem linkInv_step (s : System) (a : Action) (h : JobsInv env s ∧ ChatInv env s ∧ LinkInv s) :
    JobsInv env (step env s a) ∧ ChatInv env (step env s a) ∧ LinkInv (step env s a) := by
  obtain ⟨hj, hc, hl⟩ := h
  refine ⟨jobsInv_step s a hj, chatInv_step s a hc, ?_, ?_⟩
  · cases a with
    | tick elapsed => exact hl.jobs
    | chat a => simp only [step]; split <;> exact hl.jobs
    | jobs a =>
      simp only [step]
      split
      · rename_i hfr
        exact hl.jobs.step hj.inv hj.output hj.content hfr.1.2
      · exact hl.jobs
  · obtain ⟨ids, hf, -, he⟩ := chatStep env s a
    exact hl.chat.effect hc.runs hf he

theorem linkInv (env : Env) (acts : List Action) : LinkInv (run env acts) :=
  (Machine.invariant (P := fun s => JobsInv env s ∧ ChatInv env s ∧ LinkInv s)
    ⟨jobsInv env [], chatInv env [], Jobs.LinkInv.empty, Chat.LinkInv.empty⟩ linkInv_step acts).2.2

/-- Both databases keep their keys. -/
structure Schema (s : System) : Prop where
  db : s.jobs.db.Schema
  tables : s.chat.tables.Schema s.jobs.db

theorem Schema.of_inv {s : System} (hj : JobsInv env s) (hc : ChatInv env s) (hl : LinkInv s) : Schema s where
  db := Jobs.schema hj.inv hj.output hj.content hj.coverage hl.jobs hc.owners.keyed
  tables :=
    { conversationKeys := hc.conversations.keyed
      runKeys := hc.runs.keyed
      receiptKeys := hc.receipts.keyed
      conversations := hc.owners.conversations
      messages := hc.conversations.messages
      runs := hc.conversations.runs
      events := hl.chat.events
      receipts := hl.chat.receipts }

theorem schema (env : Env) (acts : List Action) : Schema (run env acts) :=
  .of_inv (jobsInv env acts) (chatInv env acts) (linkInv env acts)

end System
end RepoPilot
