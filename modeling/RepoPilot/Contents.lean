import RepoPilot.Outputs

/-! # Where chunks come from

An index is built from a completed import of its own repository, and every chunk is an exact slice of
one of that import's files. The invariant also says what an index worker has read, as long as its
job exists: nothing it read can have changed. -/

namespace RepoPilot

namespace Indexes

/-- The chunk `c` is cut from the stored file `fileId` of the import `source`. -/
def Cut (db : Db) (source fileId : Uuid) (c : Chunk) : Prop :=
  ∃ f ∈ db.files, f.id = fileId ∧ f.importJobId = source ∧ Source.Exact f.content c

/-- What a worker whose index is built from the import `source` has read. -/
def Reads (db : Db) (source : Uuid) : Pc → Prop
  | .parsing s files | .parse s files => s = source ∧ ∀ f ∈ files, f ∈ db.files ∧ f.importJobId = source
  | .storing s built _ | .publish s built _ => s = source ∧ ∀ p ∈ built.chunks, Cut db source p.1 p.2
  | _ => True

theorem Cut.mono {db db' : Db} {source fileId : Uuid} {c : Chunk} (h : Cut db source fileId c)
    (hf : ∀ f ∈ db.files, f.importJobId = source → f ∈ db'.files) : Cut db' source fileId c :=
  let ⟨f, hm, hid, hs, he⟩ := h
  ⟨f, hf f hm hs, hid, hs, he⟩

theorem Reads.mono {db db' : Db} {source : Uuid} {pc : Pc} (h : Reads db source pc)
    (hf : ∀ f ∈ db.files, f.importJobId = source → f ∈ db'.files) : Reads db' source pc := by
  cases pc with
  | parsing s files => exact ⟨h.1, fun f hm => ⟨hf f (h.2 f hm).1 (h.2 f hm).2, (h.2 f hm).2⟩⟩
  | parse s files => exact ⟨h.1, fun f hm => ⟨hf f (h.2 f hm).1 (h.2 f hm).2, (h.2 f hm).2⟩⟩
  | storing s built n => exact ⟨h.1, fun p hp => (h.2 p hp).mono hf⟩
  | publish s built n => exact ⟨h.1, fun p hp => (h.2 p hp).mono hf⟩
  | _ => trivial

theorem addFile_chunks {env : Env} {built built' : Built} {file : RepositoryFile}
    (h : addFile env built file = .ok built') {p : Uuid × Chunk} (hp : p ∈ built'.chunks) :
    p ∈ built.chunks ∨ file.id = p.1 ∧ Source.Exact file.content p.2 := by
  unfold addFile at h
  simp only [bind_ok] at h
  obtain ⟨result, hr, h⟩ := h
  split at h
  · cases h
  · cases h
    rcases List.mem_append.1 hp with hp | hp
    · exact .inl hp
    · obtain ⟨c, hc, rfl⟩ := List.mem_map.1 hp
      exact .inr ⟨rfl, Source.exact_of_indexSource hr c hc⟩

/-- Every chunk built from `files` is an exact slice of one of them. -/
theorem build_chunks {env : Env} {files : List RepositoryFile} {built : Built} (h : build env files = .ok built)
    {p : Uuid × Chunk} (hp : p ∈ built.chunks) : ∃ f ∈ files, f.id = p.1 ∧ Source.Exact f.content p.2 := by
  refine foldlM_keeps (P := fun built => ∀ p ∈ built.chunks, ∃ f ∈ files, f.id = p.1 ∧ Source.Exact f.content p.2)
    (fun built f hf built' hb h p hp => ?_) (List.forall_mem_nil _) h p hp
  rcases addFile_chunks h hp with hp | hex
  · exact hb p hp
  · exact ⟨f, hf, hex⟩

end Indexes

namespace Jobs

/-- Indexes, their imports and their chunks. -/
structure ContentInv (w : World) (s : Jobs) : Prop where
  fileKeys : Table.Keyed RepositoryFile.id s.db.files
  fileIds : ∀ f ∈ s.db.files, f.id ∈ w.issued
  chunkKeys : Table.Keyed CodeChunk.id s.db.chunks
  chunkIds : ∀ c ∈ s.db.chunks, c.id ∈ w.issued
  sources : ∀ x ∈ s.db.indexes, ∃ j ∈ s.db.imports,
    j.id = x.data.importJobId ∧ j.status = .completed ∧ j.repositoryId = x.repositoryId
  workers : ∀ k ∈ s.indexWorkers, ∀ x ∈ s.db.indexes, x.id = k.claim.jobId →
    Indexes.Reads s.db x.data.importJobId k.pc
  cut : ∀ c ∈ s.db.chunks, ∀ x ∈ s.db.indexes, x.id = c.indexId →
    Indexes.Cut s.db x.data.importJobId c.fileId c.chunk

section Files
variable {env : Env} {now : Time} {a : Action} {s : Jobs} {w : World}

/-- A file whose import is still there is still there. -/
theorem files_kept (hi : Inv w s) (hf : ∀ i ∈ a.ids, i ∉ w.issued) {f : RepositoryFile} (hm : f ∈ s.db.files)
    {j : ImportJob} (hj : j ∈ (step env now a s).db.imports) (hjf : j.id = f.importJobId) :
    f ∈ (step env now a s).db.files := by
  cases hk : a.kind with
  | imports =>
    rcases import_outcome env now hi hf hk with
      ⟨-, hfiles, -⟩ | ⟨k, source, result, ids, db', -, -, -, hpub, hdb, -⟩
    · rw [hfiles]; exact hm
    · obtain ⟨imports, -, he⟩ := Imports.publishResult_eq hpub
      rw [hdb, he]
      exact List.mem_append_left _ hm
  | indexes => rw [(frame_indexes _ _ _ hk).2.2.1]; exact hm
  | searches => rw [(frame_searches _ _ _ hk).2.2.1]; exact hm
  | removal =>
    cases a <;> try cases hk
    case removal.removeRepository.refl userId repositoryId =>
      rcases removeRepository_cases s.db userId repositoryId with h | h <;> simp only [step, h] at hj ⊢
      · exact hm
      · obtain ⟨hj, hjr⟩ := List.mem_filter.1 hj
        refine List.mem_filter.2 ⟨hm, decide_eq_true fun hmem => ?_⟩
        obtain ⟨q, hq, hqid⟩ := List.mem_map.1 hmem
        obtain ⟨hq, hqr⟩ := List.mem_filter.1 hq
        rw [hi.imports.keyed.eq hq hj (hqid.trans hjf.symm)] at hqr
        exact absurd (of_decide_eq_true hqr) (of_decide_eq_true hjr)

/-- File ids are drawn once. -/
theorem files_keyed (env : Env) (now : Time) (hi : Inv w s) (hf : ∀ i ∈ a.ids, i ∉ w.issued) (hn : a.ids.Nodup)
    (hk : Table.Keyed RepositoryFile.id s.db.files) (hids : ∀ f ∈ s.db.files, f.id ∈ w.issued) :
    Table.Keyed RepositoryFile.id (step env now a s).db.files ∧
      ∀ f ∈ (step env now a s).db.files, f.id ∈ w.issued ++ a.ids := by
  have hold : ∀ f ∈ s.db.files, f.id ∈ w.issued ++ a.ids := fun f hf => List.mem_append_left _ (hids f hf)
  cases hkind : a.kind with
  | imports =>
    rcases import_outcome env now hi hf hkind with
      ⟨-, hfiles, -⟩ | ⟨k, source, result, ids, db', -, hids', hlen, hpub, hdb, -⟩
    · rw [hfiles]; exact ⟨hk, hold⟩
    · obtain ⟨imports, -, he⟩ := Imports.publishResult_eq hpub
      subst hids'
      rw [hdb, he]
      refine ⟨hk.append_drawn (fun _ _ => rfl) hlen hn fun f hm hmem => hf _ hmem (hids f hm), ?_⟩
      intro f hm
      rcases List.mem_append.1 hm with hm | hm
      · exact hold f hm
      · obtain ⟨x, hx, y, -, rfl⟩ := Table.exists_of_mem_zipWith hm
        exact List.mem_append_right _ hx
  | indexes => rw [(frame_indexes _ _ _ hkind).2.2.1]; exact ⟨hk, hold⟩
  | searches => rw [(frame_searches _ _ _ hkind).2.2.1]; exact ⟨hk, hold⟩
  | removal =>
    cases a <;> try cases hkind
    case removal.removeRepository.refl userId repositoryId =>
      rcases removeRepository_cases s.db userId repositoryId with h | h <;> simp only [step, h]
      · exact ⟨hk, hold⟩
      · exact ⟨hk.filter _, fun f hf => hold f (List.mem_filter.1 hf).1⟩

/-- Likewise chunk ids. -/
theorem chunks_keyed (env : Env) (now : Time) (hi : Inv w s) (hf : ∀ i ∈ a.ids, i ∉ w.issued) (hn : a.ids.Nodup)
    (hk : Table.Keyed CodeChunk.id s.db.chunks) (hids : ∀ c ∈ s.db.chunks, c.id ∈ w.issued) :
    Table.Keyed CodeChunk.id (step env now a s).db.chunks ∧
      ∀ c ∈ (step env now a s).db.chunks, c.id ∈ w.issued ++ a.ids := by
  have hold : ∀ c ∈ s.db.chunks, c.id ∈ w.issued ++ a.ids := fun c hc => List.mem_append_left _ (hids c hc)
  cases hkind : a.kind with
  | indexes =>
    rcases index_outcome env now hi hf hkind with
      ⟨-, -, hchunks, -⟩ | ⟨k, source, built, n, ids, db', -, hids', hlen, hpub, hdb, -⟩
    · rw [hchunks]; exact ⟨hk, hold⟩
    · obtain ⟨indexes, -, he⟩ := Indexes.publishIndex_eq hpub
      subst hids'
      rw [hdb, he]
      refine ⟨hk.append_drawn (fun _ _ => rfl) hlen hn fun c hm hmem => hf _ hmem (hids c hm), ?_⟩
      intro c hm
      rcases List.mem_append.1 hm with hm | hm
      · exact hold c hm
      · obtain ⟨x, hx, y, -, rfl⟩ := Table.exists_of_mem_zipWith hm
        exact List.mem_append_right _ hx
  | imports => rw [(frame_imports _ _ _ hkind).2.2.1]; exact ⟨hk, hold⟩
  | searches => rw [(frame_searches _ _ _ hkind).2.2.2.2.2]; exact ⟨hk, hold⟩
  | removal =>
    cases a <;> try cases hkind
    case removal.removeRepository.refl userId repositoryId =>
      rcases removeRepository_cases s.db userId repositoryId with h | h <;> simp only [step, h]
      · exact ⟨hk, hold⟩
      · exact ⟨hk.filter _, fun c hc => hold c (List.mem_filter.1 hc).1⟩

/-- The import an index is built from stays, completed, as long as the index does. -/
theorem sources_step (env : Env) (now : Time) (hi : Inv w s) (hf : ∀ i ∈ a.ids, i ∉ w.issued)
    (h : ∀ x ∈ s.db.indexes, ∃ j ∈ s.db.imports,
      j.id = x.data.importJobId ∧ j.status = .completed ∧ j.repositoryId = x.repositoryId) :
    ∀ x ∈ (step env now a s).db.indexes, ∃ j ∈ (step env now a s).db.imports,
      j.id = x.data.importJobId ∧ j.status = .completed ∧ j.repositoryId = x.repositoryId := by
  have hch := imports_changes env now hi.imports hi.importClaims hf
  have hxch := indexes_changes env now hi.indexes hf
  have hins : ∀ q ∈ s.db.imports, q.id ∉ (actor now a s).inserts := fun q hq hm =>
    hf _ (fresh_subset now s _ (List.mem_append_right _ hm)) (hi.imports.ids q hq)
  cases hk : a.kind with
  | imports =>
    have hdel : (actor now a s).deletes = false := by cases a <;> first | rfl | cases hk
    rw [(frame_imports _ _ _ hk).1]
    intro x hx
    obtain ⟨j, hj, hid, hs, hr⟩ := h x hx
    obtain ⟨j', hj', hid'⟩ := hch.survives hdel hj
    rcases hch.grown hj' with ⟨q, hq, hsame, -⟩ | hm
    · rw [hi.imports.keyed.eq hq hj (hsame.1.symm.trans hid')] at hsame
      exact ⟨j', hj', hid'.trans hid, (hch.completed hins hi.imports.keyed hj hs hj' hid').1, hsame.2.1.trans hr⟩
    · exact absurd (hid' ▸ hm) (hins j hj)
  | searches => rw [(frame_searches _ _ _ hk).2.1, (frame_searches _ _ _ hk).2.2.2.1]; exact h
  | indexes =>
    rw [(frame_indexes _ _ _ hk).2.1]
    intro x' hx'
    rcases hxch.grown hx' with ⟨x, hx, hsame, hg⟩ | hm
    · obtain ⟨j, hj, hid, hs, hr⟩ := h x hx
      exact ⟨j, hj, hid.trans hg.1.symm, hs, hr.trans hsame.2.1.symm⟩
    · cases a <;> try cases hk
      case indexes.inr.startIndex.refl userId repositoryId limit jobId =>
        simp only [step] at hx'
        rcases committed_cases s.db (Indexes.start now userId repositoryId limit jobId s.db) with
          hc | ⟨p, hp, hc⟩ <;> rw [hc] at hx'
        · exact h x' hx'
        · rcases Indexes.start_eq hp with he | ⟨repository, imported, sha, indexes, ho, hst, -, -, hins', he⟩ <;>
            rw [he] at hx'
          · exact h x' hx'
          · rcases Job.mem_of_insert hins' hx' with hx' | rfl
            · obtain ⟨q, hq, rfl⟩ := Table.mem_update.1 hx'
              split <;> exact h q hq
            · obtain ⟨-, -, -, hj, hjr, -⟩ := Db.owned_eq ho
              exact ⟨imported, hj, rfl, hst, hjr⟩
      all_goals cases hm
  | removal =>
    cases a <;> try cases hk
    case removal.removeRepository.refl userId repositoryId =>
      rcases removeRepository_cases s.db userId repositoryId with hr | hr <;> simp only [step, hr]
      · exact h
      · intro x hx
        obtain ⟨hx, hxr⟩ := List.mem_filter.1 hx
        obtain ⟨j, hj, hid, hs, hrep⟩ := h x hx
        refine ⟨j, List.mem_filter.2 ⟨hj, ?_⟩, hid, hs, hrep⟩
        rw [hrep]
        exact hxr

/-- The files of an index's import are never lost while the index exists. -/
theorem files_mono (hi : Inv w s) (hf : ∀ i ∈ a.ids, i ∉ w.issued)
    (h : ∀ x ∈ s.db.indexes, ∃ j ∈ s.db.imports,
      j.id = x.data.importJobId ∧ j.status = .completed ∧ j.repositoryId = x.repositoryId)
    {x : RepositoryIndex} (hx : x ∈ (step env now a s).db.indexes) :
    ∀ f ∈ s.db.files, f.importJobId = x.data.importJobId → f ∈ (step env now a s).db.files := by
  intro f hm hfx
  obtain ⟨j, hj, hid, -⟩ := sources_step env now hi hf h x hx
  exact files_kept hi hf hm hj (hid.trans hfx.symm)

/-- The index a row of the next state continues, when its id is an old one. -/
theorem index_origin (env : Env) (now : Time) (hi : Inv w s) (hf : ∀ i ∈ a.ids, i ∉ w.issued) {x : RepositoryIndex}
    (hx : x ∈ (step env now a s).db.indexes) (hid : x.id ∈ w.issued) :
    ∃ x₀ ∈ s.db.indexes, x₀.id = x.id ∧ x₀.data.importJobId = x.data.importJobId ∧
      x₀.data.commitSha = x.data.commitSha ∧ x₀.repositoryId = x.repositoryId := by
  rcases (indexes_changes env now hi.indexes hf).grown hx with ⟨x₀, hx₀, hsame, hg⟩ | hm
  · exact ⟨x₀, hx₀, hsame.1.symm, hg.1.symm, hg.2.1.symm, hsame.2.1.symm⟩
  · exact absurd hid (hf _ (fresh_subset now s _ (List.mem_append_right _ hm)))

end Files

namespace ContentInv
variable {env : Env} {now : Time} {a : Action} {s : Jobs} {w w' : World}

theorem empty (w : World) : ContentInv w Jobs.empty := by
  constructor <;> first | exact Table.Keyed.nil | (intro x hx; cases hx)

theorem mono (h : ContentInv w s) (hw : ∀ i ∈ w.issued, i ∈ w'.issued) : ContentInv w' s :=
  ⟨h.fileKeys, fun f hf => hw _ (h.fileIds f hf), h.chunkKeys, fun c hc => hw _ (h.chunkIds c hc), h.sources,
    h.workers, h.cut⟩

/-- What a step of a worker reads or keeps in mind. -/
theorem reads_effect (hi : Inv w s) {k : Indexes.Worker} {input : Indexes.Input} {pc' : Indexes.Pc} {db' : Db}
    {x : RepositoryIndex} (hx : x ∈ s.db.indexes) (hxk : x.id = k.claim.jobId)
    (hr : Indexes.Reads s.db x.data.importJobId k.pc)
    (he : Indexes.Effect env now k.claim input k.pc s.db pc' db') :
    Indexes.Reads s.db x.data.importJobId pc' := by
  cases he with
  | idle => exact hr
  | stopped pc' h hpc => rcases h with rfl | ⟨code, message, rfl⟩ <;> trivial
  | loaded hpc hj =>
    have hjid := List.find?_some hj
    simp only [decide_eq_true_eq] at hjid
    rw [hi.indexes.keyed.eq (List.mem_of_find?_eq_some hj) hx (hjid.trans hxk.symm)]
    refine ⟨rfl, fun f hf => ?_⟩
    have := List.mem_filter.1 ((List.mem_insertionSort _).1 hf)
    exact ⟨this.1, (of_decide_eq_true this.2).1⟩
  | parsing hpc h => rw [hpc] at hr; exact hr
  | parsed hpc hb =>
    rw [hpc] at hr
    refine ⟨hr.1, fun p hp => ?_⟩
    obtain ⟨f, hf, hid, hex⟩ := Indexes.build_chunks hb hp
    exact ⟨f, (hr.2 f hf).1, hid, (hr.2 f hf).2, hex⟩
  | storing hpc h => rw [hpc] at hr; exact hr
  | published hpc hin hlen hp => trivial
  | failed hpc => trivial

theorem workers_step (h : ContentInv w s) (hi : Inv w s) (hf : ∀ i ∈ a.ids, i ∉ w.issued) :
    ∀ k ∈ (step env now a s).indexWorkers, ∀ x ∈ (step env now a s).db.indexes, x.id = k.claim.jobId →
      Indexes.Reads (step env now a s).db x.data.importJobId k.pc := by
  intro k hk x hx hxk
  have hold : ∀ pc, (∀ x₀ ∈ s.db.indexes, x₀.id = k.claim.jobId → Indexes.Reads s.db x₀.data.importJobId pc) →
      k.claim.jobId ∈ w.issued → Indexes.Reads (step env now a s).db x.data.importJobId pc := by
    intro pc hpc hid
    obtain ⟨x₀, hx₀, hid₀, himp, -⟩ := index_origin env now hi hf hx (hxk ▸ hid)
    have := hpc x₀ hx₀ (hid₀.trans hxk)
    rw [himp] at this
    exact this.mono (files_mono hi hf h.sources hx)
  rcases Inv.indexWorkers_step hk with hk | ⟨jobId, token, p, -, -, rfl, -⟩ | ⟨i, input, k₀, -, hk₀, he, heff⟩
  · exact hold _ (h.workers k hk) (hi.indexClaims k hk).job
  · trivial
  · have hk₀ := Table.mem_of_getElem? hk₀
    refine hold _ (fun x₀ hx₀ hid₀ => ?_) (he ▸ (hi.indexClaims k₀ hk₀).job)
    rw [he] at hid₀
    exact reads_effect hi hx₀ hid₀ (h.workers k₀ hk₀ x₀ hx₀ hid₀) heff

theorem cut_step (h : ContentInv w s) (hi : Inv w s) (ho : OutputInv w s) (hf : ∀ i ∈ a.ids, i ∉ w.issued) :
    ∀ c ∈ (step env now a s).db.chunks, ∀ x ∈ (step env now a s).db.indexes, x.id = c.indexId →
      Indexes.Cut (step env now a s).db x.data.importJobId c.fileId c.chunk := by
  intro c hc x hx hxc
  have hold : c ∈ s.db.chunks → Indexes.Cut (step env now a s).db x.data.importJobId c.fileId c.chunk := by
    intro hc
    obtain ⟨r, hr, hrc, -⟩ := ho.chunks.owner c hc
    have hid : x.id ∈ w.issued := by rw [hxc, ← hrc]; exact hi.indexes.ids r hr
    obtain ⟨x₀, hx₀, hid₀, himp, -⟩ := index_origin env now hi hf hx hid
    have := h.cut c hc x₀ hx₀ (hid₀.trans hxc)
    rw [himp] at this
    exact this.mono (files_mono hi hf h.sources hx)
  cases hk : a.kind with
  | imports => exact hold ((frame_imports env now s hk).2.2.1 ▸ hc)
  | searches => exact hold ((frame_searches env now s hk).2.2.2.2.2 ▸ hc)
  | indexes =>
    rcases index_outcome env now hi hf hk with
      ⟨-, -, hchunks, -⟩ | ⟨k, source, built, n, ids, db', hkm, -, hlen, hpub, hdb, hpc, -⟩
    · exact hold (hchunks ▸ hc)
    · obtain ⟨indexes, -, he⟩ := Indexes.publishIndex_eq hpub
      have hc' := hc
      rw [hdb, he] at hc'
      rcases List.mem_append.1 hc' with hc' | hc'
      · exact hold hc'
      · obtain ⟨id, -, p, hp, rfl⟩ := Table.exists_of_mem_zipWith hc'
        obtain ⟨x₀, hx₀, hid₀, himp, -⟩ :=
          index_origin env now hi hf hx (hxc ▸ (hi.indexClaims k hkm).job)
        have hr := h.workers k hkm x₀ hx₀ (hid₀.trans hxc)
        rw [hpc] at hr
        have := hr.2 p hp
        rw [himp] at this
        exact this.mono (files_mono hi hf h.sources hx)
  | removal =>
    cases a <;> try cases hk
    case removal.removeRepository.refl userId repositoryId =>
      refine hold ?_
      rcases removeRepository_cases s.db userId repositoryId with hr | hr <;> simp only [step, hr] at hc
      · exact hc
      · exact (List.mem_filter.1 hc).1

/-- Every action keeps the invariant. -/
theorem step (h : ContentInv w s) (hi : Inv w s) (ho : OutputInv w s) (hf : ∀ i ∈ a.ids, i ∉ w.issued)
    (hn : a.ids.Nodup) : ContentInv ⟨w.clock, w.issued ++ a.ids⟩ (Jobs.step env now a s) := by
  obtain ⟨hfk, hfi⟩ := files_keyed env now hi hf hn h.fileKeys h.fileIds
  obtain ⟨hck, hci⟩ := chunks_keyed env now hi hf hn h.chunkKeys h.chunkIds
  exact ⟨hfk, hfi, hck, hci, sources_step _ _ hi hf h.sources, h.workers_step hi hf, h.cut_step hi ho hf⟩

end ContentInv
end Jobs
end RepoPilot
