import RepoPilot.JobChanges
import RepoPilot.Publication

/-! # The output rows of imports and indexes

Files belong to completed imports, symbols and chunks to completed indexes, and the rows of a
completed job are the result of the one worker that published it. -/

namespace RepoPilot

namespace Imports

/-- A worker that has published: its job, its claim and its result. -/
def Worker.publication (k : Worker) : Option (Uuid × Claim × RepositorySource × ArchiveResult) :=
  match k.pc with
  | .published source result => some (k.claim.jobId, k.claim, source, result)
  | _ => none

theorem publication_eq_none {claim : Claim} {pc : Pc} (h : Unpublished pc) :
    Worker.publication ⟨claim, pc⟩ = none := by
  unfold Worker.publication
  split
  · exact absurd ‹_› (h _ _)
  · rfl

/-- The counters of a completed import. -/
def Fits (p : Claim × RepositorySource × ArchiveResult) (d : ImportData) : Prop :=
  d = ⟨p.2.2.scanned, p.2.2.skipped, p.2.2.files.length⟩

/-- `rows` are the files of the result, one row each. -/
def Rows (p : Claim × RepositorySource × ArchiveResult) (rows : List RepositoryFile) : Prop :=
  ∃ ids : List Uuid, ids.length = p.2.2.files.length ∧ rows = List.zipWith (fileRow p.1) ids p.2.2.files

end Imports

namespace Indexes

def Worker.publication (k : Worker) : Option (Uuid × Claim × Uuid × Built × Nat) :=
  match k.pc with
  | .published source built n => some (k.claim.jobId, k.claim, source, built, n)
  | _ => none

theorem publication_eq_none {claim : Claim} {pc : Pc} (h : ∀ source built n, pc ≠ .published source built n) :
    Worker.publication ⟨claim, pc⟩ = none := by
  unfold Worker.publication
  split
  · exact absurd ‹_› (h _ _ _)
  · rfl

/-- The counters of a completed index. -/
def Fits (p : Claim × Uuid × Built × Nat) (d : IndexData) : Prop :=
  d.symbolCount = p.2.2.1.symbols.length ∧ d.chunkCount = p.2.2.1.chunks.length ∧
    d.diagnostics = p.2.2.1.diagnostics ∧ d.filesScanned = p.2.2.2 ∧ d.filesStored = p.2.2.2

def SymbolRows (p : Claim × Uuid × Built × Nat) (rows : List CodeSymbol) : Prop :=
  rows = p.2.2.1.symbols.map (symbolRow p.1 p.2.1)

def ChunkRows (p : Claim × Uuid × Built × Nat) (rows : List CodeChunk) : Prop :=
  ∃ ids : List Uuid, ids.length = p.2.2.1.chunks.length ∧
    rows = List.zipWith (chunkRow p.1 p.2.1) ids p.2.2.1.chunks

end Indexes

namespace Jobs

def importPublications (s : Jobs) : List (Uuid × Claim × RepositorySource × ArchiveResult) :=
  s.importWorkers.filterMap (·.publication)

def indexPublications (s : Jobs) : List (Uuid × Claim × Uuid × Indexes.Built × Nat) :=
  s.indexWorkers.filterMap (·.publication)

/-- Published once, completely, and nothing else. -/
structure OutputInv (w : World) (s : Jobs) : Prop where
  imports : Job.Settled w Imports.Fits s.db.imports s.importPublications
  files : Job.Output (·.importJobId) Imports.Rows s.db.imports s.importPublications s.db.files
  indexes : Job.Settled w Indexes.Fits s.db.indexes s.indexPublications
  symbols : Job.Output (·.indexId) Indexes.SymbolRows s.db.indexes s.indexPublications s.db.symbols
  chunks : Job.Output (·.indexId) Indexes.ChunkRows s.db.indexes s.indexPublications s.db.chunks

section Outcome
variable {env : Env} {now : Time} {a : Action} {s : Jobs} {w : World}

theorem importWorkers_frame (h : a.kind ≠ .imports) : (step env now a s).importWorkers = s.importWorkers := by
  cases a <;> first | exact absurd rfl h | rfl | skip
  case claimIndex jobId token => simp only [step, claimIndex]; split <;> rfl
  case indexStep i input => simp only [step, indexStep]; split <;> rfl
  case claimSearch jobId token provider => simp only [step, claimSearch]; split <;> rfl
  case searchStep i input => simp only [step, searchStep]; split <;> rfl

theorem indexWorkers_frame (h : a.kind ≠ .indexes) : (step env now a s).indexWorkers = s.indexWorkers := by
  cases a <;> first | exact absurd rfl h | rfl | skip
  case claimImport jobId token => simp only [step, claimImport]; split <;> rfl
  case importStep i input => simp only [step, importStep]; split <;> rfl
  case claimSearch jobId token provider => simp only [step, claimSearch]; split <;> rfl
  case searchStep i input => simp only [step, searchStep]; split <;> rfl

/-- A fenced write of something other than a completion completes nothing. -/
theorem completed_of_fenced {π : Type} {c : Claim} {f : Job π → Job π} {t t' : List (Job π)}
    (h : Job.fenced now c f t = some t') (hf : ∀ r, (f r).status = .completed → r.status = .completed) {r' : Job π}
    (hr' : r' ∈ t') (hs : r'.status = .completed) : ∃ r ∈ t, r.id = r'.id ∧ r.status = .completed := by
  obtain ⟨-, ht⟩ := Job.fencedIf_isSome h
  rw [ht] at hr'
  obtain ⟨q, hq, rfl⟩ := Table.mem_update.1 hr'
  split at hs <;> rename_i hcond
  · have := hf q hs
    rw [hcond.1.2.1] at this
    cases this
  · rw [if_neg hcond]
    exact ⟨q, hq, rfl, hs⟩

/-- A worker's step publishes, or leaves outputs, publications and completed jobs as they were. -/
theorem import_outcome (env : Env) (now : Time) (hi : Inv w s) (hf : ∀ i ∈ a.ids, i ∉ w.issued)
    (h : a.kind = .imports) :
    ((step env now a s).importPublications = s.importPublications ∧ (step env now a s).db.files = s.db.files ∧
      ∀ r' ∈ (step env now a s).db.imports, r'.status = .completed →
        ∃ r ∈ s.db.imports, r.id = r'.id ∧ r.status = .completed) ∨
    ∃ k source result ids db', k ∈ s.importWorkers ∧ a.ids = ids ∧ ids.length = result.files.length ∧
      Imports.publishResult now k.claim source result ids s.db = some db' ∧ (step env now a s).db = db' ∧
      ((step env now a s).importPublications).Perm
        ((k.claim.jobId, k.claim, source, result) :: s.importPublications) := by
  have hch := imports_changes env now hi.imports hi.importClaims hf
  cases a <;> try cases h
  case createImport userId source limit repositoryId jobId =>
    refine .inl ⟨rfl, ?_, fun r' hr' hs => hch.completed_of rfl hr' hs⟩
    rcases committed_cases s.db (Imports.create now userId source limit repositoryId jobId s.db) with
      h | ⟨p, hp, h⟩
    · simp only [step, h]
    · obtain ⟨imports, he, -⟩ := Imports.create_eq hp
      simp only [step, h, he]
  case retryImport userId repositoryId limit jobId =>
    refine .inl ⟨rfl, ?_, fun r' hr' hs => hch.completed_of rfl hr' hs⟩
    rcases committed_cases s.db (Imports.retry now userId repositoryId limit jobId s.db) with h | ⟨p, hp, h⟩
    · simp only [step, h]
    · obtain ⟨imports, -, -, he, -⟩ := Imports.retry_eq hp
      simp only [step, h, he]
  case cancelImport userId repositoryId =>
    refine .inl ⟨rfl, ?_, fun r' hr' hs => hch.completed_of rfl hr' hs⟩
    rcases committed_map_cases s.db (Imports.cancel now userId repositoryId s.db) with h | ⟨db', hp, h⟩
    · simp only [step, h]
    · obtain ⟨-, job, -, he⟩ := Imports.cancel_eq hp
      simp only [step, h, he]
  case claimImport jobId token =>
    refine .inl ⟨?_, ?_, fun r' hr' hs => hch.completed_of rfl hr' hs⟩
    · simp only [step, claimImport]
      split
      · simp [importPublications, Imports.Worker.publication]
      · rfl
    · simp only [step, claimImport]
      split <;> rfl
  case importCycle input => exact .inl ⟨rfl, rfl, fun r' hr' hs => hch.completed_of rfl hr' hs⟩
  case importStep i input =>
    clear hch
    simp only [step, importStep]
    split
    swap
    · exact .inl ⟨rfl, rfl, fun r' hr' hs => ⟨r', hr', rfl, hs⟩⟩
    rename_i k hk
    have he := Imports.step_effect now k.claim input k.pc s.db
    have hsame : ∀ pc', Imports.Unpublished k.pc → Imports.Unpublished pc' →
        (s.importWorkers.set i ⟨k.claim, pc'⟩).filterMap (·.publication) = s.importPublications := by
      intro pc' h h'
      refine Table.filterMap_set_of_eq _ hk ?_
      rw [Imports.publication_eq_none h', Imports.publication_eq_none h]
    generalize (Imports.step now k.claim input k.pc s.db).1 = pc' at he ⊢
    generalize (Imports.step now k.claim input k.pc s.db).2 = db' at he ⊢
    cases he with
    | idle => exact .inl ⟨Table.filterMap_set_of_eq _ hk rfl, rfl, fun r' hr' hs => ⟨r', hr', rfl, hs⟩⟩
    | advanced pc' hpc h => exact .inl ⟨hsame _ hpc h, rfl, fun r' hr' hs => ⟨r', hr', rfl, hs⟩⟩
    | reported pc' hpc h hr =>
      unfold Job.reportStage at hr
      exact .inl ⟨hsame _ hpc h, rfl, fun r' hr' hs => completed_of_fenced hr (fun r hs => hs) hr' hs⟩
    | failed failure hpc =>
      have hfiles : (Imports.recordFailure now k.claim failure s.db).files = s.db.files := by
        rcases Imports.recordFailure_eq now k.claim failure s.db with h | ⟨imports, h, -⟩ <;> rw [h]
      refine .inl ⟨hsame _ (by rw [hpc]; rintro _ _ ⟨⟩) (by rintro _ _ ⟨⟩), hfiles, fun r' hr' hs => ?_⟩
      rcases Imports.recordFailure_eq now k.claim failure s.db with h | ⟨imports, h, ⟨-, -, hi⟩ | hi⟩ <;>
        rw [h] at hr'
      · exact ⟨r', hr', rfl, hs⟩
      · exact completed_of_fenced hi (fun r hs => by cases hs) hr' hs
      · exact completed_of_fenced hi (fun r hs => by cases hs) hr' hs
    | published hpc hin hlen hp =>
      refine .inr ⟨k, _, _, _, _, Table.mem_of_getElem? hk, by rw [hin]; rfl, hlen, hp, rfl, ?_⟩
      refine Table.filterMap_set_perm _ hk ?_ rfl
      rw [Imports.publication_eq_none]
      rw [hpc]
      rintro _ _ ⟨⟩

/-- The same for indexes. -/
theorem index_outcome (env : Env) (now : Time) (hi : Inv w s) (hf : ∀ i ∈ a.ids, i ∉ w.issued)
    (h : a.kind = .indexes) :
    ((step env now a s).indexPublications = s.indexPublications ∧ (step env now a s).db.symbols = s.db.symbols ∧
      (step env now a s).db.chunks = s.db.chunks ∧
      ∀ r' ∈ (step env now a s).db.indexes, r'.status = .completed →
        ∃ r ∈ s.db.indexes, r.id = r'.id ∧ r.status = .completed) ∨
    ∃ k source built n ids db', k ∈ s.indexWorkers ∧ a.ids = ids ∧ ids.length = built.chunks.length ∧
      Indexes.publishIndex now k.claim source built n ids s.db = some db' ∧ (step env now a s).db = db' ∧
      k.pc = .publish source built n ∧
      ((step env now a s).indexPublications).Perm
        ((k.claim.jobId, k.claim, source, built, n) :: s.indexPublications) := by
  have hch := indexes_changes env now hi.indexes hf
  cases a <;> try cases h
  case startIndex userId repositoryId limit jobId =>
    refine .inl ⟨rfl, ?_, ?_, fun r' hr' hs => hch.completed_of rfl hr' hs⟩ <;>
      rcases committed_cases s.db (Indexes.start now userId repositoryId limit jobId s.db) with
        h | ⟨p, hp, h⟩ <;> simp only [step, h]
    all_goals rcases Indexes.start_eq hp with he | ⟨_, _, _, _, -, -, -, -, -, he⟩ <;> rw [he]
  case cancelIndex userId repositoryId =>
    refine .inl ⟨rfl, ?_, ?_, fun r' hr' hs => hch.completed_of rfl hr' hs⟩ <;>
      rcases committed_map_cases s.db (Indexes.cancel now userId repositoryId s.db) with h | ⟨db', hp, h⟩ <;>
      simp only [step, h]
    all_goals obtain ⟨-, source, -, he⟩ := Indexes.cancel_eq hp; rw [he]
  case claimIndex jobId token =>
    refine .inl ⟨?_, ?_, ?_, fun r' hr' hs => hch.completed_of rfl hr' hs⟩ <;> simp only [step, claimIndex] <;>
      split <;> first | rfl | simp [indexPublications, Indexes.Worker.publication]
  case indexCycle input => exact .inl ⟨rfl, rfl, rfl, fun r' hr' hs => hch.completed_of rfl hr' hs⟩
  case indexStep i input =>
    clear hch
    simp only [step, indexStep]
    split
    swap
    · exact .inl ⟨rfl, rfl, rfl, fun r' hr' hs => ⟨r', hr', rfl, hs⟩⟩
    rename_i k hk
    have he := Indexes.step_effect env now k.claim input k.pc s.db
    have hsame : ∀ pc', (∀ source built n, k.pc ≠ .published source built n) →
        (∀ source built n, pc' ≠ .published source built n) →
        (s.indexWorkers.set i ⟨k.claim, pc'⟩).filterMap (·.publication) = s.indexPublications := by
      intro pc' h h'
      refine Table.filterMap_set_of_eq _ hk ?_
      rw [Indexes.publication_eq_none h', Indexes.publication_eq_none h]
    generalize (Indexes.step env now k.claim input k.pc s.db).1 = pc' at he ⊢
    generalize (Indexes.step env now k.claim input k.pc s.db).2 = db' at he ⊢
    have hidle : ∀ r' ∈ s.db.indexes, r'.status = .completed → ∃ r ∈ s.db.indexes, r.id = r'.id ∧
      r.status = .completed :=
      fun r' hr' hs => ⟨r', hr', rfl, hs⟩
    cases he with
    | idle => exact .inl ⟨Table.filterMap_set_of_eq _ hk rfl, rfl, rfl, hidle⟩
    | stopped pc' h hpc =>
      refine .inl ⟨hsame _ hpc ?_, rfl, rfl, hidle⟩
      rcases h with rfl | ⟨code, message, rfl⟩ <;> rintro _ _ _ ⟨⟩
    | loaded hpc hj => exact .inl ⟨hsame _ (by rw [hpc]; rintro _ _ _ ⟨⟩) (by rintro _ _ _ ⟨⟩), rfl, rfl, hidle⟩
    | parsed hpc hb => exact .inl ⟨hsame _ (by rw [hpc]; rintro _ _ _ ⟨⟩) (by rintro _ _ _ ⟨⟩), rfl, rfl, hidle⟩
    | parsing hpc hr =>
      unfold Job.reportStage at hr
      exact .inl ⟨hsame _ (by rw [hpc]; rintro _ _ _ ⟨⟩) (by rintro _ _ _ ⟨⟩), rfl, rfl,
        fun r' hr' hs => completed_of_fenced hr (fun r hs => hs) hr' hs⟩
    | storing hpc hr =>
      unfold Job.reportStage at hr
      exact .inl ⟨hsame _ (by rw [hpc]; rintro _ _ _ ⟨⟩) (by rintro _ _ _ ⟨⟩), rfl, rfl,
        fun r' hr' hs => completed_of_fenced hr (fun r hs => hs) hr' hs⟩
    | failed hpc =>
      have hrec := Indexes.recordFailure_eq now k.claim
      refine .inl ⟨hsame _ (by rw [hpc]; rintro _ _ _ ⟨⟩) (by rintro _ _ _ ⟨⟩), ?_, ?_, fun r' hr' hs => ?_⟩
      · rcases hrec _ _ s.db with h | ⟨indexes, -, h⟩ <;> rw [h]
      · rcases hrec _ _ s.db with h | ⟨indexes, -, h⟩ <;> rw [h]
      · rcases hrec _ _ s.db with h | ⟨indexes, hi, h⟩ <;> rw [h] at hr'
        · exact hidle r' hr' hs
        · exact completed_of_fenced hi (fun r hs => by cases hs) hr' hs
    | published hpc hin hlen hp =>
      refine .inr ⟨k, _, _, _, _, _, Table.mem_of_getElem? hk, by rw [hin]; rfl, hlen, hp, rfl, hpc, ?_⟩
      refine Table.filterMap_set_perm _ hk ?_ rfl
      rw [Indexes.publication_eq_none]
      rw [hpc]
      rintro _ _ _ ⟨⟩

end Outcome

namespace OutputInv
variable {env : Env} {now : Time} {a : Action} {s : Jobs} {w w' : World}

theorem empty (w : World) : OutputInv w Jobs.empty :=
  ⟨Job.Settled.nil, ⟨by simp [Jobs.empty, Db.empty], by simp [Jobs.empty, importPublications]⟩, Job.Settled.nil,
    ⟨by simp [Jobs.empty, Db.empty], by simp [Jobs.empty, indexPublications]⟩,
    ⟨by simp [Jobs.empty, Db.empty], by simp [Jobs.empty, indexPublications]⟩⟩

theorem mono (h : OutputInv w s) (hw : ∀ i ∈ w.issued, i ∈ w'.issued) : OutputInv w' s :=
  ⟨h.imports.mono hw, h.files, h.indexes.mono hw, h.symbols, h.chunks⟩

/-- Deleting a repository deletes its jobs with their output. -/
theorem delete_filter {π ο : Type} {t : List (Job π)} {out : List ο} {jobOf : ο → Uuid} (repositoryId : Uuid) :
    (out.filter fun o => jobOf o ∉ (t.filter fun r => !decide (r.repositoryId ≠ repositoryId)).map Job.id) =
      out.filter fun o => jobOf o ∉ (t.filter fun r => r.repositoryId = repositoryId).map Job.id := by
  simp only [ne_eq, decide_not, Bool.not_not]

theorem imports_step (env : Env) (now : Time) (h : OutputInv w s) (hi : Inv w s) (hf : ∀ i ∈ a.ids, i ∉ w.issued) :
    Job.Settled w Imports.Fits (step env now a s).db.imports (step env now a s).importPublications ∧
      Job.Output (·.importJobId) Imports.Rows (step env now a s).db.imports (step env now a s).importPublications
        (step env now a s).db.files := by
  have hch := imports_changes env now hi.imports hi.importClaims hf
  have hins : ∀ i ∈ (actor now a s).inserts, i ∉ w.issued := fun i hi =>
    hf i (fresh_subset now s i (List.mem_append_right _ hi))
  by_cases hk : a.kind = .imports
  · have hdel : a.deletes = false := by cases a <;> first | rfl | cases hk
    rcases import_outcome env now hi hf hk with
      ⟨hp, hfiles, hall⟩ | ⟨k, source, result, ids, db', hkm, -, hlen, hpub, hdb, hperm⟩
    · rw [hp, hfiles]
      exact ⟨h.imports.changes hi.imports hins hch hall, h.files.changes h.imports hi.imports hins hdel hch⟩
    · obtain ⟨imports, hfen, he⟩ := Imports.publishResult_eq hpub
      rw [hdb, he]
      have hfit : ∀ r ∈ s.db.imports, r.id = k.claim.jobId →
          Imports.Fits (k.claim, source, result) (Imports.counters result r.data) := fun _ _ _ => rfl
      refine ⟨(h.imports.publish hi.imports hfen hfit).perm hperm, ?_⟩
      refine (h.files.publish h.imports hi.imports hfen ?_ ⟨ids, hlen, rfl⟩).perm hperm
      intro o ho
      obtain ⟨x, -, y, -, rfl⟩ := Table.exists_of_mem_zipWith ho
      rfl
  · have hpubs : (step env now a s).importPublications = s.importPublications := by
      unfold importPublications
      rw [importWorkers_frame hk]
    rw [hpubs]
    cases hk' : a.kind with
    | imports => exact absurd hk' hk
    | indexes =>
      obtain ⟨-, himp, hfiles, -⟩ := frame_indexes env now s hk'
      rw [himp, hfiles]
      exact ⟨h.imports, h.files⟩
    | searches =>
      obtain ⟨-, himp, hfiles, -⟩ := frame_searches env now s hk'
      rw [himp, hfiles]
      exact ⟨h.imports, h.files⟩
    | removal =>
      cases a <;> try cases hk'
      case removal.removeRepository.refl userId repositoryId =>
        rcases removeRepository_cases s.db userId repositoryId with hr | hr <;> simp only [step, hr]
        · exact ⟨h.imports, h.files⟩
        · simp only [step, hr] at hch
          refine ⟨h.imports.changes hi.imports hins hch fun r' hr' hs => hch.completed_of rfl hr' hs, ?_⟩
          have := h.files.delete hi.imports (fun r => decide (r.repositoryId ≠ repositoryId))
          rwa [delete_filter] at this

theorem indexes_step (env : Env) (now : Time) (h : OutputInv w s) (hi : Inv w s) (hf : ∀ i ∈ a.ids, i ∉ w.issued) :
    Job.Settled w Indexes.Fits (step env now a s).db.indexes (step env now a s).indexPublications ∧
      Job.Output (·.indexId) Indexes.SymbolRows (step env now a s).db.indexes (step env now a s).indexPublications
        (step env now a s).db.symbols ∧
      Job.Output (·.indexId) Indexes.ChunkRows (step env now a s).db.indexes (step env now a s).indexPublications
        (step env now a s).db.chunks := by
  have hch := indexes_changes env now hi.indexes hf
  have hins : ∀ i ∈ (actor now a s).inserts, i ∉ w.issued := fun i hi =>
    hf i (fresh_subset now s i (List.mem_append_right _ hi))
  by_cases hk : a.kind = .indexes
  · have hdel : a.deletes = false := by cases a <;> first | rfl | cases hk
    rcases index_outcome env now hi hf hk with
      ⟨hp, hsym, hchunks, hall⟩ | ⟨k, source, built, n, ids, db', hkm, -, hlen, hpub, hdb, -, hperm⟩
    · rw [hp, hsym, hchunks]
      exact ⟨h.indexes.changes hi.indexes hins hch hall, h.symbols.changes h.indexes hi.indexes hins hdel hch,
        h.chunks.changes h.indexes hi.indexes hins hdel hch⟩
    · obtain ⟨indexes, hfen, he⟩ := Indexes.publishIndex_eq hpub
      rw [hdb, he]
      have hfit : ∀ r ∈ s.db.indexes, r.id = k.claim.jobId →
          Indexes.Fits (k.claim, source, built, n) (Indexes.counters built n r.data) :=
        fun _ _ _ => ⟨rfl, rfl, rfl, rfl, rfl⟩
      refine ⟨(h.indexes.publish hi.indexes hfen hfit).perm hperm, ?_, ?_⟩
      · refine (h.symbols.publish h.indexes hi.indexes hfen ?_ rfl).perm hperm
        intro o ho
        obtain ⟨x, -, rfl⟩ := List.mem_map.1 ho
        rfl
      · refine (h.chunks.publish h.indexes hi.indexes hfen ?_ ⟨ids, hlen, rfl⟩).perm hperm
        intro o ho
        obtain ⟨x, -, y, -, rfl⟩ := Table.exists_of_mem_zipWith ho
        rfl
  · have hpubs : (step env now a s).indexPublications = s.indexPublications := by
      unfold indexPublications
      rw [indexWorkers_frame hk]
    rw [hpubs]
    cases hk' : a.kind with
    | indexes => exact absurd hk' hk
    | imports =>
      obtain ⟨hidx, hsym, hchunks, -⟩ := frame_imports env now s hk'
      rw [hidx, hsym, hchunks]
      exact ⟨h.indexes, h.symbols, h.chunks⟩
    | searches =>
      obtain ⟨-, -, -, hidx, hsym, hchunks⟩ := frame_searches env now s hk'
      rw [hidx, hsym, hchunks]
      exact ⟨h.indexes, h.symbols, h.chunks⟩
    | removal =>
      cases a <;> try cases hk'
      case removal.removeRepository.refl userId repositoryId =>
        rcases removeRepository_cases s.db userId repositoryId with hr | hr <;> simp only [step, hr]
        · exact ⟨h.indexes, h.symbols, h.chunks⟩
        · simp only [step, hr] at hch
          have hsym := h.symbols.delete hi.indexes (fun r => decide (r.repositoryId ≠ repositoryId))
          have hchunks := h.chunks.delete hi.indexes (fun r => decide (r.repositoryId ≠ repositoryId))
          rw [delete_filter] at hsym hchunks
          exact ⟨h.indexes.changes hi.indexes hins hch fun r' hr' hs => hch.completed_of rfl hr' hs, hsym, hchunks⟩

/-- Every action keeps publications and outputs together. -/
theorem step (h : OutputInv w s) (hi : Inv w s) (hf : ∀ i ∈ a.ids, i ∉ w.issued) :
    OutputInv ⟨w.clock, w.issued ++ a.ids⟩ (Jobs.step env now a s) := by
  have hw : ∀ i ∈ w.issued, i ∈ w.issued ++ a.ids := fun i hi => List.mem_append_left _ hi
  obtain ⟨h1, h2⟩ := h.imports_step env now hi hf
  obtain ⟨h3, h4, h5⟩ := h.indexes_step env now hi hf
  exact ⟨h1.mono hw, h2, h3.mono hw, h4, h5⟩

end OutputInv
end Jobs
end RepoPilot
