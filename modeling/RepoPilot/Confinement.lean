import RepoPilot.Removal
import RepoPilot.Tenants

/-! # Whose work it is

A request works for its user, a worker for the owner of its job or run, and a dispatcher cycle for the
owners of the rows it writes to. A `Frame` is what an action leaves alone: the rows of a user it does not work for. -/

namespace RepoPilot

namespace Cycle

/-- The job the cycle publishes next. -/
def next : Cycle → Option Uuid
  | .publishing _ (id :: _) => some id
  | _ => none

/-- A step of the cycles writes to the job. -/
def Writes {π : Type} (now : Time) (cycles : List Cycle) (j : Job π) : Input → Prop
  | .expire => Job.LostWhere now j
  | .select _ => False
  | .publish i succeeded => succeeded = true ∧ (cycles[i]?).bind next = some j.id

instance {π : Type} (now : Time) (cycles : List Cycle) (j : Job π) : DecidablePred (Writes now cycles j)
  | .expire => inferInstanceAs (Decidable (Job.LostWhere now j))
  | .select _ => inferInstanceAs (Decidable False)
  | .publish i succeeded => inferInstanceAs (Decidable (succeeded = true ∧ (cycles[i]?).bind next = some j.id))

end Cycle

namespace Table
variable {α : Type} {t t' t'' u : List α} {q : α → Bool}

/-- The rows with `q` are the same. -/
def Same (q : α → Bool) (t t' : List α) : Prop := t'.filter q = t.filter q

theorem Same.refl (q : α → Bool) (t : List α) : Same q t t := Eq.refl _

theorem Same.trans (h : Same q t t') (h' : Same q t' t'') : Same q t t'' := Eq.trans h' h

theorem Same.update {p : α → Prop} [DecidablePred p] {f : α → α}
    (h : ∀ r ∈ t, p r → q r = false ∧ q (f r) = false) : Same q t (update p f t) := filter_update_of_false h

theorem Same.append (h : ∀ r ∈ u, q r = false) : Same q t (t ++ u) := by
  have hnone : u.filter q = [] := List.filter_eq_nil_iff.2 fun r hr => by rw [h r hr]; exact Bool.false_ne_true
  show (t ++ u).filter q = t.filter q
  rw [List.filter_append, hnone, List.append_nil]

theorem Same.delete {p : α → Bool} (h : ∀ r ∈ t, q r = true → p r = true) : Same q t (t.filter p) := by
  show (t.filter p).filter q = t.filter q
  exact filter_within h

end Table

/-! ### The tables of the job system -/

namespace Db
variable {db db' : Db} {userId other repositoryId jobId : Uuid}

/-- The rows of the user are the same. -/
structure Frame (userId : Uuid) (db db' : Db) : Prop where
  repositories : Table.Same (·.userId = userId) db.repositories db'.repositories
  imports : Table.Same (·.repositoryId ∈ (db.own userId).repositories.map (·.id)) db.imports db'.imports
  files : Table.Same (·.importJobId ∈ (db.own userId).imports.map (·.id)) db.files db'.files
  indexes : Table.Same (·.repositoryId ∈ (db.own userId).repositories.map (·.id)) db.indexes db'.indexes
  symbols : Table.Same (·.indexId ∈ (db.own userId).indexes.map (·.id)) db.symbols db'.symbols
  chunks : Table.Same (·.indexId ∈ (db.own userId).indexes.map (·.id)) db.chunks db'.chunks
  searches : Table.Same (·.repositoryId ∈ (db.own userId).repositories.map (·.id)) db.searches db'.searches
  documents : Table.Same (·.searchIndexId ∈ (db.own userId).searches.map (·.id)) db.documents db'.documents

theorem Frame.refl (userId : Uuid) (db : Db) : Frame userId db db :=
  ⟨.refl _ _, .refl _ _, .refl _ _, .refl _ _, .refl _ _, .refl _ _, .refl _ _, .refl _ _⟩

theorem Frame.own (h : Frame userId db db') : db'.own userId = db.own userId := by
  have hrepositories : (db'.own userId).repositories = (db.own userId).repositories := h.repositories
  have himports : (db'.own userId).imports = (db.own userId).imports := by
    show db'.imports.filter (·.repositoryId ∈ (db'.own userId).repositories.map (·.id)) = _
    rw [hrepositories]
    exact h.imports
  have hindexes : (db'.own userId).indexes = (db.own userId).indexes := by
    show db'.indexes.filter (·.repositoryId ∈ (db'.own userId).repositories.map (·.id)) = _
    rw [hrepositories]
    exact h.indexes
  have hsearches : (db'.own userId).searches = (db.own userId).searches := by
    show db'.searches.filter (·.repositoryId ∈ (db'.own userId).repositories.map (·.id)) = _
    rw [hrepositories]
    exact h.searches
  have hfiles : (db'.own userId).files = (db.own userId).files := by
    show db'.files.filter (·.importJobId ∈ (db'.own userId).imports.map (·.id)) = _
    rw [himports]
    exact h.files
  have hsymbols : (db'.own userId).symbols = (db.own userId).symbols := by
    show db'.symbols.filter (·.indexId ∈ (db'.own userId).indexes.map (·.id)) = _
    rw [hindexes]
    exact h.symbols
  have hchunks : (db'.own userId).chunks = (db.own userId).chunks := by
    show db'.chunks.filter (·.indexId ∈ (db'.own userId).indexes.map (·.id)) = _
    rw [hindexes]
    exact h.chunks
  have hdocuments : (db'.own userId).documents = (db.own userId).documents := by
    show db'.documents.filter (·.searchIndexId ∈ (db'.own userId).searches.map (·.id)) = _
    rw [hsearches]
    exact h.documents
  show Db.mk _ _ _ _ _ _ _ _ = Db.mk _ _ _ _ _ _ _ _
  rw [Db.mk.injEq]
  exact ⟨hrepositories, himports, hfiles, hindexes, hsymbols, hchunks, hsearches, hdocuments⟩

/-- A repository has one owner. -/
theorem Owns.ne (hs : db.Schema) (ho : db.Owns other repositoryId) (hne : other ≠ userId) :
    ¬ db.Owns userId repositoryId := by
  obtain ⟨r, hr, hid, hu⟩ := ho
  rintro ⟨r', hr', hid', hu'⟩
  cases hs.repositoryKeys.eq hr hr' (hid.trans hid'.symm)
  exact hne (hu.symm.trans hu')

/-- The repository is not the user's. -/
theorem not_own (h : ¬ db.Owns userId repositoryId) :
    decide (repositoryId ∈ (db.own userId).repositories.map (·.id)) = false :=
  decide_eq_false fun hm => h (mem_own_repositories.1 hm)

section Jobs
variable {π : Type} {t t' : List (Job π)}

/-- An update of jobs of other repositories. -/
theorem same_update {p : Job π → Prop} [DecidablePred p] {f : Job π → Job π}
    (hp : ∀ j ∈ t, p j → ¬ db.Owns userId j.repositoryId) (hf : ∀ j, (f j).repositoryId = j.repositoryId) :
    Table.Same (·.repositoryId ∈ (db.own userId).repositories.map (·.id)) t (Table.update p f t) :=
  .update fun j hj hpj => ⟨not_own (hp j hj hpj), by rw [hf j]; exact not_own (hp j hj hpj)⟩

theorem same_insert {j : Job π} (h : Job.insert t j = some t') (hj : ¬ db.Owns userId j.repositoryId) :
    Table.Same (·.repositoryId ∈ (db.own userId).repositories.map (·.id)) t t' := by
  unfold Job.insert at h
  split at h
  · cases h
  · cases h
    refine .append fun r hr => ?_
    rw [List.mem_singleton.1 hr]
    exact not_own hj

/-- A new job of another repository that supersedes jobs of other repositories. -/
theorem same_supersede {p : Job π → Prop} [DecidablePred p] {j : Job π}
    (h : Job.insert (Table.update p Job.superseded t) j = some t') (hj : ¬ db.Owns userId j.repositoryId)
    (hp : ∀ j ∈ t, p j → ¬ db.Owns userId j.repositoryId) :
    Table.Same (·.repositoryId ∈ (db.own userId).repositories.map (·.id)) t t' :=
  .trans (same_update (f := Job.superseded) hp fun _ => rfl) (same_insert h hj)

/-- A dispatcher cycle that writes to jobs of other repositories. -/
theorem same_cycle {now : Time} {input : Cycle.Input} {cycles : List Cycle}
    (h : ∀ j ∈ t, Cycle.Writes now cycles j input → ¬ db.Owns userId j.repositoryId) :
    Table.Same (·.repositoryId ∈ (db.own userId).repositories.map (·.id)) t (Cycle.step now input t cycles).1 := by
  cases input with
  | expire => exact same_update h fun _ => rfl
  | select i =>
    simp only [Cycle.step]
    split <;> exact .refl _ _
  | publish i succeeded =>
    simp only [Cycle.step]
    split
    · rename_i start id ids hc
      cases succeeded with
      | false => exact .refl _ _
      | true =>
        refine same_update (fun j hj hid => h j hj ⟨rfl, ?_⟩) fun _ => rfl
        rw [hc, hid]
        rfl
    · exact .refl _ _

/-- The identifiers of jobs of two repositories. -/
theorem not_mem_gone (hk : Table.Keyed Job.id t) (hnot : ¬ db.Owns userId repositoryId)
    {id : Uuid} (h : id ∈ (t.filter (·.repositoryId ∈ (db.own userId).repositories.map (·.id))).map Job.id) :
    id ∉ (t.filter (·.repositoryId = repositoryId)).map Job.id := by
  intro hg
  obtain ⟨j, hj, rfl⟩ := List.mem_map.1 h
  obtain ⟨hj, ho⟩ := List.mem_filter.1 hj
  obtain ⟨j', hj', hid⟩ := List.mem_map.1 hg
  obtain ⟨hj', hr⟩ := List.mem_filter.1 hj'
  cases hk.eq hj' hj hid
  refine hnot ?_
  rw [← of_decide_eq_true hr]
  exact mem_own_repositories.1 (of_decide_eq_true ho)

variable {now : Time} {claim : Claim} (hc : ∀ j ∈ t, j.id = claim.jobId → ¬ db.Owns userId j.repositoryId)
include hc

theorem same_fencedIf {guard : Job π → Prop} [DecidablePred guard] {f : Job π → Job π}
    (hf : ∀ j, (f j).repositoryId = j.repositoryId) (h : Job.fencedIf now claim guard f t = some t') :
    Table.Same (·.repositoryId ∈ (db.own userId).repositories.map (·.id)) t t' := by
  unfold Job.fencedIf at h
  split at h
  · cases h
    exact same_update (fun j hj hp => hc j hj hp.1.1) hf
  · cases h

theorem same_reportStage {stage : String} (h : Job.reportStage now claim stage t = some t') :
    Table.Same (·.repositoryId ∈ (db.own userId).repositories.map (·.id)) t t' :=
  same_fencedIf (f := fun r => { r with stage := stage }) hc (fun _ => rfl) h

end Jobs

/-! ### Requests of another user -/

section Requests
variable {now : Time} {limit : Option AppError} (hs : db.Schema) (hne : other ≠ userId)
include hne

theorem frame_create {source : Except AppError (Text × Text)} {p : Db × Repository × ImportJob}
    (hnew : ∀ r ∈ db.repositories, r.id ≠ repositoryId)
    (h : Imports.create now other source limit repositoryId jobId db = .ok p) : Frame userId db p.1 := by
  obtain ⟨imports, he, hid, hu, hi⟩ := Imports.create_eq h
  rw [he]
  refine { Frame.refl userId db with repositories := .append fun r hr => ?_, imports := same_insert hi ?_ }
  · rw [List.mem_singleton.1 hr, hu]
    exact decide_eq_false hne
  · rintro ⟨r, hr, hrid, -⟩
    exact hnew r hr hrid

include hs

theorem frame_retry {p : Db × Repository × ImportJob}
    (h : Imports.retry now other repositoryId limit jobId db = .ok p) : Frame userId db p.1 := by
  obtain ⟨imports, old, repository, he, ho, hi⟩ := Imports.retry_eq h
  obtain ⟨-, hid, -, hold, hrid, -⟩ := owned_eq ho
  have hnot : ¬ db.Owns userId repositoryId := Owns.ne hs (owns_of_owned ho) hne
  rw [he]
  refine { Frame.refl userId db with imports := same_supersede hi (hid ▸ hnot) fun j hj hp => ?_ }
  cases hs.importKeys.eq hj hold hp.1
  rw [hrid]
  exact hnot

theorem frame_cancelImport (h : Imports.cancel now other repositoryId db = .ok db') : Frame userId db db' := by
  obtain ⟨repository, job, ho, rfl⟩ := Imports.cancel_eq h
  obtain ⟨-, -, -, hold, hrid, -⟩ := owned_eq ho
  refine { Frame.refl userId db with imports := same_update (fun j hj hp => ?_) fun _ => rfl }
  cases hs.importKeys.eq hj hold hp.1
  rw [hrid]
  exact Owns.ne hs (owns_of_owned ho) hne

theorem frame_startIndex {p : Db × RepositoryIndex × Bool}
    (h : Indexes.start now other repositoryId limit jobId db = .ok p) : Frame userId db p.1 := by
  rcases Indexes.start_eq h with he | ⟨repository, imported, commitSha, indexes, ho, -, -, -, hi, he⟩ <;> rw [he]
  · exact .refl userId db
  have hnot : ¬ db.Owns userId repositoryId := Owns.ne hs (owns_of_owned ho) hne
  refine { Frame.refl userId db with indexes := same_supersede hi hnot fun i hm hp => ?_ }
  obtain ⟨l, hl, hil⟩ := hp
  obtain ⟨hlm, hlr, -⟩ := latestIndex_eq hl
  cases hs.indexKeys.eq hm hlm hil
  rw [hlr]
  exact hnot

theorem frame_cancelIndex (h : Indexes.cancel now other repositoryId db = .ok db') : Frame userId db db' := by
  obtain ⟨repository, source, ho, rfl⟩ := Indexes.cancel_eq h
  refine { Frame.refl userId db with indexes := same_update (fun i _ hp => ?_) fun _ => rfl }
  rw [hp.1]
  exact Owns.ne hs (owns_of_owned ho) hne

theorem frame_startSearch {settings : Settings} {mode : Mode} {p : Db × SearchIndex × Bool}
    (h : Searches.start now settings other repositoryId mode limit jobId db = .ok p) : Frame userId db p.1 := by
  rcases Searches.start_eq h with he | ⟨index, hsource, -, -, ⟨l, hl, -, he⟩ | ⟨searches, hi, he⟩⟩ <;> rw [he]
  · exact .refl userId db
  all_goals
    obtain ⟨repository, imported, ho, -⟩ := Searches.source_eq hsource
    have hnot : ¬ db.Owns userId repositoryId := Owns.ne hs (owns_of_owned ho) hne
  · refine { Frame.refl userId db with searches := same_update (fun x hm hp => ?_) fun _ => rfl }
    obtain ⟨hlm, hlr, -⟩ := latestSearch_eq hl
    cases hs.searchKeys.eq hm hlm hp
    rw [hlr]
    exact hnot
  · refine { Frame.refl userId db with searches := same_supersede hi hnot fun x hm hp => ?_ }
    obtain ⟨l, hl, hxl⟩ := hp
    obtain ⟨hlm, hlr, -⟩ := latestSearch_eq hl
    cases hs.searchKeys.eq hm hlm hxl
    rw [hlr]
    exact hnot

theorem frame_cancelSearch (h : Searches.cancel now other repositoryId db = .ok db') : Frame userId db db' := by
  obtain ⟨⟨p, ho⟩, rfl⟩ := Searches.cancel_eq h
  refine { Frame.refl userId db with searches := same_update (fun x _ hp => ?_) fun _ => rfl }
  rw [hp.1]
  exact Owns.ne hs (owns_of_owned ho) hne

theorem frame_remove : Frame userId db (db.removeRepository other repositoryId) := by
  unfold removeRepository
  split
  swap
  · exact .refl userId db
  rename_i ho
  have hnot : ¬ db.Owns userId repositoryId := Owns.ne hs (owns_of_owned ho) hne
  have hkept : ∀ {id : Uuid}, id ∈ (db.own userId).repositories.map (·.id) → decide (id ≠ repositoryId) = true := by
    refine fun hm => decide_eq_true fun he => hnot ?_
    rw [← he]
    exact mem_own_repositories.1 hm
  refine ⟨.delete fun r hr hu => decide_eq_true fun he => hnot ⟨r, hr, he, of_decide_eq_true hu⟩,
    .delete fun j _ hj => hkept (of_decide_eq_true hj), .delete fun f _ hf => ?_,
    .delete fun i _ hi => hkept (of_decide_eq_true hi), .delete fun y _ hy => ?_, .delete fun c _ hc => ?_,
    .delete fun x _ hx => hkept (of_decide_eq_true hx), .delete fun d _ hd => ?_⟩
  · exact decide_eq_true (not_mem_gone hs.importKeys hnot (of_decide_eq_true hf))
  · exact decide_eq_true (not_mem_gone hs.indexKeys hnot (of_decide_eq_true hy))
  · exact decide_eq_true (not_mem_gone hs.indexKeys hnot (of_decide_eq_true hc))
  · exact decide_eq_true (not_mem_gone hs.searchKeys hnot (of_decide_eq_true hd))

end Requests

/-! ### Deliveries and steps of other users' workers -/

section Workers
variable {now : Time} {claim : Claim}

theorem foreign_import (h : jobId ∉ (db.own userId).imports.map (·.id)) :
    ∀ j ∈ db.imports, j.id = jobId → ¬ db.Owns userId j.repositoryId :=
  fun _ hj hid ho => h (hid ▸ mem_own_imports hj ho)

theorem foreign_index (h : jobId ∉ (db.own userId).indexes.map (·.id)) :
    ∀ i ∈ db.indexes, i.id = jobId → ¬ db.Owns userId i.repositoryId :=
  fun _ hi hid ho => h (hid ▸ mem_own_indexes hi ho)

theorem foreign_search (h : jobId ∉ (db.own userId).searches.map (·.id)) :
    ∀ x ∈ db.searches, x.id = jobId → ¬ db.Owns userId x.repositoryId :=
  fun _ hx hid ho => h (hid ▸ mem_own_searches hx ho)

theorem same_claimJob {π : Type} {t : List (Job π)} {token : Uuid} {p : List (Job π) × Claim}
    (hj : ∀ j ∈ t, j.id = jobId → ¬ db.Owns userId j.repositoryId)
    (h : Job.claimJob now db.repositories jobId token t = some p) :
    Table.Same (·.repositoryId ∈ (db.own userId).repositories.map (·.id)) t p.1 := by
  obtain ⟨r, -, -, -, he, -⟩ := Job.claimJob_eq h
  rw [he]
  exact same_update (fun j hm hp => hj j hm hp.1) fun _ => rfl

theorem frame_importStep {w : World} {input : Imports.Input} {pc pc' : Imports.Pc}
    (h : Imports.Effect now claim input pc db pc' db') (hg : Job.Granted w db.imports claim)
    (hc : claim.jobId ∉ (db.own userId).imports.map (·.id)) : Frame userId db db' := by
  have hj := foreign_import hc
  cases h with
  | idle => exact .refl userId db
  | advanced pc' hpc h => exact .refl userId db
  | reported pc' hpc h hr => exact { Frame.refl userId db with imports := same_reportStage hj hr }
  | @published source result ids _ hpc hin hlen hp =>
    obtain ⟨imports, hi, rfl⟩ := Imports.publishResult_eq hp
    obtain ⟨⟨q, hq, hlease, -⟩, -⟩ := Job.fencedIf_isSome hi
    have hnot : ¬ db.Owns userId claim.repositoryId := by
      rw [← (hg.row q hq hlease.1 hlease.2.2.1).2]
      exact hj q hq hlease.1
    refine { Frame.refl userId db with
      repositories := .update fun r hr hid => ?_
      imports := same_fencedIf (f := Job.finished now (Imports.counters result)) hj (fun _ => rfl) hi
      files := .append fun f hf => ?_ }
    · have hu : r.userId ≠ userId := fun hu => hnot ⟨r, hr, hid, hu⟩
      exact ⟨decide_eq_false hu, decide_eq_false hu⟩
    · obtain ⟨id, -, x, -, rfl⟩ := Table.exists_of_mem_zipWith hf
      exact decide_eq_false hc
  | failed failure hpc =>
    rcases Imports.recordFailure_eq now claim failure db with h | ⟨imports, h, ⟨-, -, hi⟩ | hi⟩ <;> rw [h]
    · exact .refl userId db
    · exact { Frame.refl userId db with
        imports := same_fencedIf (f := Imports.retryWait now claim failure) hj (fun _ => rfl) hi }
    · exact { Frame.refl userId db with
        imports := same_fencedIf (f := Imports.failedForGood now claim failure) hj (fun _ => rfl) hi }

theorem frame_indexStep {env : Env} {input : Indexes.Input} {pc pc' : Indexes.Pc}
    (h : Indexes.Effect env now claim input pc db pc' db') (hc : claim.jobId ∉ (db.own userId).indexes.map (·.id)) :
    Frame userId db db' := by
  have hj := foreign_index hc
  cases h with
  | parsing hpc hr => exact { Frame.refl userId db with indexes := same_reportStage hj hr }
  | storing hpc hr => exact { Frame.refl userId db with indexes := same_reportStage hj hr }
  | @published source built n ids _ hpc hin hlen hp =>
    obtain ⟨indexes, hi, rfl⟩ := Indexes.publishIndex_eq hp
    refine { Frame.refl userId db with
      indexes := same_fencedIf (f := Job.finished now (Indexes.counters built n)) hj (fun _ => rfl) hi
      symbols := .append fun y hy => ?_
      chunks := .append fun c hm => ?_ }
    · obtain ⟨x, -, rfl⟩ := List.mem_map.1 hy
      exact decide_eq_false hc
    · obtain ⟨id, -, x, -, rfl⟩ := Table.exists_of_mem_zipWith hm
      exact decide_eq_false hc
  | @failed code message hpc =>
    rcases Indexes.recordFailure_eq now claim code message db with h | ⟨indexes, hi, h⟩ <;> rw [h]
    · exact .refl userId db
    · exact { Frame.refl userId db with
        indexes := same_fencedIf (f := Job.failedWith now code message) hj (fun _ => rfl) hi }
  | _ => exact .refl userId db

theorem frame_searchStep {env : Env} {provider : Option EmbeddingProvider} {input : Searches.Input}
    {pc pc' : Searches.Pc} (h : Searches.Effect env now claim provider input pc db pc' db')
    (hc : claim.jobId ∉ (db.own userId).searches.map (·.id)) : Frame userId db db' := by
  have hj := foreign_search hc
  cases h with
  | reported hpc hr => exact { Frame.refl userId db with searches := same_reportStage hj hr }
  | reserved hpc hr =>
    obtain ⟨searches, hi, rfl⟩ := Searches.reserve_eq hr
    exact { Frame.refl userId db with
      searches := same_fencedIf (f := Searches.addReserved _) hj (fun _ => rfl) hi }
  | @stored plan pending vectors usage _ hpc hs =>
    obtain ⟨searches, hi, rfl⟩ := Searches.checkpoint_eq hs
    refine { Frame.refl userId db with
      searches := same_fencedIf (f := Searches.addStored _ usage) hj (fun _ => rfl) hi
      documents := .append fun d hd => ?_ }
    obtain ⟨x, -, y, -, rfl⟩ := Table.exists_of_mem_zipWith hd
    exact decide_eq_false hc
  | completed hpc hs =>
    obtain ⟨searches, hi, rfl⟩ := Searches.complete_eq hs
    exact { Frame.refl userId db with
      searches := same_fencedIf (f := Job.finished now id) hj (fun _ => rfl) hi }
  | @failed code message hpc =>
    rcases Searches.recordFailure_eq now claim code message db with h | ⟨searches, hi, h⟩ <;> rw [h]
    · exact .refl userId db
    · exact { Frame.refl userId db with
        searches := same_fencedIf (f := Job.failedWith now code message) hj (fun _ => rfl) hi }
  | _ => exact .refl userId db

end Workers
end Db

namespace Jobs
variable {env : Env} {now : Time} {s : Jobs} {w : World} {userId : Uuid}

/-- The user the action works for, or one of the users. -/
def Serves (s : Jobs) (now : Time) (userId : Uuid) : Action → Prop
  | .createImport other _ _ _ _ | .retryImport other _ _ _ | .cancelImport other _ | .startIndex other _ _ _
  | .cancelIndex other _ | .startSearch _ other _ _ _ _ | .cancelSearch other _ | .removeRepository other _ =>
    other = userId
  | .claimImport jobId _ => jobId ∈ (s.db.own userId).imports.map (·.id)
  | .importStep i _ => ∃ k ∈ s.importWorkers[i]?, k.claim.jobId ∈ (s.db.own userId).imports.map (·.id)
  | .claimIndex jobId _ => jobId ∈ (s.db.own userId).indexes.map (·.id)
  | .indexStep i _ => ∃ k ∈ s.indexWorkers[i]?, k.claim.jobId ∈ (s.db.own userId).indexes.map (·.id)
  | .claimSearch jobId _ _ => jobId ∈ (s.db.own userId).searches.map (·.id)
  | .searchStep i _ => ∃ k ∈ s.searchWorkers[i]?, k.claim.jobId ∈ (s.db.own userId).searches.map (·.id)
  | .importCycle input => ∃ j ∈ (s.db.own userId).imports, Cycle.Writes now s.importCycles j input
  | .indexCycle input => ∃ i ∈ (s.db.own userId).indexes, Cycle.Writes now s.indexCycles i input
  | .searchCycle input => ∃ x ∈ (s.db.own userId).searches, Cycle.Writes now s.searchCycles x input

instance (s : Jobs) (now : Time) (userId : Uuid) : DecidablePred (s.Serves now userId)
  | .createImport other _ _ _ _ | .retryImport other _ _ _ | .cancelImport other _ | .startIndex other _ _ _
  | .cancelIndex other _ | .startSearch _ other _ _ _ _ | .cancelSearch other _ | .removeRepository other _ =>
    inferInstanceAs (Decidable (other = userId))
  | .claimImport jobId _ => inferInstanceAs (Decidable (jobId ∈ (s.db.own userId).imports.map (·.id)))
  | .importStep i _ =>
    inferInstanceAs (Decidable (∃ k ∈ s.importWorkers[i]?, k.claim.jobId ∈ (s.db.own userId).imports.map (·.id)))
  | .claimIndex jobId _ => inferInstanceAs (Decidable (jobId ∈ (s.db.own userId).indexes.map (·.id)))
  | .indexStep i _ =>
    inferInstanceAs (Decidable (∃ k ∈ s.indexWorkers[i]?, k.claim.jobId ∈ (s.db.own userId).indexes.map (·.id)))
  | .claimSearch jobId _ _ => inferInstanceAs (Decidable (jobId ∈ (s.db.own userId).searches.map (·.id)))
  | .searchStep i _ =>
    inferInstanceAs (Decidable (∃ k ∈ s.searchWorkers[i]?, k.claim.jobId ∈ (s.db.own userId).searches.map (·.id)))
  | .importCycle input =>
    inferInstanceAs (Decidable (∃ j ∈ (s.db.own userId).imports, Cycle.Writes now s.importCycles j input))
  | .indexCycle input =>
    inferInstanceAs (Decidable (∃ i ∈ (s.db.own userId).indexes, Cycle.Writes now s.indexCycles i input))
  | .searchCycle input =>
    inferInstanceAs (Decidable (∃ x ∈ (s.db.own userId).searches, Cycle.Writes now s.searchCycles x input))

theorem frame_committed {α : Type} {result : Except Raised (Db × α)}
    (h : ∀ p, result = .ok p → Db.Frame userId s.db p.1) : Db.Frame userId s.db (committed s.db result) := by
  rcases committed_cases s.db result with he | ⟨p, hp, he⟩ <;> rw [he]
  · exact .refl userId s.db
  · exact h p hp

theorem frame_committed_map {result : Except Raised Db} (h : ∀ db', result = .ok db' → Db.Frame userId s.db db') :
    Db.Frame userId s.db (committed s.db (result.map (·, ()))) := by
  rcases committed_map_cases s.db result with he | ⟨db', hp, he⟩ <;> rw [he]
  · exact .refl userId s.db
  · exact h db' hp

/-- An action that does not work for the user leaves the user's rows alone. -/
theorem frame_step (env : Env) (now : Time) (hs : s.db.Schema) (hi : Inv w s)
    (hissued : ∀ r ∈ s.db.repositories, r.id ∈ w.issued) {a : Action} (hf : ∀ i ∈ a.ids, i ∉ w.issued)
    (ha : ¬ s.Serves now userId a) : Db.Frame userId s.db (step env now a s).db := by
  cases a with
  | createImport other source limit repositoryId jobId =>
    have hnew : ∀ r ∈ s.db.repositories, r.id ≠ repositoryId := fun r hr he =>
      hf repositoryId List.mem_cons_self (he ▸ hissued r hr)
    exact frame_committed fun p hp => Db.frame_create ha hnew hp
  | retryImport other repositoryId limit jobId => exact frame_committed fun p hp => Db.frame_retry hs ha hp
  | cancelImport other repositoryId => exact frame_committed_map fun db' hp => Db.frame_cancelImport hs ha hp
  | startIndex other repositoryId limit jobId => exact frame_committed fun p hp => Db.frame_startIndex hs ha hp
  | cancelIndex other repositoryId => exact frame_committed_map fun db' hp => Db.frame_cancelIndex hs ha hp
  | startSearch settings other repositoryId mode limit jobId =>
    exact frame_committed fun p hp => Db.frame_startSearch hs ha hp
  | cancelSearch other repositoryId => exact frame_committed_map fun db' hp => Db.frame_cancelSearch hs ha hp
  | removeRepository other repositoryId => exact Db.frame_remove hs ha
  | importCycle input =>
    refine { Db.Frame.refl userId s.db with imports := Db.same_cycle fun j hj hw ho => ha ⟨j, ?_, hw⟩ }
    exact List.mem_filter.2 ⟨hj, decide_eq_true (Db.mem_own_repositories.2 ho)⟩
  | indexCycle input =>
    refine { Db.Frame.refl userId s.db with indexes := Db.same_cycle fun i hi hw ho => ha ⟨i, ?_, hw⟩ }
    exact List.mem_filter.2 ⟨hi, decide_eq_true (Db.mem_own_repositories.2 ho)⟩
  | searchCycle input =>
    refine { Db.Frame.refl userId s.db with searches := Db.same_cycle fun x hx hw ho => ha ⟨x, ?_, hw⟩ }
    exact List.mem_filter.2 ⟨hx, decide_eq_true (Db.mem_own_repositories.2 ho)⟩
  | claimImport jobId token =>
    simp only [step, claimImport]
    split
    · exact { Db.Frame.refl userId s.db with imports := Db.same_claimJob (Db.foreign_import ha) ‹_› }
    · exact .refl userId s.db
  | claimIndex jobId token =>
    simp only [step, claimIndex]
    split
    · exact { Db.Frame.refl userId s.db with indexes := Db.same_claimJob (Db.foreign_index ha) ‹_› }
    · exact .refl userId s.db
  | claimSearch jobId token provider =>
    simp only [step, claimSearch]
    split
    · exact { Db.Frame.refl userId s.db with searches := Db.same_claimJob (Db.foreign_search ha) ‹_› }
    · exact .refl userId s.db
  | importStep i input =>
    simp only [step, importStep]
    split
    · rename_i k hk
      exact Db.frame_importStep (Imports.step_effect now k.claim input k.pc s.db)
        (hi.importClaims k (Table.mem_of_getElem? hk)) fun hm => ha ⟨k, hk, hm⟩
    · exact .refl userId s.db
  | indexStep i input =>
    simp only [step, indexStep]
    split
    · rename_i k hk
      exact Db.frame_indexStep (Indexes.step_effect env now k.claim input k.pc s.db) fun hm => ha ⟨k, hk, hm⟩
    · exact .refl userId s.db
  | searchStep i input =>
    simp only [step, searchStep]
    split
    · rename_i k hk
      exact Db.frame_searchStep (Searches.step_effect env now k.claim k.provider input k.pc s.db)
        fun hm => ha ⟨k, hk, hm⟩
    · exact .refl userId s.db

end Jobs
end RepoPilot
