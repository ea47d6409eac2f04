import RepoPilot.Integrity
import RepoPilot.Readiness

/-! # A snapshot never changes

Once an import has completed, it stays the current import of its repository, and nothing writes the row of the
repository, the files of the import or its commit again: everything that is built from the repository is built
from this one snapshot, until the repository is removed. -/

namespace RepoPilot

/-- Who holds no lease completes no job. -/
theorem Job.Changes.all_completed_of {π : Type} [JobData π] {a : Actor} {t t' : List (Job π)} (hc : Job.Changes a t t')
    (ha : a.token = none) : ∀ r' ∈ t', r'.status = .completed → ∃ r ∈ t, r.id = r'.id ∧ r.status = .completed :=
  fun _ hr hs => hc.completed_of ha hr hs

namespace Jobs
variable {env : Env} {now : Time} {a : Action} {s : Jobs} {w : World}

/-- What an action on imports does to repositories, imports and files: bookkeeping that completes no import, or
the publication of one result. -/
inductive ImportChange (now : Time) (ids : List Uuid) (db : Db) : Db → Prop
  | kept {repositories : List Repository} {imports : List ImportJob}
    (hr : repositories = db.repositories ∨ ∃ r, r.id ∈ ids ∧ repositories = db.repositories ++ [r])
    (ht : Job.Tended Job.Redispatched (fun _ => True) now ids db.imports imports)
    (hc : ∀ j' ∈ imports, j'.status = .completed → ∃ j ∈ db.imports, j.id = j'.id ∧ j.status = .completed) :
    ImportChange now ids db { db with repositories := repositories, imports := imports }
  | published {claim : Claim} {source : RepositorySource} {result : ArchiveResult} {fileIds : List Uuid}
    {imports : List ImportJob} (hg : ∀ j ∈ db.imports, Job.LeaseCondition now claim j → j.repositoryId = claim.repositoryId)
    (hf : Job.fenced now claim (Job.finished now (Imports.counters result)) db.imports = some imports) :
    ImportChange now ids db { db with
      imports := imports
      files := db.files ++ List.zipWith (Imports.fileRow claim) fileIds result.files
      repositories := Table.update (·.id = claim.repositoryId) (Imports.stored source now) db.repositories }

theorem ImportChange.same {ids : List Uuid} {db : Db} : ImportChange now ids db db :=
  have hC : ∀ r : ImportJob, Job.Redispatched r r := fun _ => rfl
  @ImportChange.kept now ids db db.repositories db.imports (.inl rfl) (.refl hC _) fun j hj hs => ⟨j, hj, rfl, hs⟩

/-- An action that writes only imports. -/
theorem ImportChange.tended {ids : List Uuid} {db : Db} {imports : List ImportJob}
    (ht : Job.Tended Job.Redispatched (fun _ => True) now ids db.imports imports)
    (hc : ∀ j' ∈ imports, j'.status = .completed → ∃ j ∈ db.imports, j.id = j'.id ∧ j.status = .completed) :
    ImportChange now ids db { db with imports := imports } :=
  .kept (.inl rfl) ht hc

/-- The step of an import worker. -/
theorem ImportChange.worker {ids : List Uuid} {claim : Claim} {input : Imports.Input} {pc pc' : Imports.Pc} {db db' : Db}
    (hg : Job.Good w db.imports) (hc : Job.Granted w db.imports claim)
    (he : Imports.Effect now claim input pc db pc' db') : ImportChange now ids db db' := by
  have hC : ∀ r : ImportJob, Job.Redispatched r r := fun _ => rfl
  cases he with
  | idle => exact .same
  | advanced => exact .same
  | reported _ _ _ hr =>
    have hf := hr
    unfold Job.reportStage at hf
    exact .tended (.reportStage hC hg.rows hr) fun j' hj' hs => completed_of_fenced hf (fun _ hs => hs) hj' hs
  | published _ _ _ hp =>
    obtain ⟨imports, hf, rfl⟩ := Imports.publishResult_eq hp
    exact .published (fun j hj hl => (hc.row j hj hl.1 hl.2.2.1).2) hf
  | failed failure _ =>
    rcases Imports.recordFailure_eq now claim failure db with h | ⟨imports, h, ⟨-, hlt, hf⟩ | hf⟩ <;> rw [h]
    · exact .same
    · refine .tended (.fencedIf hC hg.rows (fun r hr hl _ => Imports.moves_retryWait hl ?_) hf) fun j' hj' hs =>
        completed_of_fenced hf (fun r hs => by cases hs) hj' hs
      rw [(hc.row r hr hl.1 hl.2.2.1).1]
      exact hlt
    · exact .tended (.fencedIf hC hg.rows (fun r _ hl _ => Imports.moves_failedForGood hl) hf) fun j' hj' hs =>
        completed_of_fenced hf (fun r hs => by cases hs) hj' hs

theorem importChange (env : Env) (now : Time) (hi : Inv w s) (hf : ∀ i ∈ a.ids, i ∉ w.issued) (hk : a.kind = .imports) :
    ImportChange now a.ids s.db (step env now a s).db := by
  have hC : ∀ r : ImportJob, Job.Redispatched r r := fun _ => rfl
  have hg := hi.imports
  have hch := imports_changes env now hi.imports hi.importClaims hf
  cases a <;> try cases hk
  case createImport.refl userId source limit repositoryId jobId =>
    have hdone := hch.all_completed_of rfl
    rcases committed_cases s.db (Imports.create now userId source limit repositoryId jobId s.db) with h | ⟨p, hp, h⟩
    · simp only [step, h]
      exact .same
    · obtain ⟨imports, he, hid, -, hins⟩ := Imports.create_eq hp
      simp only [step, h, he] at hdone ⊢
      refine .kept (.inr ⟨p.2.1, by simp [Action.ids, hid], rfl⟩) ?_ hdone
      rw [Job.insert_eq hins]
      exact (Job.Tended.refl hC _).add ⟨by simp [Action.ids, Job.new], rfl, rfl, trivial⟩
  case retryImport.refl userId repositoryId limit jobId =>
    have hdone := hch.all_completed_of rfl
    rcases committed_cases s.db (Imports.retry now userId repositoryId limit jobId s.db) with h | ⟨p, hp, h⟩
    · simp only [step, h]
      exact .same
    · obtain ⟨imports, old, repository, he, -, hins⟩ := Imports.retry_eq hp
      simp only [step, h, he] at hdone ⊢
      refine .tended ?_ hdone
      rw [Job.insert_eq hins]
      have hsup : Job.Tended Job.Redispatched (fun _ => True) now (Action.retryImport userId repositoryId limit jobId).ids
          s.db.imports (Table.update (Imports.RetryWhere old.id) Job.superseded s.db.imports) := by
        refine .update (a := ⟨now, [], [], none, false⟩) hC hg.rows (fun r _ hr => Job.moves_superseded (.inr hr.2.2)) ?_
        intro r _ hr hs
        rcases hr.2.2 with h | h <;> cases hs.symm.trans h
      exact hsup.add ⟨by simp [Action.ids, Job.new], rfl, rfl, trivial⟩
  case cancelImport.refl userId repositoryId =>
    have hdone := hch.all_completed_of rfl
    rcases committed_map_cases s.db (Imports.cancel now userId repositoryId s.db) with h | ⟨db', hp, h⟩
    · simp only [step, h]
      exact .same
    · obtain ⟨-, job, -, he⟩ := Imports.cancel_eq hp
      simp only [step, h, he] at hdone ⊢
      exact .tended (.cancelled hC hg.rows fun r _ hr => hr.2) hdone
  case claimImport.refl jobId token =>
    have hdone := hch.all_completed_of rfl
    simp only [step, claimImport] at hdone ⊢
    split
    · rename_i p hp
      rw [hp] at hdone
      exact .tended (.claimJob hC hg.rows hp) hdone
    · exact .same
  case importStep.refl i input =>
    clear hch
    simp only [step, importStep]
    split
    · rename_i k hk
      exact .worker hg (hi.importClaims k (Table.mem_of_getElem? hk)) (Imports.step_effect now k.claim input k.pc s.db)
    · exact .same
  case importCycle.refl input =>
    have hdone := hch.all_completed_of rfl
    exact .tended (.cycle hC (fun _ _ => rfl) hg.rows) hdone

theorem ImportChange.imports {ids : List Uuid} {db db' : Db} (hg : Job.Good w db.imports)
    (h : ImportChange now ids db db') :
    Job.Tended Job.Redispatched (fun _ => True) now ids db.imports db'.imports := by
  cases h with
  | kept _ ht => exact ht
  | published _ hf =>
    exact .fencedIf (fun _ => rfl) hg.rows (fun r _ hl _ => Job.moves_finished trivial hl) hf

end Jobs

/-! ### What every state keeps -/

/-- Completed imports are current and have a commit, and an index carries the commit of its repository. -/
structure Db.Snapped (db : Db) : Prop where
  current : ∀ j ∈ db.imports, j.status = .completed → j.isCurrent = true
  fetched : ∀ j ∈ db.imports, j.status = .completed → ∀ r ∈ db.repositories, r.id = j.repositoryId → r.lastCommitSha.isSome
  commits : ∀ x ∈ db.indexes, ∀ r ∈ db.repositories, r.id = x.repositoryId → r.lastCommitSha = some x.data.commitSha

namespace Jobs
variable {env : Env} {now : Time} {a : Action} {s : Jobs} {w : World}

/-- A worker that publishes runs the current import of its repository, so none has completed there. -/
theorem not_completed_of_fenced {db : Db} {claim : Claim} {f : ImportJob → ImportJob} {imports : List ImportJob}
    (hg : Job.Good w db.imports) (hs : db.Snapped)
    (hr : ∀ j ∈ db.imports, Job.LeaseCondition now claim j → j.repositoryId = claim.repositoryId)
    (hf : Job.fenced now claim f db.imports = some imports) {j : ImportJob} (hj : j ∈ db.imports)
    (hc : j.status = .completed) : j.repositoryId ≠ claim.repositoryId ∧ j.id ≠ claim.jobId := by
  obtain ⟨⟨q, hq, hl, -⟩, -⟩ := Job.fencedIf_isSome hf
  have hne : q ≠ j := by
    rintro rfl
    cases hc.symm.trans hl.2.1
  have hcur : q.isCurrent = true := by
    by_contra hno
    have hend := (hg.rows q hq).current (Bool.eq_false_iff.2 hno)
    rw [hl.2.1] at hend
    exact absurd hend (by decide)
  refine ⟨fun he => hne ?_, fun he => hne ?_⟩
  · exact hg.current q hq j hj hcur (hs.current j hj hc) ((hr q hq hl).trans he.symm)
  · exact hg.keyed.eq hq hj (hl.1.trans he.symm)

theorem snapped_import {ids : List Uuid} {db db' : Db} (h : db.Snapped) (hg : Job.Good w db.imports)
    (hsrc : ∀ x ∈ db.indexes, ∃ j ∈ db.imports,
      j.id = x.data.importJobId ∧ j.status = .completed ∧ j.repositoryId = x.repositoryId)
    (hrep : ∀ j ∈ db.imports, j.repositoryId ∈ w.issued) (hf : ∀ i ∈ ids, i ∉ w.issued)
    (hc : ImportChange now ids db db') : db'.Snapped := by
  refine ⟨fun j' hj' hs' => ?current, ?fetched, ?commits⟩
  case fetched =>
    cases hc with
    | kept hr ht hdone =>
      intro j' hj' hs' r hm hid
      obtain ⟨j, hj, hjid, hs⟩ := hdone j' hj' hs'
      rcases ht.earlier hj' with ⟨q, hq, hk⟩ | hn
      · have hqj : q = j := hg.keyed.eq hq hj (hk.same.1.symm.trans hjid.symm)
        rw [hk.same.2.1, hqj] at hid
        have hold : ∀ r ∈ db.repositories, r.id = j.repositoryId → r.lastCommitSha.isSome := h.fetched j hj hs
        rcases hr with rfl | ⟨new, hnew, rfl⟩
        · exact hold r hm hid
        rcases List.mem_append.1 hm with hm | hm
        · exact hold r hm hid
        · rw [List.mem_singleton.1 hm] at hid
          exact absurd (hrep j hj) (hf _ (hid ▸ hnew))
      · cases hs'.symm.trans hn.status
    | @published claim source result fileIds imports hr hfe =>
      intro j' hj' hs' r hm hid
      obtain ⟨q, hq, rfl⟩ := Table.mem_update.1 hm
      by_cases hqc : q.id = claim.repositoryId
      · rw [if_pos hqc]
        rfl
      rw [if_neg hqc] at hid ⊢
      have hupd := (Job.fencedIf_isSome hfe).2
      change j' ∈ imports at hj'
      rw [hupd] at hj'
      obtain ⟨j, hj, rfl⟩ := Table.mem_update.1 hj'
      split at hid <;> rename_i hl
      · exact absurd (hid.trans (hr j hj hl.1)) hqc
      · rw [if_neg hl] at hs'
        exact h.fetched j hj hs' q hq hid
  case current =>
    rcases (hc.imports hg).earlier hj' with ⟨j, hj, hk⟩ | hn
    · by_cases hs : j.status = .completed
      · rw [hk.completed hs]
        exact h.current j hj hs
      · exact hk.closes hs hs'
    · cases hs'.symm.trans hn.status
  case commits =>
    cases hc with
    | kept hr _ _ =>
      intro x hx r hm hid
      rcases hr with rfl | ⟨new, hnew, rfl⟩
      · exact h.commits x hx r hm hid
      rcases List.mem_append.1 hm with hm | hm
      · exact h.commits x hx r hm hid
      · obtain ⟨j, hj, -, -, hjr⟩ := hsrc x hx
        rw [List.mem_singleton.1 hm, ← hjr] at hid
        exact absurd (hrep j hj) (hf _ (hid ▸ hnew))
    | published hr hfe =>
      intro x hx r hm hid
      obtain ⟨j, hj, -, hs, hjr⟩ := hsrc x hx
      obtain ⟨q, hq, rfl⟩ := Table.mem_update.1 hm
      have hne : q.id ≠ _ := fun he => (not_completed_of_fenced hg h hr hfe hj hs).1 (by
        rw [if_pos he] at hid
        exact hjr.trans (hid.symm.trans he))
      rw [if_neg hne] at hid ⊢
      exact h.commits x hx q hq hid

/-- An index is built for the commit of its repository, and keeps it. -/
theorem snapped_index (h : s.db.Snapped) (hi : Inv w s) (hkeys : Table.Keyed (·.id) s.db.repositories)
    (hf : ∀ i ∈ a.ids, i ∉ w.issued) (hk : a.kind = .indexes) : (step env now a s).db.Snapped := by
  obtain ⟨hr, himp, -⟩ := frame_indexes env now s hk
  refine ⟨himp ▸ h.current, himp ▸ hr ▸ h.fetched, ?_⟩
  rw [hr]
  intro x' hx' r hm hid
  rcases (indexes_changes env now hi.indexes hf).grown hx' with ⟨x, hx, hsame, hg⟩ | hnew
  · rw [hg.2.1]
    exact h.commits x hx r hm (hid.trans hsame.2.1)
  cases a <;> simp only [actor, Action.inserts, List.not_mem_nil] at hnew <;> cases hk
  case startIndex.refl userId repositoryId limit jobId =>
    have hnotin : ∀ x ∈ s.db.indexes, x.id ≠ x'.id := fun x hx he =>
      hf x'.id (by simpa [Action.ids] using hnew) (he ▸ hi.indexes.ids x hx)
    rcases committed_cases s.db (Indexes.start now userId repositoryId limit jobId s.db) with hs | ⟨p, hp, hs⟩ <;>
      simp only [step, hs] at hx'
    · exact absurd rfl (hnotin x' hx')
    rcases Indexes.start_eq hp with he | ⟨repository, imported, sha, indexes, ho, -, hsha, -, hins, he⟩ <;> rw [he] at hx'
    · exact absurd rfl (hnotin x' hx')
    · rcases Job.mem_of_insert hins hx' with hx' | rfl
      · obtain ⟨x, hx, rfl⟩ := Table.mem_update.1 hx'
        refine absurd ?_ (hnotin x hx)
        split <;> rfl
      · obtain ⟨hrm, hrid, -⟩ := Db.owned_eq ho
        rw [hkeys.eq hm hrm (hid.trans hrid.symm)]
        exact hsha

theorem snapped_removal (h : s.db.Snapped) (hk : a.kind = .removal) : (step env now a s).db.Snapped := by
  cases a <;> try cases hk
  case removeRepository.refl userId repositoryId =>
    rcases removeRepository_cases s.db userId repositoryId with he | he <;> simp only [step, he]
    · exact h
    · refine ⟨fun j hj => h.current j (List.mem_of_mem_filter hj), fun j hj hs r hr => ?_, fun x hx r hr => ?_⟩
      · exact h.fetched j (List.mem_of_mem_filter hj) hs r (List.mem_of_mem_filter hr)
      · exact h.commits x (List.mem_of_mem_filter hx) r (List.mem_of_mem_filter hr)

theorem snapped_step (h : s.db.Snapped) (hi : Inv w s) (hco : ContentInv w s)
    (hrep : ∀ j ∈ s.db.imports, j.repositoryId ∈ w.issued) (hkeys : Table.Keyed (·.id) s.db.repositories)
    (hf : ∀ i ∈ a.ids, i ∉ w.issued) : (step env now a s).db.Snapped := by
  cases hk : a.kind with
  | imports => exact snapped_import h hi.imports hco.sources hrep hf (importChange env now hi hf hk)
  | indexes => exact snapped_index h hi hkeys hf hk
  | searches =>
    obtain ⟨hr, himp, -, hx, -⟩ := frame_searches env now s hk
    exact ⟨himp ▸ h.current, himp ▸ hr ▸ h.fetched, hx ▸ hr ▸ h.commits⟩
  | removal => exact snapped_removal h hk

end Jobs

/-! ### What a run leaves of a snapshot -/

/-- The completed imports of a repository are as they were, and so are its row and their files. -/
structure Db.Fixed (repositoryId : Uuid) (db db' : Db) : Prop where
  repository : ∀ r ∈ db.repositories, r.id = repositoryId →
    (∃ j ∈ db.imports, j.repositoryId = repositoryId ∧ j.status = .completed) → r ∈ db'.repositories
  imports : ∀ j ∈ db.imports, j.repositoryId = repositoryId → j.status = .completed →
    (∃ j' ∈ db'.imports, Job.Redispatched j j') ∧
      db'.files.filter (·.importJobId = j.id) = db.files.filter (·.importJobId = j.id)

theorem Db.Fixed.refl (repositoryId : Uuid) (db : Db) : Db.Fixed repositoryId db db :=
  ⟨fun _ hr _ _ => hr, fun j hj _ _ => ⟨⟨j, hj, rfl⟩, rfl⟩⟩

theorem Db.Fixed.trans {repositoryId : Uuid} {db db' db'' : Db} (h : Db.Fixed repositoryId db db')
    (h' : Db.Fixed repositoryId db' db'') : Db.Fixed repositoryId db db'' := by
  refine ⟨fun r hr hid hex => ?_, fun j hj hr hs => ?_⟩
  · obtain ⟨j, hj, hjr, hs⟩ := hex
    obtain ⟨⟨j', hj', hd⟩, -⟩ := h.imports j hj hjr hs
    refine h'.repository r (h.repository r hr hid ⟨j, hj, hjr, hs⟩) hid ⟨j', hj', ?_⟩
    exact ⟨hd.filed.repositoryId_eq.trans hjr, hd.filed.status_eq.trans hs⟩
  · obtain ⟨⟨j', hj', hd⟩, hfiles⟩ := h.imports j hj hr hs
    obtain ⟨⟨j'', hj'', hd'⟩, hfiles'⟩ := h'.imports j' hj' (hd.filed.repositoryId_eq.trans hr) (hd.filed.status_eq.trans hs)
    rw [hd.filed.id_eq] at hfiles'
    refine ⟨⟨j'', hj'', ?_⟩, hfiles'.trans hfiles⟩
    unfold Job.Redispatched at hd hd' ⊢
    rw [hd', hd]

namespace Jobs
variable {env : Env} {now : Time} {a : Action} {s : Jobs} {w : World}

/-- The rows a publication adds belong to its own import. -/
theorem filter_published {claim : Claim} {ids : List Uuid} {result : ArchiveResult} {files : List RepositoryFile} {i : Uuid}
    (h : i ≠ claim.jobId) :
    (files ++ List.zipWith (Imports.fileRow claim) ids result.files).filter (·.importJobId = i) =
      files.filter (·.importJobId = i) := by
  rw [List.filter_append, List.append_right_eq_self, List.filter_eq_nil_iff]
  intro f hf
  obtain ⟨id, -, x, -, rfl⟩ := Table.exists_of_mem_zipWith hf
  simp [Imports.fileRow, Ne.symm h]

theorem fixed_import {ids : List Uuid} {db db' : Db} {repositoryId : Uuid} (h : db.Snapped) (hg : Job.Good w db.imports)
    (hc : ImportChange now ids db db') : Db.Fixed repositoryId db db' := by
  have hlater : ∀ j ∈ db.imports, j.status = .completed → ∃ j' ∈ db'.imports, Job.Redispatched j j' := by
    intro j hj hs
    obtain ⟨j', hj', hk⟩ := (hc.imports hg).later hj
    exact ⟨j', hj', hk.completed hs⟩
  cases hc with
  | kept hr _ _ =>
    refine ⟨fun r hm _ _ => ?_, fun j hj _ hs => ⟨hlater j hj hs, rfl⟩⟩
    rcases hr with rfl | ⟨new, -, rfl⟩
    · exact hm
    · exact List.mem_append_left _ hm
  | @published claim source result fileIds imports hr hf =>
    refine ⟨fun r hm hid hex => ?_, fun j hj _ hs => ⟨hlater j hj hs, ?_⟩⟩
    · obtain ⟨j, hj, hjr, hs⟩ := hex
      refine Table.mem_update_of_not hm fun he => ?_
      exact (not_completed_of_fenced hg h hr hf hj hs).1 (hjr.trans (hid.symm.trans he))
    · exact filter_published (not_completed_of_fenced hg h hr hf hj hs).2

/-- A repository that is there after an action keeps its snapshot. -/
theorem fixed (env : Env) (now : Time) (h : s.db.Snapped) (hi : Inv w s) (hf : ∀ i ∈ a.ids, i ∉ w.issued)
    {repositoryId : Uuid} (hr : ∃ r ∈ (step env now a s).db.repositories, r.id = repositoryId) :
    Db.Fixed repositoryId s.db (step env now a s).db := by
  have hframe : ∀ {db' : Db}, db'.repositories = s.db.repositories → db'.imports = s.db.imports →
      db'.files = s.db.files → Db.Fixed repositoryId s.db db' := by
    intro db' hr hj hfl
    refine ⟨fun r hm _ _ => hr ▸ hm, fun j hm _ _ => ⟨⟨j, hj ▸ hm, rfl⟩, by rw [hfl]⟩⟩
  cases hk : a.kind with
  | imports => exact fixed_import h hi.imports (importChange env now hi hf hk)
  | indexes =>
    obtain ⟨h1, h2, h3, -⟩ := frame_indexes env now s hk
    exact hframe h1 h2 h3
  | searches =>
    obtain ⟨h1, h2, h3, -⟩ := frame_searches env now s hk
    exact hframe h1 h2 h3
  | removal =>
    cases a <;> try cases hk
    case removal.removeRepository.refl userId gone =>
      simp only [step] at hr ⊢
      rcases removeRepository_cases s.db userId gone with he | he <;> rw [he] at hr ⊢
      · exact .refl _ _
      obtain ⟨r, hr, hid⟩ := hr
      have hne : repositoryId ≠ gone := hid ▸ of_decide_eq_true (List.mem_filter.1 hr).2
      refine ⟨fun q hq hid _ => List.mem_filter.2 ⟨hq, decide_eq_true (hid.trans_ne hne)⟩, fun j hj hjr hs => ?_⟩
      exact ⟨⟨j, List.mem_filter.2 ⟨hj, decide_eq_true (hjr.trans_ne hne)⟩, rfl⟩,
        Db.filter_of_kept hi.imports.keyed hj (hjr.trans_ne hne)⟩

end Jobs

namespace System
variable {env : Env} {s s' s'' : System}

/-- The invariants behind the results about snapshots. -/
structure SnapInv (env : Env) (s : System) : Prop where
  gen : GenInv env s
  link : LinkInv s
  snapped : s.jobs.db.Snapped

theorem snapInv_step (s : System) (a : Action) (h : SnapInv env s) : SnapInv env (step env s a) := by
  refine ⟨genInv_step s a h.gen, (linkInv_step s a ⟨h.gen.jobs, h.gen.chat, h.link⟩).2.2, ?_⟩
  cases a with
  | tick elapsed => exact h.snapped
  | chat a => simp only [step]; split <;> exact h.snapped
  | jobs a =>
    simp only [step]
    split
    · rename_i hfr
      refine Jobs.snapped_step h.snapped h.gen.jobs.inv h.gen.jobs.content (fun j hj => ?_) h.gen.chat.owners.keyed hfr.1.2
      obtain ⟨r, hr, hid⟩ := h.link.jobs.imports j hj
      exact hid ▸ h.gen.chat.owners.ids r hr
    · exact h.snapped

theorem snapInv (env : Env) (acts : List Action) : SnapInv env (run env acts) :=
  Machine.invariant ⟨genInv env [], linkInv env [], List.forall_mem_nil _, List.forall_mem_nil _, List.forall_mem_nil _⟩ snapInv_step acts

section State
variable (h : SnapInv env s) {userId repositoryId : Uuid} {r : Repository} {j : ImportJob}
include h

/-- An import of a repository that has completed is the one its owner reads. -/
theorem SnapInv.import_eq (ho : s.jobs.db.owned userId repositoryId = .ok (r, j)) {q : ImportJob}
    (hq : q ∈ s.jobs.db.imports) (hqr : q.repositoryId = repositoryId) (hc : q.status = .completed) : q = j := by
  obtain ⟨-, -, -, hj, hjr, hcur⟩ := Db.owned_eq ho
  exact h.gen.jobs.inv.imports.current q hq j hj (h.snapped.current q hq hc) hcur (hqr.trans hjr.symm)

/-- Every index of a repository is built from its one snapshot. -/
theorem SnapInv.index_eq (ho : s.jobs.db.owned userId repositoryId = .ok (r, j)) {x : RepositoryIndex}
    (hx : x ∈ s.jobs.db.indexes) (hxr : x.repositoryId = repositoryId) :
    x.data.importJobId = j.id ∧ j.status = .completed ∧ r.lastCommitSha = some x.data.commitSha := by
  obtain ⟨hr, hid, -⟩ := Db.owned_eq ho
  obtain ⟨q, hq, hqx, hc, hqr⟩ := h.gen.jobs.content.sources x hx
  have he := h.import_eq ho hq (hqr.trans hxr) hc
  subst he
  exact ⟨hqx.symm, hc, h.snapped.commits x hx r hr (hid.trans hxr.symm)⟩

/-- No second index of a repository completes. -/
theorem SnapInv.completed_eq {x y : RepositoryIndex} (hx : x ∈ s.jobs.db.indexes) (hy : y ∈ s.jobs.db.indexes)
    (hr : x.repositoryId = y.repositoryId) (hcx : x.status = .completed) (hcy : y.status = .completed) : x = y :=
  h.gen.jobs.inv.indexes.current x hx y hy (h.gen.generations.current x hx hcx) (h.gen.generations.current y hy hcy) hr

theorem SnapInv.activeIndex_eq {x : RepositoryIndex} (hx : x ∈ s.jobs.db.indexes) (hc : x.status = .completed) :
    s.jobs.db.activeIndex x.repositoryId x.data.importJobId = some x := by
  have hn := Db.activeIndex_isNewest s.jobs.db x.repositoryId x.data.importJobId
  obtain ⟨y, hy⟩ := Option.isSome_iff_exists.1 (hn.isSome hx ⟨rfl, rfl, hc⟩)
  obtain ⟨hm, hr, -, hcy⟩ := Db.activeIndex_eq hy
  rw [hy, h.completed_eq hm hx hr hcy hc]

end State

/-- The repositories of a state that are still there have the snapshots they had. -/
structure Fixes (s s' : System) : Prop extends Lasts s s' where
  fixed : ∀ r' ∈ s'.jobs.db.repositories, r'.id ∈ s.world.issued → Db.Fixed r'.id s.jobs.db s'.jobs.db

theorem Fixes.refl (s : System) : Fixes s s := ⟨.refl s, fun _ _ _ => .refl _ _⟩

theorem Fixes.trans (h : Fixes s s') (h' : Fixes s' s'') : Fixes s s'' := by
  refine ⟨h.toLasts.trans h'.toLasts, fun r'' hr'' hid => ?_⟩
  obtain ⟨r', hr', he⟩ := h'.repositories r'' hr'' (h.issued _ hid)
  have hf := h.fixed r' hr' (he ▸ hid)
  rw [he] at hf
  exact hf.trans (h'.fixed r'' hr'' (h.issued _ hid))

theorem fixes_step (s : System) (a : Action) (h : SnapInv env s) : Fixes s (step env s a) := by
  refine ⟨lasts_step s a h.gen, fun r' hr' _ => ?_⟩
  cases a with
  | tick elapsed => exact .refl _ _
  | chat a => simp only [step]; split <;> exact .refl _ _
  | jobs a =>
    simp only [step] at hr' ⊢
    split at hr'
    · rename_i hfr
      rw [if_pos hfr]
      exact Jobs.fixed env s.world.clock h.snapped h.gen.jobs.inv hfr.1.2 ⟨r', hr', rfl⟩
    · rename_i hfr
      rw [if_neg hfr]
      exact .refl _ _

theorem fixes (acts more : List Action) : Fixes (run env acts) ((machine env).exec (run env acts) more) :=
  Machine.relates snapInv_step Fixes.refl Fixes.trans fixes_step (snapInv env acts) more

/-- Whoever reads a repository before and after reads the same snapshot. -/
theorem Fixes.owned (h : Fixes s s') (hs : SnapInv env s) (hs' : SnapInv env s') {userId repositoryId : Uuid}
    {r r' : Repository} {j j' : ImportJob} (ho : s.jobs.db.owned userId repositoryId = .ok (r, j))
    (hc : j.status = .completed) (ho' : s'.jobs.db.owned userId repositoryId = .ok (r', j')) :
    r' = r ∧ Job.Redispatched j j' ∧
      s'.jobs.db.files.filter (·.importJobId = j.id) = s.jobs.db.files.filter (·.importJobId = j.id) := by
  obtain ⟨hr, hid, -, hj, hjr, -⟩ := Db.owned_eq ho
  obtain ⟨hr', hid', -⟩ := Db.owned_eq ho'
  have hf := h.fixed r' hr' (hid' ▸ hid ▸ hs.gen.chat.owners.ids r hr)
  rw [hid'] at hf
  obtain ⟨⟨q, hq, hd⟩, hfiles⟩ := hf.imports j hj hjr hc
  have hqj := hs'.import_eq ho' hq (hd.filed.repositoryId_eq.trans hjr) (hd.filed.status_eq.trans hc)
  refine ⟨?_, hqj ▸ hd, hfiles⟩
  have hm := hf.repository r hr hid ⟨j, hj, hjr, hc⟩
  exact hs'.gen.chat.owners.keyed.eq hr' hm (hid'.trans hid.symm)

/-- An index that is completed stays the active one. -/
theorem Fixes.activeIndex (h : Fixes s s') (hs : SnapInv env s) (hs' : SnapInv env s') {userId repositoryId : Uuid}
    {r' : Repository} {j' : ImportJob} {x : RepositoryIndex} (hx : x ∈ s.jobs.db.indexes)
    (hxr : x.repositoryId = repositoryId) (hc : x.status = .completed)
    (ho' : s'.jobs.db.owned userId repositoryId = .ok (r', j')) :
    (∃ x', s'.jobs.db.activeIndex repositoryId x.data.importJobId = some x' ∧ Job.Redispatched x x') ∧
      s'.jobs.db.symbols.filter (·.indexId = x.id) = s.jobs.db.symbols.filter (·.indexId = x.id) ∧
      s'.jobs.db.chunks.filter (·.indexId = x.id) = s.jobs.db.chunks.filter (·.indexId = x.id) := by
  obtain ⟨hr', hid', -⟩ := Db.owned_eq ho'
  obtain ⟨q, hq, -, -, hqr⟩ := hs.gen.jobs.content.sources x hx
  obtain ⟨r, hr, hid⟩ := hs.link.jobs.imports q hq
  have hissued : r'.id ∈ s.world.issued := by
    rw [hid', ← hxr, ← hqr, ← hid]
    exact hs.gen.chat.owners.ids r hr
  obtain ⟨⟨x', hx', hd⟩, hsym, hch⟩ := (h.lasting r' hr' hissued).indexes x hx (hxr.trans hid'.symm) hc
  have hact := hs'.activeIndex_eq hx' (hd.filed.status_eq.trans hc)
  rw [hd.filed.repositoryId_eq, hd.filed.data_eq, hxr] at hact
  exact ⟨⟨x', hact, hd⟩, hsym, hch⟩

/-- Once the import of a repository has completed, its owner reads the same snapshot for as long as the repository is
there: the same row with the same commit, the same import, the same files. Every index is built from this import at
this commit; the first one that completes stays the active one, with its symbols and chunks, and every search index
is prepared from it. -/
theorem snapshot_stays (env : Env) (acts more : List Action) :
    let s := run env acts
    let s' := (machine env).exec s more
    ∀ userId repositoryId r j, s.jobs.db.owned userId repositoryId = .ok (r, j) → j.status = .completed →
      ∀ r' j', s'.jobs.db.owned userId repositoryId = .ok (r', j') →
        r' = r ∧ Job.Redispatched j j' ∧
        s'.jobs.db.files.filter (·.importJobId = j'.id) = s.jobs.db.files.filter (·.importJobId = j.id) ∧
        (∀ x' ∈ s'.jobs.db.indexes, x'.repositoryId = repositoryId →
          x'.data.importJobId = j.id ∧ r.lastCommitSha = some x'.data.commitSha) ∧
        (∀ x, s.jobs.db.activeIndex repositoryId j.id = some x →
          (∃ x', s'.jobs.db.activeIndex repositoryId j'.id = some x' ∧ Job.Redispatched x x') ∧
          s'.jobs.db.symbols.filter (·.indexId = x.id) = s.jobs.db.symbols.filter (·.indexId = x.id) ∧
          s'.jobs.db.chunks.filter (·.indexId = x.id) = s.jobs.db.chunks.filter (·.indexId = x.id)) ∧
        ∀ y' ∈ s'.jobs.db.searches, y'.repositoryId = repositoryId →
          ∃ x', s'.jobs.db.activeIndex repositoryId j'.id = some x' ∧ y'.data.sourceIndexId = x'.id := by
  intro s s' userId repositoryId r j ho hc r' j' ho'
  have hs : SnapInv env s := snapInv env acts
  have hs' : SnapInv env s' := Machine.exec_always snapInv_step hs more
  have hfix : Fixes s s' := fixes acts more
  obtain ⟨rfl, hd, hfiles⟩ := hfix.owned hs hs' ho hc ho'
  have hid : j'.id = j.id := hd.filed.id_eq
  refine ⟨rfl, hd, hid ▸ hfiles, fun x' hx' hxr => ?_, fun x hx => ?_, fun y' hy' hyr => ?_⟩
  · obtain ⟨himp, -, hsha⟩ := hs'.index_eq ho' hx' hxr
    exact ⟨himp.trans hid, hsha⟩
  · obtain ⟨hm, hxr, himp, hcx⟩ := Db.activeIndex_eq hx
    have hact := hfix.activeIndex hs hs' hm hxr hcx ho'
    rwa [himp, ← hid] at hact
  · obtain ⟨x', hx', hid', hcx, hxr⟩ := hs'.gen.jobs.coverage.sources y' hy'
    have hact := hs'.activeIndex_eq hx' hcx
    rw [hxr, hyr, (hs'.index_eq ho' hx' (hxr.trans hyr)).1] at hact
    exact ⟨x', hact, hid'.symm⟩

/-- After the index, another import and another index are asked for, and a search is prepared. -/
def afterwards : List Action :=
  [.jobs (.retryImport 0 1 none 13), .jobs (.startIndex 0 1 none 14), .jobs (.startSearch offline 0 1 .keyword none 15),
    .jobs (.claimSearch 15 16 none), .jobs (.searchStep 0 .go)]

theorem snapshot_stays_afterwards :
    ∃ r j x j' x', (run characters indexing).jobs.db.owned 0 1 = .ok (r, j) ∧
      (run characters indexing).jobs.db.activeIndex 1 j.id = some x ∧
      ((machine characters).exec (run characters indexing) afterwards).jobs.db.owned 0 1 = .ok (r, j') ∧
      Job.Redispatched j j' ∧
      ((machine characters).exec (run characters indexing) afterwards).jobs.db.activeIndex 1 j'.id = some x' ∧
      Job.Redispatched x x' := by
  obtain ⟨⟨r, j⟩, ho⟩ : ∃ p, (run characters indexing).jobs.db.owned 0 1 = .ok p := exists_ok (by decide +kernel)
  obtain ⟨⟨r', j'⟩, ho'⟩ :
      ∃ p, ((machine characters).exec (run characters indexing) afterwards).jobs.db.owned 0 1 = .ok p :=
    exists_ok (by decide +kernel)
  have hdone : ((run characters indexing).jobs.db.owned 0 1).toOption.map (·.2.status) = some .completed := by
    decide +kernel
  have hactive : (((run characters indexing).jobs.db.owned 0 1).toOption.bind fun p =>
      (run characters indexing).jobs.db.activeIndex 1 p.2.id).isSome = true := by decide +kernel
  rw [ho] at hdone hactive
  obtain ⟨x, hx⟩ := Option.isSome_iff_exists.1 hactive
  obtain ⟨rfl, hj, -, -, hindex, -⟩ :=
    snapshot_stays characters indexing afterwards 0 1 r j ho (Option.some.inj hdone) r' j' ho'
  obtain ⟨⟨x', hx', hd⟩, -⟩ := hindex x hx
  exact ⟨r', j, x, j', x', ho, hx, ho', hj, hx', hd⟩

end System
end RepoPilot
