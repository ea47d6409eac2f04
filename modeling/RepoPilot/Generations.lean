import RepoPilot.ChatInvariant

/-! # Completed generations stay

A completed index or search index is never written again, but for two columns: a dispatcher cycle that selected
the job before may still note that it dispatched it, and a search index that is replaced stops being current. So
what is active for a source is there to stay, and is always the newest completed generation. -/

namespace RepoPilot

namespace Job
variable {π : Type}

/-- The row is as it was, but for the dispatch time. -/
def Redispatched (r r' : Job π) : Prop := r' = { r with lastDispatchedAt := r'.lastDispatchedAt }

/-- The row is as it was, but for the dispatch time and the flag. -/
def Filed (r r' : Job π) : Prop :=
  r' = { r with isCurrent := r'.isCurrent, lastDispatchedAt := r'.lastDispatchedAt }

theorem Redispatched.filed {r r' : Job π} (h : Redispatched r r') : Filed r r' := by
  unfold Redispatched at h
  unfold Filed
  rw [h]

theorem Filed.refl (r : Job π) : Filed r r := rfl

theorem Filed.trans {r r' r'' : Job π} (h : Filed r r') (h' : Filed r' r'') : Filed r r'' := by
  unfold Filed at h h' ⊢
  rw [h', h]

theorem Filed.id_eq {r r' : Job π} (h : Filed r r') : r'.id = r.id := by rw [h]

theorem Filed.repositoryId_eq {r r' : Job π} (h : Filed r r') : r'.repositoryId = r.repositoryId := by rw [h]

theorem Filed.status_eq {r r' : Job π} (h : Filed r r') : r'.status = r.status := by rw [h]

theorem Filed.data_eq {r r' : Job π} (h : Filed r r') : r'.data = r.data := by rw [h]

section Tended
variable [JobData π] {a : Actor} {now : Time} {ids : List Uuid} {C : Job π → Job π → Prop} {N : π → Prop}
  {t t' : List (Job π)} {r r' : Job π}

/-- What a transaction does to a row: `C` to a completed one, and only a current one is completed. -/
structure Keeps (C : Job π → Job π → Prop) (r r' : Job π) : Prop where
  same : Same r r'
  grows : JobData.Grows r.data r'.data
  completed : r.status = .completed → C r r'
  closes : r.status ≠ .completed → r'.status = .completed → r'.isCurrent = true

/-- A row that is inserted at `now` under one of the identifiers `ids`. -/
structure Added (now : Time) (ids : List Uuid) (N : π → Prop) (r : Job π) : Prop where
  id : r.id ∈ ids
  createdAt : r.createdAt = now
  status : r.status = .queued
  data : N r.data

/-- What a transaction does to a table of jobs. -/
def Tended (C : Job π → Job π → Prop) (N : π → Prop) (now : Time) (ids : List Uuid) :
    List (Job π) → List (Job π) → Prop :=
  Table.Grows (Keeps C) (Added now ids N)

theorem Keeps.refl (hC : ∀ r, C r r) (r : Job π) : Keeps C r r :=
  ⟨⟨rfl, rfl, rfl⟩, JobData.refl _, fun _ => hC r, fun h h' => absurd h' h⟩

theorem Keeps.of_moves (hm : Moves a r r') (hr : Ok r) (hC : r.status = .completed → C r r') : Keeps C r r' := by
  refine ⟨hm.same, hm.grows, hC, fun hne he => ?_⟩
  cases hm with
  | closed same was status attempts current token expires data =>
    rw [current]
    by_contra hno
    exact Status.terminal_iff_not_active.1 (hr.current (Bool.eq_false_iff.2 hno)) was
  | kept same kept current data => exact absurd (kept.1.symm.trans he) hne
  | superseded same kept was data current => exact absurd (kept.1.symm.trans he) hne
  | claimed same was status => cases status.symm.trans he
  | requeued same was few status => cases status.symm.trans he
  | resumed same was current current' status => cases status.symm.trans he

theorem Tended.refl (hC : ∀ r, C r r) (t : List (Job π)) : Tended C N now ids t t := Table.Grows.refl (.refl hC) t

theorem Tended.update {p : Job π → Prop} [DecidablePred p] {f : Job π → Job π} (hC : ∀ r, C r r)
    (hok : ∀ r ∈ t, Ok r) (hm : ∀ r ∈ t, p r → Moves a r (f r))
    (h : ∀ r ∈ t, p r → r.status = .completed → C r (f r)) : Tended C N now ids t (Table.update p f t) :=
  Table.Grows.update (.refl hC) fun r hr hp => .of_moves (hm r hr hp) (hok r hr) (h r hr hp)

/-- A worker writes only the row it runs. -/
theorem Tended.fencedIf {c : Claim} {guard : Job π → Prop} [DecidablePred guard] {f : Job π → Job π} (hC : ∀ r, C r r)
    (hok : ∀ r ∈ t, Ok r)
    (h : ∀ r ∈ t, LeaseCondition now c r → guard r → Moves ⟨now, [], [], some c.leaseToken, false⟩ r (f r))
    (ht : Job.fencedIf now c guard f t = some t') : Tended C N now ids t t' := by
  unfold Job.fencedIf at ht
  split at ht
  · cases ht
    refine .update hC hok (fun r hr hp => h r hr hp.1 hp.2) fun r _ hp hs => ?_
    cases hs.symm.trans hp.1.2.1
  · cases ht

theorem Tended.reportStage {c : Claim} {stage : String} (hC : ∀ r, C r r) (hok : ∀ r ∈ t, Ok r)
    (ht : Job.reportStage now c stage t = some t') : Tended C N now ids t t' := by
  unfold Job.reportStage Job.fenced at ht
  refine .fencedIf hC hok (fun r _ _ _ => ?_) ht
  exact .kept ⟨rfl, rfl, rfl⟩ ⟨rfl, rfl, rfl, rfl⟩ rfl (.inl rfl)

theorem Tended.cycle {input : Cycle.Input} {cycles : List Cycle} (hC : ∀ r, C r r)
    (hmark : ∀ r o, C r { r with lastDispatchedAt := o }) (hok : ∀ r ∈ t, Ok r) :
    Tended C N now ids t (Cycle.step now input t cycles).1 := by
  unfold Cycle.step
  split
  · refine .update (a := ⟨now, [], [], none, false⟩) hC hok (fun r _ hw => moves_failedWith _ _ (.inr hw.1)) ?_
    intro r _ hw hs
    cases hs.symm.trans hw.1
  · split <;> exact .refl hC t
  · split
    · dsimp only
      split
      · exact .update (a := ⟨now, [], [], none, false⟩) hC hok
          (fun r _ _ => .kept ⟨rfl, rfl, rfl⟩ ⟨rfl, rfl, rfl, rfl⟩ rfl (.inl rfl)) fun r _ _ _ => hmark r _
      · exact .refl hC t
    · exact .refl hC t

theorem Tended.claimJob {repositories : List Repository} {jobId token : Uuid} {p : List (Job π) × Claim}
    (hC : ∀ r, C r r) (hok : ∀ r ∈ t, Ok r) (h : Job.claimJob now repositories jobId token t = some p) :
    Tended C N now ids t p.1 := by
  obtain ⟨_, -, -, -, he, -⟩ := claimJob_eq h
  rw [he]
  refine .update (a := ⟨now, [token], [], none, false⟩) hC hok (fun r _ hw => moves_claimed hw) fun r _ hw hs => ?_
  rcases hw.2.2.2.2 with hq | ⟨hq, -⟩ <;> cases hs.symm.trans hq

/-- A cancelled job was active. -/
theorem Tended.cancelled {p : Job π → Prop} [DecidablePred p] (hC : ∀ r, C r r) (hok : ∀ r ∈ t, Ok r)
    (h : ∀ r ∈ t, p r → r.status.Active) : Tended C N now ids t (Table.update p (Job.cancelled now) t) := by
  refine .update (a := ⟨now, [], [], none, false⟩) hC hok (fun r hr hp => moves_cancelled (h r hr hp)) ?_
  intro r hr hp hs
  rcases h r hr hp with hq | hq <;> cases hs.symm.trans hq

/-- Superseding the latest job, when it is over, and inserting a new one. -/
theorem Tended.supersede {w : World} {jobId repositoryId : Uuid} {data : π} {latest : Option (Job π)} (hC : ∀ r, C r r)
    (hg : Good w t) (hmem : ∀ l ∈ latest, l ∈ t) (hterm : ∀ l ∈ latest, l.status.Terminal)
    (hc : ∀ l ∈ latest, l.status = .completed → C l (superseded l)) (hid : jobId ∈ ids) (hN : N data)
    (h : Job.insert (Table.update (fun r => ∃ l ∈ latest, r.id = l.id) superseded t)
      (Job.new jobId repositoryId now data) = some t') : Tended C N now ids t t' := by
  rw [insert_eq h]
  refine Table.Grows.add (Tended.update (a := ⟨now, [], [], none, false⟩) hC hg.rows ?_ ?_) ⟨hid, rfl, rfl, hN⟩
  · rintro r hr ⟨l, hl, he⟩
    rw [hg.keyed.eq hr (hmem l hl) he]
    exact moves_superseded (hterm l hl)
  · rintro r hr ⟨l, hl, he⟩ hs
    rw [hg.keyed.eq hr (hmem l hl) he] at hs ⊢
    exact hc l hl hs

end Tended
end Job

namespace Jobs
variable {env : Env} {now : Time} {a : Action} {s : Jobs} {w : World}

/-- Every index was built by this pipeline. -/
def Piped (t : List RepositoryIndex) : Prop := ∀ x ∈ t, x.data.pipelineVersion = pipelineVersion

theorem indexes_tended (env : Env) (now : Time) (hg : Job.Good w s.db.indexes) (hv : Piped s.db.indexes)
    (ha : a.kind ≠ .removal) :
    Job.Tended Job.Redispatched (fun d : IndexData => d.pipelineVersion = pipelineVersion) now a.ids s.db.indexes
      (step env now a s).db.indexes := by
  have hC : ∀ r : RepositoryIndex, Job.Redispatched r r := fun _ => rfl
  cases hk : a.kind with
  | imports => rw [(frame_imports _ _ _ hk).1]; exact .refl hC _
  | searches => rw [(frame_searches _ _ _ hk).2.2.2.1]; exact .refl hC _
  | removal => exact absurd hk ha
  | indexes =>
    cases a <;> try cases hk
    case indexes.startIndex.refl userId repositoryId limit jobId =>
      rcases committed_cases s.db (Indexes.start now userId repositoryId limit jobId s.db) with
        h | ⟨p, hp, h⟩ <;> simp only [step, h]
      · exact .refl hC _
      · rcases Indexes.start_eq hp with he | ⟨repository, imported, sha, indexes, ho, hst, hsha, hterm, hi, he⟩ <;>
          rw [he]
        · exact .refl hC _
        · refine .supersede hC hg (fun l hl => (Db.latestIndex_eq hl).1) (fun l hl => (hterm l hl).1) ?_
            (by simp [Action.ids]) rfl hi
          intro l hl hs
          exact absurd (hv l (Db.latestIndex_eq hl).1) ((hterm l hl).2 hs)
    case indexes.cancelIndex.refl userId repositoryId =>
      rcases committed_map_cases s.db (Indexes.cancel now userId repositoryId s.db) with h | ⟨db', hp, h⟩ <;>
        simp only [step, h]
      · exact .refl hC _
      · obtain ⟨-, source, -, he⟩ := Indexes.cancel_eq hp
        rw [he]
        exact .cancelled hC hg.rows fun r _ hr => hr.2.2.2
    case indexes.claimIndex.refl jobId token =>
      simp only [step, claimIndex]
      split
      · exact .claimJob hC hg.rows ‹_›
      · exact .refl hC _
    case indexes.indexStep.refl i input =>
      simp only [step, indexStep]
      split
      · rename_i k hk
        generalize hpc : (Indexes.step env now k.claim input k.pc s.db).1 = pc'
        generalize hdb : (Indexes.step env now k.claim input k.pc s.db).2 = db'
        have he := Indexes.step_effect env now k.claim input k.pc s.db
        rw [hpc, hdb] at he
        cases he with
        | parsing _ hr => exact .reportStage hC hg.rows hr
        | storing _ hr => exact .reportStage hC hg.rows hr
        | published _ _ _ hp =>
          obtain ⟨indexes, hi, rfl⟩ := Indexes.publishIndex_eq hp
          exact .fencedIf hC hg.rows (fun r _ hl _ => Job.moves_finished ⟨rfl, rfl, rfl⟩ hl) hi
        | failed _ =>
          rcases Indexes.recordFailure_eq now k.claim _ _ s.db with h | ⟨indexes, hi, h⟩ <;> rw [h]
          · exact .refl hC _
          · exact .fencedIf hC hg.rows (fun r _ hl _ => Job.moves_failedWith _ _ (.inr hl.2.1)) hi
        | _ => exact .refl hC _
      · exact .refl hC _
    case indexes.indexCycle.refl input => exact .cycle hC (fun _ _ => rfl) hg.rows

theorem searches_tended (env : Env) (now : Time) (hg : Job.Good w s.db.searches) (hp : Profiled s.db.searches)
    (ha : a.kind ≠ .removal) :
    Job.Tended Job.Filed (fun _ : SearchData => True) now a.ids s.db.searches (step env now a s).db.searches := by
  have hC : ∀ r : SearchIndex, Job.Filed r r := Job.Filed.refl
  cases hk : a.kind with
  | imports => rw [(frame_imports _ _ _ hk).2.2.2.1]; exact .refl hC _
  | indexes => rw [(frame_indexes _ _ _ hk).2.2.2.1]; exact .refl hC _
  | removal => exact absurd hk ha
  | searches =>
    cases a <;> try cases hk
    case searches.startSearch.refl settings userId repositoryId mode limit jobId =>
      rcases committed_cases s.db (Searches.start now settings userId repositoryId mode limit jobId s.db) with
        h | ⟨p, hp', h⟩ <;> simp only [step, h]
      · exact .refl hC _
      · rcases Searches.start_eq hp' with he | ⟨index, -, hterm, hex, ⟨l, hl, hm, he⟩ | ⟨searches, hi, he⟩⟩ <;>
          rw [he]
        · exact .refl hC _
        · obtain ⟨hmem, -, hcur⟩ := Db.latestSearch_eq hl
          have hnc := latest_not_completed hp hl hm hex
          have hrow : ∀ r ∈ s.db.searches, r.id = l.id → r = l := fun r hr hid => hg.keyed.eq hr hmem hid
          refine .update (a := ⟨now, [], [], none, false⟩) hC hg.rows (fun r hr hid => ?_) fun r hr hid hs => ?_
          · rw [hrow r hr hid]
            refine .resumed ⟨rfl, rfl, rfl⟩ ?_ hcur hcur rfl rfl rfl rfl
              ⟨rfl, rfl, rfl, le_refl _, fun h => h.trans (le_max_left _ _)⟩
            rcases hterm l hl with h | h | h
            · exact absurd h hnc
            · exact .inl h
            · exact .inr h
          · exact absurd (hrow r hr hid ▸ hs) hnc
        · exact .supersede hC hg (fun l hl => (Db.latestSearch_eq hl).1) hterm (fun _ _ _ => rfl)
            (by simp [Action.ids]) trivial hi
    case searches.cancelSearch.refl userId repositoryId =>
      rcases committed_map_cases s.db (Searches.cancel now userId repositoryId s.db) with h | ⟨db', hp', h⟩ <;>
        simp only [step, h]
      · exact .refl hC _
      · rw [(Searches.cancel_eq hp').2]
        exact .cancelled hC hg.rows fun r _ hr => hr.2.2
    case searches.claimSearch.refl jobId token provider =>
      simp only [step, claimSearch]
      split
      · exact .claimJob hC hg.rows ‹_›
      · exact .refl hC _
    case searches.searchStep.refl i input =>
      simp only [step, searchStep]
      split
      · rename_i k hk
        generalize hpc : (Searches.step env now k.claim k.provider input k.pc s.db).1 = pc'
        generalize hdb : (Searches.step env now k.claim k.provider input k.pc s.db).2 = db'
        have he := Searches.step_effect env now k.claim k.provider input k.pc s.db
        rw [hpc, hdb] at he
        cases he with
        | reported _ hr => exact .reportStage hC hg.rows hr
        | reserved _ hr =>
          obtain ⟨searches, hi, rfl⟩ := Searches.reserve_eq hr
          exact .fencedIf hC hg.rows (fun r _ hl ha => Searches.moves_addReserved hl ha) hi
        | stored _ hc =>
          obtain ⟨searches, hi, rfl⟩ := Searches.checkpoint_eq hc
          exact .fencedIf hC hg.rows (fun r _ hl _ => Searches.moves_addStored hl) hi
        | completed _ hc =>
          obtain ⟨searches, hi, rfl⟩ := Searches.complete_eq hc
          exact .fencedIf hC hg.rows (fun r _ hl _ => Job.moves_finished (JobData.refl _) hl) hi
        | failed _ =>
          rcases Searches.recordFailure_eq now k.claim _ _ s.db with h | ⟨searches, hi, h⟩ <;> rw [h]
          · exact .refl hC _
          · exact .fencedIf hC hg.rows (fun r _ hl _ => Job.moves_failedWith _ _ (.inr hl.2.1)) hi
        | _ => exact .refl hC _
      · exact .refl hC _
    case searches.searchCycle.refl input => exact .cycle hC (fun _ _ => rfl) hg.rows

/-! ### Outputs -/

/-- The job a worker writes under its lease is not completed. -/
theorem ne_of_fencedIf {π : Type} {t t' : List (Job π)} {c : Claim} {guard : Job π → Prop} [DecidablePred guard]
    {f : Job π → Job π} (hk : Table.Keyed Job.id t) (ht : Job.fencedIf now c guard f t = some t') {x : Job π}
    (hx : x ∈ t)
    (hs : x.status = .completed) : c.jobId ≠ x.id := by
  unfold Job.fencedIf at ht
  split at ht
  · rename_i hex
    obtain ⟨r, hr, hl, -⟩ := hex
    intro he
    rw [hk.eq hr hx (hl.1.trans he)] at hl
    cases hs.symm.trans hl.2.1
  · cases ht

/-- New rows that belong to another job. -/
theorem filter_append_of_ne {β : Type} {key : β → Uuid} {id id' : Uuid} {rows new : List β} (h : ∀ r ∈ new, key r = id')
    (hne : id' ≠ id) : (rows ++ new).filter (key · = id) = rows.filter (key · = id) := by
  have hnil : new.filter (key · = id) = [] :=
    List.filter_eq_nil_iff.2 fun r hr he => hne ((h r hr).symm.trans (of_decide_eq_true he))
  rw [List.filter_append, hnil, List.append_nil]

/-- The symbols and chunks of a completed index. -/
theorem index_outputs (env : Env) (now : Time) (hg : Job.Good w s.db.indexes) (ha : a.kind ≠ .removal)
    {x : RepositoryIndex} (hx : x ∈ s.db.indexes) (hs : x.status = .completed) :
    (step env now a s).db.symbols.filter (·.indexId = x.id) = s.db.symbols.filter (·.indexId = x.id) ∧
      (step env now a s).db.chunks.filter (·.indexId = x.id) = s.db.chunks.filter (·.indexId = x.id) := by
  cases hk : a.kind with
  | imports =>
    obtain ⟨-, hsym, hch, -⟩ := frame_imports env now s hk
    rw [hsym, hch]
    exact ⟨rfl, rfl⟩
  | searches =>
    obtain ⟨-, -, -, -, hsym, hch⟩ := frame_searches env now s hk
    rw [hsym, hch]
    exact ⟨rfl, rfl⟩
  | removal => exact absurd hk ha
  | indexes =>
    cases a <;> try cases hk
    case indexes.startIndex.refl userId repositoryId limit jobId =>
      rcases committed_cases s.db (Indexes.start now userId repositoryId limit jobId s.db) with
        h | ⟨p, hp, h⟩ <;> simp only [step, h]
      · simp only [and_self]
      · rcases Indexes.start_eq hp with he | ⟨_, _, _, _, -, -, -, -, -, he⟩ <;> rw [he] <;> exact ⟨rfl, rfl⟩
    case indexes.cancelIndex.refl userId repositoryId =>
      rcases committed_map_cases s.db (Indexes.cancel now userId repositoryId s.db) with h | ⟨db', hp, h⟩ <;>
        simp only [step, h]
      · simp only [and_self]
      · obtain ⟨-, source, -, he⟩ := Indexes.cancel_eq hp
        rw [he]
        exact ⟨rfl, rfl⟩
    case indexes.claimIndex.refl jobId token =>
      simp only [step, claimIndex]
      split <;> simp only [and_self]
    case indexes.indexStep.refl i input =>
      simp only [step, indexStep]
      split
      · rename_i k hk
        generalize hpc : (Indexes.step env now k.claim input k.pc s.db).1 = pc'
        generalize hdb : (Indexes.step env now k.claim input k.pc s.db).2 = db'
        have he := Indexes.step_effect env now k.claim input k.pc s.db
        rw [hpc, hdb] at he
        cases he with
        | published _ _ _ hp =>
          obtain ⟨indexes, hi, rfl⟩ := Indexes.publishIndex_eq hp
          have hne := ne_of_fencedIf hg.keyed hi hx hs
          refine ⟨filter_append_of_ne (fun r hr => ?_) hne, filter_append_of_ne (fun r hr => ?_) hne⟩
          · obtain ⟨p, -, rfl⟩ := List.mem_map.1 hr
            rfl
          · obtain ⟨id, p, -, -, rfl⟩ := Table.exists_of_mem_zipWith hr
            rfl
        | failed _ =>
          rcases Indexes.recordFailure_eq now k.claim _ _ s.db with h | ⟨indexes, hi, h⟩ <;> rw [h] <;> exact ⟨rfl, rfl⟩
        | _ => exact ⟨rfl, rfl⟩
      · exact ⟨rfl, rfl⟩
    case indexes.indexCycle.refl input => exact ⟨rfl, rfl⟩

/-- The documents of a completed search index. -/
theorem search_outputs (env : Env) (now : Time) (hg : Job.Good w s.db.searches) (ha : a.kind ≠ .removal)
    {x : SearchIndex} (hx : x ∈ s.db.searches) (hs : x.status = .completed) :
    (step env now a s).db.documents.filter (·.searchIndexId = x.id) =
      s.db.documents.filter (·.searchIndexId = x.id) := by
  cases hk : a.kind with
  | imports => rw [(frame_imports env now s hk).2.2.2.2]
  | indexes => rw [(frame_indexes env now s hk).2.2.2.2]
  | removal => exact absurd hk ha
  | searches =>
    cases a <;> try cases hk
    case searches.startSearch.refl settings userId repositoryId mode limit jobId =>
      rcases committed_cases s.db (Searches.start now settings userId repositoryId mode limit jobId s.db) with
        h | ⟨p, hp', h⟩ <;> simp only [step, h]
      rcases Searches.start_eq hp' with he | ⟨_, -, -, -, ⟨_, -, -, he⟩ | ⟨_, -, he⟩⟩ <;> rw [he]
    case searches.cancelSearch.refl userId repositoryId =>
      rcases committed_map_cases s.db (Searches.cancel now userId repositoryId s.db) with h | ⟨db', hp', h⟩ <;>
        simp only [step, h]
      rw [(Searches.cancel_eq hp').2]
    case searches.claimSearch.refl jobId token provider =>
      simp only [step, claimSearch]
      split <;> rfl
    case searches.searchStep.refl i input =>
      simp only [step, searchStep]
      split
      · rename_i k hk
        generalize hpc : (Searches.step env now k.claim k.provider input k.pc s.db).1 = pc'
        generalize hdb : (Searches.step env now k.claim k.provider input k.pc s.db).2 = db'
        have he := Searches.step_effect env now k.claim k.provider input k.pc s.db
        rw [hpc, hdb] at he
        cases he with
        | reserved _ hr =>
          obtain ⟨searches, hi, rfl⟩ := Searches.reserve_eq hr
          rfl
        | stored _ hc =>
          obtain ⟨searches, hi, rfl⟩ := Searches.checkpoint_eq hc
          refine filter_append_of_ne (fun r hr => ?_) (ne_of_fencedIf hg.keyed hi hx hs)
          obtain ⟨c, -, v, -, rfl⟩ := Table.exists_of_mem_zipWith hr
          rfl
        | completed _ hc =>
          obtain ⟨searches, hi, rfl⟩ := Searches.complete_eq hc
          rfl
        | failed _ =>
          rcases Searches.recordFailure_eq now k.claim _ _ s.db with h | ⟨searches, hi, h⟩ <;> rw [h]
        | _ => rfl
      · rfl
    case searches.searchCycle.refl input => rfl

end Jobs

/-! ### What stays of a repository -/

namespace Db
variable {db db' db'' : Db} {repositoryId : Uuid}

/-- The completed generations of a repository are still there, with what was published with them. -/
structure Lasting (repositoryId : Uuid) (db db' : Db) : Prop where
  indexes : ∀ x ∈ db.indexes, x.repositoryId = repositoryId → x.status = .completed →
    (∃ x' ∈ db'.indexes, Job.Redispatched x x') ∧
      db'.symbols.filter (·.indexId = x.id) = db.symbols.filter (·.indexId = x.id) ∧
      db'.chunks.filter (·.indexId = x.id) = db.chunks.filter (·.indexId = x.id)
  searches : ∀ x ∈ db.searches, x.repositoryId = repositoryId → x.status = .completed →
    (∃ x' ∈ db'.searches, Job.Filed x x') ∧
      db'.documents.filter (·.searchIndexId = x.id) = db.documents.filter (·.searchIndexId = x.id)

theorem Lasting.refl (repositoryId : Uuid) (db : Db) : Lasting repositoryId db db :=
  ⟨fun x hx _ _ => ⟨⟨x, hx, rfl⟩, rfl, rfl⟩, fun x hx _ _ => ⟨⟨x, hx, .refl x⟩, rfl⟩⟩

theorem Lasting.trans (h : Lasting repositoryId db db') (h' : Lasting repositoryId db' db'') :
    Lasting repositoryId db db'' := by
  refine ⟨fun x hx hr hs => ?_, fun x hx hr hs => ?_⟩
  · obtain ⟨⟨x', hx', hf⟩, hsym, hch⟩ := h.indexes x hx hr hs
    have hf₁ := hf.filed
    obtain ⟨⟨x'', hx'', hf'⟩, hsym', hch'⟩ :=
      h'.indexes x' hx' (hf₁.repositoryId_eq.trans hr) (hf₁.status_eq.trans hs)
    rw [hf₁.id_eq] at hsym' hch'
    refine ⟨⟨x'', hx'', ?_⟩, hsym'.trans hsym, hch'.trans hch⟩
    unfold Job.Redispatched at hf hf' ⊢
    rw [hf', hf]
  · obtain ⟨⟨x', hx', hf⟩, hdoc⟩ := h.searches x hx hr hs
    obtain ⟨⟨x'', hx'', hf'⟩, hdoc'⟩ := h'.searches x' hx' (hf.repositoryId_eq.trans hr) (hf.status_eq.trans hs)
    rw [hf.id_eq] at hdoc'
    exact ⟨⟨x'', hx'', hf.trans hf'⟩, hdoc'.trans hdoc⟩

/-- The output rows of a job that is not removed. -/
theorem filter_of_kept {π β : Type} {t : List (Job π)} {rows : List β} {key : β → Uuid} {gone : Uuid} {x : Job π}
    (hk : Table.Keyed Job.id t) (hx : x ∈ t) (hr : x.repositoryId ≠ gone) :
    (rows.filter (key · ∉ (t.filter (·.repositoryId = gone)).map (·.id))).filter (key · = x.id) =
      rows.filter (key · = x.id) := by
  have hno : x.id ∉ (t.filter (·.repositoryId = gone)).map (·.id) := by
    intro hm
    obtain ⟨y, hy, hid⟩ := List.mem_map.1 hm
    obtain ⟨hy, hg⟩ := List.mem_filter.1 hy
    exact hr (hk.eq hy hx hid ▸ of_decide_eq_true hg)
  rw [List.filter_filter]
  refine List.filter_congr fun r _ => ?_
  by_cases he : key r = x.id
  · rw [decide_eq_true he, he, decide_eq_true hno]
    rfl
  · rw [decide_eq_false he]
    rfl

theorem Lasting.deleteRepository {gone : Uuid} (hi : Table.Keyed Job.id db.indexes)
    (hs : Table.Keyed Job.id db.searches)
    (hne : repositoryId ≠ gone) : Lasting repositoryId db (db.deleteRepository gone) := by
  have hkeep : ∀ {π : Type} {t : List (Job π)} {x : Job π}, x ∈ t → x.repositoryId = repositoryId →
      x ∈ t.filter (·.repositoryId ≠ gone) := fun hx hr =>
    List.mem_filter.2 ⟨hx, decide_eq_true (hr.trans_ne hne)⟩
  refine ⟨fun x hx hr _ => ?_, fun x hx hr _ => ?_⟩
  · exact ⟨⟨x, hkeep hx hr, rfl⟩, filter_of_kept hi hx (hr.trans_ne hne), filter_of_kept hi hx (hr.trans_ne hne)⟩
  · exact ⟨⟨x, hkeep hx hr, .refl x⟩, filter_of_kept hs hx (hr.trans_ne hne)⟩

end Db

namespace Jobs
variable {env : Env} {now : Time} {a : Action} {s : Jobs} {w : World}

/-- A repository whose identifier is not new was there before. -/
theorem RepositoryChange.earlier {rs : List Repository} (h : RepositoryChange a s rs) (hf : ∀ i ∈ a.ids, i ∉ w.issued)
    {r' : Repository} (hr' : r' ∈ rs) (hid : r'.id ∈ w.issued) : ∃ r ∈ s.db.repositories, r.id = r'.id := by
  cases h with
  | same => exact ⟨r', hr', rfl⟩
  | added hnew =>
    rcases List.mem_append.1 hr' with hr' | hr'
    · exact ⟨r', hr', rfl⟩
    · rw [List.mem_singleton.1 hr'] at hid
      exact absurd hid (hf _ hnew)
  | stored =>
    obtain ⟨r, hr, rfl⟩ := Table.mem_update.1 hr'
    refine ⟨r, hr, ?_⟩
    split <;> rfl
  | removed => exact ⟨r', List.mem_of_mem_filter hr', rfl⟩

/-- A repository that is there after an action keeps its completed generations. -/
theorem lasting (env : Env) (now : Time) (h : Inv w s) (hv : Piped s.db.indexes) {repositoryId : Uuid}
    (hr : ∃ r ∈ (step env now a s).db.repositories, r.id = repositoryId) :
    Db.Lasting repositoryId s.db (step env now a s).db := by
  by_cases ha : a.kind = .removal
  · cases a <;> try cases ha
    case pos.removeRepository.refl userId gone =>
      simp only [step] at hr ⊢
      rcases removeRepository_cases s.db userId gone with he | he
      · rw [he]
        exact .refl _ _
      · rw [he] at hr ⊢
        obtain ⟨r, hr, hid⟩ := hr
        have hne := of_decide_eq_true (List.mem_filter.1 hr).2
        exact .deleteRepository h.indexes.keyed h.searches.keyed (hid ▸ hne)
  · refine ⟨fun x hx _ hs => ?_, fun x hx _ hs => ?_⟩
    · obtain ⟨x', hx', hk⟩ := (indexes_tended env now h.indexes hv ha).later hx
      exact ⟨⟨x', hx', hk.completed hs⟩, index_outputs env now h.indexes ha hx hs⟩
    · obtain ⟨x', hx', hk⟩ := (searches_tended env now h.searches h.profiled ha).later hx
      exact ⟨⟨x', hx', hk.completed hs⟩, search_outputs env now h.searches ha hx hs⟩

/-- The order in which jobs were created, and which indexes are current. -/
structure GenerationInv (now : Time) (s : Jobs) : Prop where
  piped : Piped s.db.indexes
  current : ∀ x ∈ s.db.indexes, x.status = .completed → x.isCurrent = true
  indexOrder : s.db.indexes.Pairwise (·.createdAt ≤ ·.createdAt)
  indexTimes : ∀ x ∈ s.db.indexes, x.createdAt ≤ now
  searchOrder : s.db.searches.Pairwise (·.createdAt ≤ ·.createdAt)
  searchTimes : ∀ x ∈ s.db.searches, x.createdAt ≤ now

theorem GenerationInv.empty (now : Time) : GenerationInv now Jobs.empty :=
  ⟨List.forall_mem_nil _, List.forall_mem_nil _, .nil, List.forall_mem_nil _, .nil, List.forall_mem_nil _⟩

theorem GenerationInv.mono {now' : Time} (h : GenerationInv now s) (hn : now ≤ now') : GenerationInv now' s :=
  { h with
    indexTimes := fun x hx => (h.indexTimes x hx).trans hn
    searchTimes := fun x hx => (h.searchTimes x hx).trans hn }

theorem times_tended {π : Type} [JobData π] {C : Job π → Job π → Prop} {N : π → Prop} {ids : List Uuid}
    {t t' : List (Job π)}
    (h : Job.Tended C N now ids t t') (ht : ∀ x ∈ t, x.createdAt ≤ now) : ∀ x ∈ t', x.createdAt ≤ now := by
  intro x' hx'
  rcases h.earlier hx' with ⟨x, hx, hk⟩ | hn
  · rw [hk.same.2.2]
    exact ht x hx
  · exact hn.createdAt.le

theorem order_tended {π : Type} [JobData π] {C : Job π → Job π → Prop} {N : π → Prop} {ids : List Uuid}
    {t t' : List (Job π)}
    (h : Job.Tended C N now ids t t') (hp : t.Pairwise (·.createdAt ≤ ·.createdAt)) (ht : ∀ x ∈ t, x.createdAt ≤ now) :
    t'.Pairwise (·.createdAt ≤ ·.createdAt) :=
  Table.Grows.pairwise (g := Job.createdAt) h (fun hk => hk.same.2.2) (fun hn => hn.createdAt) hp ht

theorem GenerationInv.step (h : GenerationInv now s) (hi : Inv w s) : GenerationInv now (step env now a s) := by
  by_cases ha : a.kind = .removal
  · cases a <;> try cases ha
    case pos.removeRepository.refl userId gone =>
      simp only [Jobs.step]
      rcases removeRepository_cases s.db userId gone with he | he
      · rw [he]
        exact h
      · rw [he]
        have hsub : ∀ {π : Type} {t : List (Job π)} {x : Job π}, x ∈ t.filter (·.repositoryId ≠ gone) → x ∈ t :=
          List.mem_of_mem_filter
        exact ⟨fun x hx => h.piped x (hsub hx), fun x hx => h.current x (hsub hx), h.indexOrder.filter _,
          fun x hx => h.indexTimes x (hsub hx), h.searchOrder.filter _, fun x hx => h.searchTimes x (hsub hx)⟩
  · have hx := indexes_tended env now hi.indexes h.piped ha
    have hs := searches_tended env now hi.searches hi.profiled ha
    refine ⟨fun x' hx' => ?piped, fun x' hx' hc => ?current, order_tended hx h.indexOrder h.indexTimes,
      times_tended hx h.indexTimes, order_tended hs h.searchOrder h.searchTimes, times_tended hs h.searchTimes⟩
    case piped =>
      rcases hx.earlier hx' with ⟨x, hxm, hk⟩ | hn
      · exact hk.grows.2.2.trans (h.piped x hxm)
      · exact hn.data
    case current =>
      rcases hx.earlier hx' with ⟨x, hxm, hk⟩ | hn
      · by_cases hcx : x.status = .completed
        · have he := hk.completed hcx
          rw [he]
          exact h.current x hxm hcx
        · exact hk.closes hcx hc
      · cases hc.symm.trans hn.status

end Jobs

namespace System
variable {env : Env} {s s' s'' : System}

/-- The invariants behind the results about generations. -/
structure GenInv (env : Env) (s : System) : Prop where
  jobs : JobsInv env s
  chat : ChatInv env s
  generations : s.jobs.GenerationInv s.world.clock

theorem genInv_step (s : System) (a : Action) (h : GenInv env s) : GenInv env (step env s a) := by
  refine ⟨jobsInv_step s a h.jobs, chatInv_step s a h.chat, ?_⟩
  cases a with
  | tick elapsed => exact h.generations.mono (le_add_of_nonneg_right (Int.natCast_nonneg _))
  | jobs a =>
    simp only [step]
    split
    · exact h.generations.step h.jobs.inv
    · exact h.generations
  | chat a =>
    simp only [step]
    split <;> exact h.generations

theorem genInv (env : Env) (acts : List Action) : GenInv env (run env acts) :=
  Machine.invariant
    ⟨jobsInv env [], chatInv env [], Jobs.GenerationInv.empty _⟩
    genInv_step acts

/-- What stays of the repositories of a state in every later one. -/
structure Lasts (s s' : System) : Prop where
  issued : ∀ i ∈ s.world.issued, i ∈ s'.world.issued
  repositories : ∀ r' ∈ s'.jobs.db.repositories, r'.id ∈ s.world.issued → ∃ r ∈ s.jobs.db.repositories, r.id = r'.id
  lasting : ∀ r' ∈ s'.jobs.db.repositories, r'.id ∈ s.world.issued → Db.Lasting r'.id s.jobs.db s'.jobs.db

theorem Lasts.refl (s : System) : Lasts s s :=
  ⟨fun _ hi => hi, fun r hr _ => ⟨r, hr, rfl⟩, fun _ _ _ => .refl _ _⟩

theorem Lasts.trans (h : Lasts s s') (h' : Lasts s' s'') : Lasts s s'' := by
  refine ⟨fun i hi => h'.issued i (h.issued i hi), fun r'' hr'' hid => ?_, fun r'' hr'' hid => ?_⟩
  · obtain ⟨r', hr', he⟩ := h'.repositories r'' hr'' (h.issued _ hid)
    obtain ⟨r, hr, he'⟩ := h.repositories r' hr' (he ▸ hid)
    exact ⟨r, hr, he'.trans he⟩
  · obtain ⟨r', hr', he⟩ := h'.repositories r'' hr'' (h.issued _ hid)
    have hl := h.lasting r' hr' (he ▸ hid)
    rw [he] at hl
    exact hl.trans (h'.lasting r'' hr'' (h.issued _ hid))

theorem lasts_step (s : System) (a : Action) (h : GenInv env s) : Lasts s (step env s a) := by
  cases a with
  | tick elapsed => exact { Lasts.refl s with }
  | jobs a =>
    simp only [step]
    split
    · rename_i hfr
      refine ⟨fun i hi => List.mem_append_left _ hi, fun r' hr' hid => ?_, fun r' hr' hid => ?_⟩
      · have hc := Jobs.repositoryChange env s.world.clock a s.jobs
        exact hc.earlier (fun i hi => hfr.1.2 i hi) hr' hid
      · exact Jobs.lasting env s.world.clock h.jobs.inv h.generations.piped ⟨r', hr', rfl⟩
    · exact .refl s
  | chat a =>
    simp only [step]
    split
    · exact { Lasts.refl s with issued := fun i hi => List.mem_append_left _ hi }
    · exact .refl s

theorem lasts (acts more : List Action) : Lasts (run env acts) ((machine env).exec (run env acts) more) :=
  Machine.relates genInv_step Lasts.refl Lasts.trans lasts_step (genInv env acts) more

end System
end RepoPilot
