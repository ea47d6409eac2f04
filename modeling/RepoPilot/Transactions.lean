import RepoPilot.Jobs

/-! # What each transaction of the job system does

One lemma for each request and one relation for the steps of each kind of worker. Everything proved
about runs of the job system cites these and never unfolds a request or a step again. -/

namespace RepoPilot

instance : JobData ImportData where
  New d := d = ⟨0, 0, 0⟩
  Grows _ _ := True
  refl _ := trivial
  trans _ _ := trivial

/-- An index keeps its source. -/
instance : JobData IndexData where
  New d := d.symbolCount = 0 ∧ d.chunkCount = 0 ∧ d.filesStored = 0
  Grows d d' := d'.importJobId = d.importJobId ∧ d'.commitSha = d.commitSha ∧
    d'.pipelineVersion = d.pipelineVersion
  refl _ := ⟨rfl, rfl, rfl⟩
  trans h h' := ⟨h'.1.trans h.1, h'.2.1.trans h.2.1, h'.2.2.trans h.2.2⟩

/-- A search index keeps its source, its mode and its profile; reservations only grow, within the budget. -/
instance : JobData SearchData where
  New d := d.providerProfile = Searches.profileOf d.mode ∧ d.documentsStored = 0 ∧ d.reservedTokens = 0 ∧
    d.inputTokens = 0
  Grows d d' := d'.sourceIndexId = d.sourceIndexId ∧ d'.mode = d.mode ∧
    d'.providerProfile = d.providerProfile ∧ d.reservedTokens ≤ d'.reservedTokens ∧
    (d.reservedTokens ≤ d.tokenBudget → d'.reservedTokens ≤ d'.tokenBudget)
  refl _ := ⟨rfl, rfl, rfl, le_refl _, fun h => h⟩
  trans h h' := ⟨h'.1.trans h.1, h'.2.1.trans h.2.1, h'.2.2.1.trans h.2.2.1, h.2.2.2.1.trans h'.2.2.2.1,
    fun hb => h'.2.2.2.2 (h.2.2.2.2 hb)⟩

/-! ### Imports -/

namespace Imports
variable {now : Time} {userId repositoryId jobId : Uuid} {limit : Option AppError} {db db' : Db}

theorem create_eq {source : Except AppError (Text × Text)} {p : Db × Repository × ImportJob}
    (h : create now userId source limit repositoryId jobId db = .ok p) :
    ∃ imports, p.1 = { db with repositories := db.repositories ++ [p.2.1], imports := imports } ∧
      p.2.1.id = repositoryId ∧ p.2.1.userId = userId ∧
      Job.insert db.imports (Job.new jobId repositoryId now ⟨0, 0, 0⟩) = some imports := by
  unfold create at h
  simp only [bind_ok] at h
  obtain ⟨-, -, -, -, -, -, ⟨owner, name⟩, -, -, -, -, -, h⟩ := h
  dsimp only at h
  split at h
  · cases h
  · rename_i imports hi
    cases h
    exact ⟨imports, rfl, rfl, rfl, hi⟩

theorem retry_eq {p : Db × Repository × ImportJob}
    (h : retry now userId repositoryId limit jobId db = .ok p) :
    ∃ imports old repository, p.1 = { db with imports := imports } ∧
      db.owned userId repositoryId = .ok (repository, old) ∧
      Job.insert (Table.update (RetryWhere old.id) Job.superseded db.imports)
        (Job.new jobId repository.id now ⟨0, 0, 0⟩) = some imports := by
  unfold retry at h
  simp only [bind_ok, lift_ok] at h
  obtain ⟨-, -, -, -, ⟨repository, old⟩, ho, -, -, h⟩ := h
  dsimp only at h
  split at h
  · cases h
  · rename_i imports hi
    cases h
    exact ⟨imports, old, repository, rfl, ho, hi⟩

theorem cancel_eq (h : cancel now userId repositoryId db = .ok db') :
    ∃ repository job, db.owned userId repositoryId = .ok (repository, job) ∧
      db' = { db with imports := Table.update (CancelWhere job.id) (Job.cancelled now) db.imports } := by
  unfold cancel at h
  simp only [bind_ok, lift_ok] at h
  obtain ⟨⟨repository, job⟩, ho, -, -, h⟩ := h
  cases h
  exact ⟨repository, job, ho, rfl⟩

/-- The worker has not published. -/
def Unpublished (pc : Pc) : Prop := ∀ source result, pc ≠ .published source result

/-- What a step of the import worker can do. -/
inductive Effect (now : Time) (claim : Claim) (input : Input) (pc : Pc) (db : Db) : Pc → Db → Prop
  | idle : Effect now claim input pc db pc db
  | advanced (pc' : Pc) (hpc : Unpublished pc) (h : Unpublished pc') : Effect now claim input pc db pc' db
  | reported {stage : String} {imports : List ImportJob} (pc' : Pc) (hpc : Unpublished pc) (h : Unpublished pc')
    (hr : Job.reportStage now claim stage db.imports = some imports) :
    Effect now claim input pc db pc' { db with imports := imports }
  | published {source : RepositorySource} {result : ArchiveResult} {ids : List Uuid} {db' : Db}
    (hpc : pc = .publish source result) (hin : input = .go ids) (hlen : ids.length = result.files.length)
    (hp : publishResult now claim source result ids db = some db') (hs : source.Storable) :
    Effect now claim input pc db (.published source result) db'
  | failed (failure : Failure) (hpc : pc = .failing failure) :
    Effect now claim input pc db .done (recordFailure now claim failure db)

theorem handler_unpublished (e : Raised) : Unpublished (handler e) := by
  intro source result
  cases e <;> simp [handler]

theorem report_effect {claim : Claim} {input : Input} {pc : Pc} (stage : String) (next : Pc) (hpc : Unpublished pc)
    (h : Unpublished next) :
    Effect now claim input pc db (report now claim stage next db).1 (report now claim stage next db).2 := by
  unfold report
  split
  · exact .reported next hpc h ‹_›
  · exact .advanced (handler .leaseLost) hpc (handler_unpublished _)

theorem step_effect (now : Time) (claim : Claim) (input : Input) (pc : Pc) (db : Db) :
    Effect now claim input pc db (step now claim input pc db).1 (step now claim input pc db).2 := by
  unfold step
  split
  · exact .advanced _ nofun nofun
  · exact report_effect _ _ nofun nofun
  · exact .advanced _ nofun nofun
  · exact report_effect _ _ nofun nofun
  · exact .advanced _ nofun nofun
  · exact report_effect _ _ nofun nofun
  · split
    · split
      · split
        · exact .published rfl rfl ‹_› ‹_› ‹_›
        · exact .advanced (handler .other) nofun (handler_unpublished _)
      · exact .advanced (handler .leaseLost) nofun (handler_unpublished _)
    · exact .idle
  · exact .failed _ rfl
  · exact .idle
  · exact .idle
  · exact .idle
  · rename_i hpub _
    exact .advanced _ hpub (handler_unpublished _)
  · exact .idle

/-- A recorded failure is a fenced write or nothing. -/
theorem recordFailure_eq (now : Time) (claim : Claim) (failure : Failure) (db : Db) :
    recordFailure now claim failure db = db ∨
      ∃ imports, recordFailure now claim failure db = { db with imports := imports } ∧
        (failure.retryable = true ∧ claim.attempt < 3 ∧
            Job.fenced now claim (retryWait now claim failure) db.imports = some imports ∨
          Job.fenced now claim (failedForGood now claim failure) db.imports = some imports) := by
  unfold recordFailure
  dsimp only
  split
  · rename_i hr
    cases hf : Job.fenced now claim (retryWait now claim failure) db.imports with
    | none => exact .inl rfl
    | some imports => exact .inr ⟨imports, rfl, .inl ⟨hr.1, hr.2, rfl⟩⟩
  · cases hf : Job.fenced now claim (failedForGood now claim failure) db.imports with
    | none => exact .inl rfl
    | some imports => exact .inr ⟨imports, rfl, .inr rfl⟩

theorem moves_retryWait {claim : Claim} {failure : Failure} {r : ImportJob}
    (hl : Job.LeaseCondition now claim r) (ha : r.attempts < 3) :
    Job.Moves ⟨now, [], [], some claim.leaseToken, false⟩ r (retryWait now claim failure r) :=
  .requeued ⟨rfl, rfl, rfl⟩ hl.heldBy ha rfl rfl rfl rfl rfl rfl

theorem moves_failedForGood {claim : Claim} {failure : Failure} {r : ImportJob}
    (hl : Job.LeaseCondition now claim r) :
    Job.Moves ⟨now, [], [], some claim.leaseToken, false⟩ r (failedForGood now claim failure r) :=
  .closed ⟨rfl, rfl, rfl⟩ (.inr hl.2.1) (.inr (.inl rfl)) rfl rfl rfl rfl
    (.inl ⟨by simp [failedForGood, Job.failedWith], rfl⟩)

theorem publishResult_eq {claim : Claim} {source : RepositorySource} {result : ArchiveResult} {ids : List Uuid}
    (h : publishResult now claim source result ids db = some db') :
    ∃ imports, Job.fenced now claim (Job.finished now (counters result)) db.imports = some imports ∧
      db' = { db with
        imports := imports
        files := db.files ++ List.zipWith (fileRow claim) ids result.files
        repositories := Table.update (·.id = claim.repositoryId) (stored source now) db.repositories } := by
  unfold publishResult at h
  obtain ⟨imports, hi, rfl⟩ := Option.map_eq_some_iff.1 h
  exact ⟨imports, hi, rfl⟩

/-- On the table of import jobs a step of a worker is a chain of moves of the row it holds. -/
theorem Effect.changes {claim : Claim} {input : Input} {pc pc' : Pc} {w : World}
    (h : Effect now claim input pc db pc' db') (hg : Job.Granted w db.imports claim) :
    Job.Changes ⟨now, [], [], some claim.leaseToken, false⟩ db.imports db'.imports := by
  cases h with
  | idle => exact .refl
  | advanced pc' hpc h => exact .refl
  | reported pc' hpc h hr => exact .reportStage hr
  | published hpc hin hlen hp =>
    obtain ⟨imports, hi, rfl⟩ := publishResult_eq hp
    exact .fenced (fun r _ hl => Job.moves_finished trivial hl) hi
  | failed failure hpc =>
    rcases recordFailure_eq now claim failure db with h | ⟨imports, h, ⟨-, ha, hi⟩ | hi⟩
    · rw [h]; exact .refl
    · rw [h]
      refine Job.Changes.fenced (fun r hr hl => moves_retryWait hl ?_) hi
      rw [(hg.row r hr hl.1 hl.2.2.1).1]
      exact ha
    · rw [h]
      exact .fenced (fun r _ hl => moves_failedForGood hl) hi

/-- A worker that has lost its lease changes nothing. -/
theorem Effect.of_not_live {claim : Claim} {input : Input} {pc pc' : Pc} (h : Effect now claim input pc db pc' db')
    (hl : ¬ Job.lease.Live now claim.jobId claim.leaseToken db.imports) : db' = db := by
  cases h with
  | idle => rfl
  | advanced pc' hpc h => rfl
  | reported pc' hpc h hr => cases hr.symm.trans (Job.fencedIf_of_not_live hl)
  | published hpc hin hlen hp =>
    obtain ⟨imports, hi, -⟩ := publishResult_eq hp
    cases hi.symm.trans (Job.fencedIf_of_not_live hl)
  | failed failure hpc =>
    rcases recordFailure_eq now claim failure db with h | ⟨imports, -, ⟨-, -, hi⟩ | hi⟩
    · exact h
    · cases hi.symm.trans (Job.fencedIf_of_not_live hl)
    · cases hi.symm.trans (Job.fencedIf_of_not_live hl)

/-- What a step leaves alone, and what it adds. -/
theorem Effect.frame {claim : Claim} {input : Input} {pc pc' : Pc} (h : Effect now claim input pc db pc' db') :
    ∃ imports files repositories,
      db' = { db with imports := imports, files := db.files ++ files, repositories := repositories } ∧
      (repositories = db.repositories ∨
        ∃ source, repositories = Table.update (·.id = claim.repositoryId) (stored source now) db.repositories) := by
  cases h with
  | idle => exact ⟨db.imports, [], db.repositories, by rw [List.append_nil], .inl rfl⟩
  | advanced pc' hpc h => exact ⟨db.imports, [], db.repositories, by rw [List.append_nil], .inl rfl⟩
  | reported pc' hpc h hr => exact ⟨_, [], db.repositories, by rw [List.append_nil], .inl rfl⟩
  | published hpc hin hlen hp =>
    obtain ⟨imports, hi, rfl⟩ := publishResult_eq hp
    exact ⟨imports, _, _, rfl, .inr ⟨_, rfl⟩⟩
  | failed failure hpc =>
    rcases recordFailure_eq now claim failure db with h | ⟨imports, h, -⟩
    · rw [h]; exact ⟨db.imports, [], db.repositories, by rw [List.append_nil], .inl rfl⟩
    · rw [h]; exact ⟨imports, [], db.repositories, by rw [List.append_nil], .inl rfl⟩

end Imports

/-! ### Indexes -/

namespace Indexes
variable {now : Time} {userId repositoryId jobId : Uuid} {limit : Option AppError} {db db' : Db}

theorem start_eq {p : Db × RepositoryIndex × Bool} (h : start now userId repositoryId limit jobId db = .ok p) :
    p.1 = db ∨ ∃ repository imported commitSha indexes,
      db.owned userId repositoryId = .ok (repository, imported) ∧ imported.status = .completed ∧
      repository.lastCommitSha = some commitSha ∧
      (∀ l ∈ db.latestIndex repositoryId imported.id,
        l.status.Terminal ∧ (l.status = .completed → l.data.pipelineVersion ≠ pipelineVersion)) ∧
      Job.insert (Table.update (fun i => ∃ l ∈ db.latestIndex repositoryId imported.id, i.id = l.id)
          Job.superseded db.indexes)
        (Job.new jobId repositoryId now ⟨imported.id, commitSha, pipelineVersion, 0, 0, [], 0, 0, 0⟩) =
          some indexes ∧
      p.1 = { db with indexes := indexes } := by
  unfold start at h
  simp only [bind_ok, refuse_ok, lift_ok] at h
  obtain ⟨⟨repository, imported⟩, ho, -, hst, h⟩ := h
  dsimp only at h hst
  cases hsha : repository.lastCommitSha with
  | none => rw [hsha] at h; cases h
  | some commitSha =>
    rw [hsha] at h
    simp only [bind_ok, refuse_ok] at h
    obtain ⟨-, hact, h⟩ := h
    split at h
    · cases h; exact .inl rfl
    · rename_i hnone
      simp only [bind_ok] at h
      obtain ⟨-, -, h⟩ := h
      split at h
      · cases h
      · rename_i indexes hi
        cases h
        refine .inr ⟨repository, imported, commitSha, indexes, ho, not_not.1 hst, hsha, ?_, hi, rfl⟩
        intro l hl
        refine ⟨Status.terminal_iff_not_active.2 fun hla => hact ⟨l, hl, hla⟩, fun hc hv => ?_⟩
        rw [Option.mem_def.1 hl] at hnone
        simp [Option.filter, hc, hv] at hnone

theorem cancel_eq (h : cancel now userId repositoryId db = .ok db') :
    ∃ repository source, db.owned userId repositoryId = .ok (repository, source) ∧
      db' = { db with
        indexes := Table.update (CancelWhere repositoryId source.id) (Job.cancelled now) db.indexes } := by
  unfold cancel at h
  simp only [bind_ok, lift_ok] at h
  obtain ⟨⟨repository, source⟩, ho, -, -, h⟩ := h
  cases h
  exact ⟨repository, source, ho, rfl⟩

/-- What a step of the index worker can do. -/
inductive Effect (env : Env) (now : Time) (claim : Claim) (input : Input) (pc : Pc) (db : Db) : Pc → Db → Prop
  | idle : Effect env now claim input pc db pc db
  | stopped (pc' : Pc) (h : pc' = .done ∨ ∃ code message, pc' = .failing code message)
      (hpc : ∀ source built n, pc ≠ .published source built n) : Effect env now claim input pc db pc' db
  | loaded {job : RepositoryIndex} (hpc : pc = .load) (hj : db.indexes.find? (·.id = claim.jobId) = some job) :
    Effect env now claim input pc db
      (.parsing job.data.importJobId (sourceFiles claim job.data.importJobId db)) db
  | parsing {source : Uuid} {files : List RepositoryFile} {indexes : List RepositoryIndex}
    (hpc : pc = .parsing source files) (hr : Job.reportStage now claim "parsing" db.indexes = some indexes) :
    Effect env now claim input pc db (.parse source files) { db with indexes := indexes }
  | parsed {source : Uuid} {files : List RepositoryFile} {built : Built} (hpc : pc = .parse source files)
    (hb : build env files = .ok built) : Effect env now claim input pc db (.storing source built files.length) db
  | storing {source : Uuid} {built : Built} {n : Nat} {indexes : List RepositoryIndex}
    (hpc : pc = .storing source built n) (hr : Job.reportStage now claim "storing" db.indexes = some indexes) :
    Effect env now claim input pc db (.publish source built n) { db with indexes := indexes }
  | published {source : Uuid} {built : Built} {n : Nat} {ids : List Uuid} {db' : Db}
    (hpc : pc = .publish source built n) (hin : input = .go ids) (hlen : ids.length = built.chunks.length)
    (hp : publishIndex now claim source built n ids db = some db') :
    Effect env now claim input pc db (.published source built n) db'
  | failed {code message : String} (hpc : pc = .failing code message) :
    Effect env now claim input pc db .done (recordFailure now claim code message db)

theorem handler_stops (e : Raised) : handler e = .done ∨ ∃ code message, handler e = .failing code message := by
  cases e
  case leaseLost => exact .inl rfl
  all_goals exact .inr ⟨_, _, rfl⟩

theorem step_effect (env : Env) (now : Time) (claim : Claim) (input : Input) (pc : Pc) (db : Db) :
    Effect env now claim input pc db (step env now claim input pc db).1 (step env now claim input pc db).2 := by
  unfold step
  split
  · show Effect env now claim _ .load db (load claim db) db
    unfold load
    split
    · exact .stopped _ (handler_stops _) nofun
    · split
      · exact .stopped _ (handler_stops _) nofun
      · exact .loaded rfl ‹_›
  · unfold report
    split
    · exact .parsing rfl ‹_›
    · exact .stopped (handler .leaseLost) (handler_stops _) nofun
  · split
    · exact .parsed rfl ‹_›
    · exact .stopped (handler _) (handler_stops _) nofun
  · unfold report
    split
    · exact .storing rfl ‹_›
    · exact .stopped (handler .leaseLost) (handler_stops _) nofun
  · split
    · split
      · exact .published rfl rfl ‹_› ‹_›
      · exact .stopped (handler .leaseLost) (handler_stops _) nofun
    · exact .idle
  · exact .failed rfl
  · exact .idle
  · exact .idle
  · exact .idle
  · rename_i hpub _
    exact .stopped (handler _) (handler_stops _) hpub

theorem publishIndex_eq {claim : Claim} {source : Uuid} {built : Built} {n : Nat} {ids : List Uuid}
    (h : publishIndex now claim source built n ids db = some db') :
    ∃ indexes, Job.fenced now claim (Job.finished now (counters built n)) db.indexes = some indexes ∧
      db' = { db with
        indexes := indexes
        symbols := db.symbols ++ built.symbols.map (symbolRow claim source)
        chunks := db.chunks ++ List.zipWith (chunkRow claim source) ids built.chunks } := by
  unfold publishIndex at h
  obtain ⟨indexes, hi, rfl⟩ := Option.map_eq_some_iff.1 h
  exact ⟨indexes, hi, rfl⟩

theorem recordFailure_eq (now : Time) (claim : Claim) (code message : String) (db : Db) :
    recordFailure now claim code message db = db ∨
      ∃ indexes, Job.fenced now claim (Job.failedWith now code message) db.indexes = some indexes ∧
        recordFailure now claim code message db = { db with indexes := indexes } := by
  unfold recordFailure
  cases hf : Job.fenced now claim (Job.failedWith now code message) db.indexes with
  | none => exact .inl rfl
  | some indexes => exact .inr ⟨indexes, rfl, rfl⟩

theorem Effect.changes {env : Env} {claim : Claim} {input : Input} {pc pc' : Pc}
    (h : Effect env now claim input pc db pc' db') :
    Job.Changes ⟨now, [], [], some claim.leaseToken, false⟩ db.indexes db'.indexes := by
  cases h with
  | idle => exact .refl
  | stopped pc' h hpc => exact .refl
  | loaded hpc hj => exact .refl
  | parsing hpc hr => exact .reportStage hr
  | parsed hpc hb => exact .refl
  | storing hpc hr => exact .reportStage hr
  | published hpc hin hlen hp =>
    obtain ⟨indexes, hi, rfl⟩ := publishIndex_eq hp
    exact .fenced (fun r _ hl => Job.moves_finished ⟨rfl, rfl, rfl⟩ hl) hi
  | failed hpc =>
    rcases recordFailure_eq now claim _ _ db with h | ⟨indexes, hi, h⟩
    · rw [h]; exact .refl
    · rw [h]
      exact .fenced (fun r _ hl => Job.moves_failedWith _ _ (.inr hl.2.1)) hi

/-- A worker that has lost its lease changes nothing. -/
theorem Effect.of_not_live {env : Env} {claim : Claim} {input : Input} {pc pc' : Pc}
    (h : Effect env now claim input pc db pc' db')
    (hl : ¬ Job.lease.Live now claim.jobId claim.leaseToken db.indexes) : db' = db := by
  cases h with
  | idle => rfl
  | stopped pc' h hpc => rfl
  | loaded hpc hj => rfl
  | parsing hpc hr => cases hr.symm.trans (Job.fencedIf_of_not_live hl)
  | parsed hpc hb => rfl
  | storing hpc hr => cases hr.symm.trans (Job.fencedIf_of_not_live hl)
  | published hpc hin hlen hp =>
    obtain ⟨indexes, hi, -⟩ := publishIndex_eq hp
    cases hi.symm.trans (Job.fencedIf_of_not_live hl)
  | failed hpc =>
    rcases recordFailure_eq now claim _ _ db with h | ⟨indexes, hi, -⟩
    · exact h
    · cases hi.symm.trans (Job.fencedIf_of_not_live hl)

theorem Effect.frame {env : Env} {claim : Claim} {input : Input} {pc pc' : Pc}
    (h : Effect env now claim input pc db pc' db') :
    ∃ indexes symbols chunks,
      db' = { db with indexes := indexes, symbols := db.symbols ++ symbols, chunks := db.chunks ++ chunks } := by
  have hnone : db = { db with symbols := db.symbols ++ [], chunks := db.chunks ++ [] } := by
    simp only [List.append_nil]
  cases h with
  | idle => exact ⟨_, _, _, hnone⟩
  | stopped pc' h hpc => exact ⟨_, _, _, hnone⟩
  | loaded hpc hj => exact ⟨_, _, _, hnone⟩
  | @parsing _ _ indexes hpc hr => exact ⟨indexes, [], [], by simp only [List.append_nil]⟩
  | parsed hpc hb => exact ⟨_, _, _, hnone⟩
  | @storing _ _ _ indexes hpc hr => exact ⟨indexes, [], [], by simp only [List.append_nil]⟩
  | published hpc hin hlen hp =>
    obtain ⟨indexes, hi, rfl⟩ := publishIndex_eq hp
    exact ⟨_, _, _, rfl⟩
  | failed hpc =>
    rcases recordFailure_eq now claim _ _ db with h | ⟨indexes, hi, h⟩
    · rw [h]; exact ⟨_, _, _, hnone⟩
    · rw [h]; exact ⟨indexes, [], [], by simp only [List.append_nil]⟩

end Indexes

/-! ### Searches -/

namespace Searches
variable {now : Time} {userId repositoryId jobId : Uuid} {limit : Option AppError} {db db' : Db}

theorem source_eq {index : RepositoryIndex} (h : source db userId repositoryId = .ok index) :
    ∃ repository imported, db.owned userId repositoryId = .ok (repository, imported) ∧
      db.activeIndex repositoryId imported.id = some index := by
  unfold source at h
  split at h
  · cases h
  · split at h
    · cases h
    · cases h
      exact ⟨_, _, ‹_›, ‹_›⟩

theorem start_eq {settings : Settings} {mode : Mode} {p : Db × SearchIndex × Bool}
    (h : start now settings userId repositoryId mode limit jobId db = .ok p) :
    p.1 = db ∨ ∃ index, source db userId repositoryId = .ok index ∧
      (∀ l ∈ db.latestSearch repositoryId, l.status.Terminal) ∧
      (db.activeSearch repositoryId index.id mode).filter (·.data.providerProfile = profileOf mode) = none ∧
      ((∃ l ∈ db.latestSearch repositoryId, Matches index.id mode l ∧
          p.1 = { db with
            searches := Table.update (·.id = l.id) (resumed now settings.embeddingTokenBudget) db.searches }) ∨
        ∃ searches, Job.insert
            (Table.update (fun s => ∃ l ∈ db.latestSearch repositoryId, s.id = l.id) Job.superseded db.searches)
            (Job.new jobId repositoryId now (fresh settings index mode)) = some searches ∧
          p.1 = { db with searches := searches }) := by
  unfold start at h
  simp only [bind_ok, refuse_ok, lift_ok] at h
  obtain ⟨index, hs, -, -, -, hact, h⟩ := h
  have hterm : ∀ l ∈ db.latestSearch repositoryId, l.status.Terminal := fun l hl =>
    Status.terminal_iff_not_active.2 fun hla => hact ⟨l, hl, hla⟩
  split at h
  · cases h; exact .inl rfl
  · rename_i hex
    simp only [bind_ok] at h
    obtain ⟨-, -, h⟩ := h
    refine .inr ⟨index, hs, hterm, hex, ?_⟩
    split at h
    · rename_i l hl
      cases h
      obtain ⟨hl, hm⟩ := Option.filter_eq_some_iff.1 hl
      exact .inl ⟨l, hl, of_decide_eq_true hm, rfl⟩
    · split at h
      · cases h
      · rename_i searches hi
        cases h
        exact .inr ⟨searches, hi, rfl⟩

theorem cancel_eq (h : cancel now userId repositoryId db = .ok db') :
    (∃ p, db.owned userId repositoryId = .ok p) ∧
      db' = { db with searches := Table.update (CancelWhere repositoryId) (Job.cancelled now) db.searches } := by
  unfold cancel at h
  simp only [bind_ok, lift_ok] at h
  obtain ⟨p, ho, -, -, h⟩ := h
  cases h
  exact ⟨⟨p, ho⟩, rfl⟩

/-- The chunks a worker that starts now has still to store. -/
def pendingChunks (claim : Claim) (job : SearchIndex) (db : Db) : List Db.SourceChunk :=
  (db.sourceChunks job.data.sourceIndexId none).filter
    (·.id ∉ (db.documents.filter (·.searchIndexId = claim.jobId)).map (·.chunkId))

def planOf (provider : Option EmbeddingProvider) (job : SearchIndex) : Plan :=
  ⟨job.data.mode, job.data.sourceIndexId, provider⟩

/-- What a step of the preparation worker can do. -/
inductive Effect (env : Env) (now : Time) (claim : Claim) (provider : Option EmbeddingProvider) (input : Input)
    (pc : Pc) (db : Db) : Pc → Db → Prop
  | idle (hc : embedCall env pc input = none) : Effect env now claim provider input pc db pc db
  | stopped (pc' : Pc) (h : pc' = .done ∨ ∃ code message, pc' = .failing code message)
    (hc : embedCall env pc input = none) : Effect env now claim provider input pc db pc' db
  | loaded {job : SearchIndex} (hpc : pc = .load) (hj : db.searches.find? (·.id = claim.jobId) = some job)
    (hpre : job.data.mode = .hybrid →
      job.data.reservedTokens + (planOf provider job).tokens env (pendingChunks claim job db) ≤
        job.data.tokenBudget) :
    Effect env now claim provider input pc db (.reporting (planOf provider job) (pendingChunks claim job db)) db
  | reported {plan : Plan} {pending : List Db.SourceChunk} {stage : String} {searches : List SearchIndex}
    (hpc : pc = .reporting plan pending) (hr : Job.reportStage now claim stage db.searches = some searches) :
    Effect env now claim provider input pc db (.batch plan pending) { db with searches := searches }
  | emptied {plan : Plan} (hpc : pc = .batch plan []) :
    Effect env now claim provider input pc db (.complete plan) db
  | lexical {plan : Plan} {pending : List Db.SourceChunk} (hpc : pc = .batch plan pending) (hp : pending ≠ [])
    (hm : plan.mode = .keyword) :
    Effect env now claim provider input pc db (.checkpoint plan pending ((head pending).map fun _ => none) 0) db
  | semantic {plan : Plan} {pending : List Db.SourceChunk} (hpc : pc = .batch plan pending) (hp : pending ≠ [])
    (hm : plan.mode = .hybrid) : Effect env now claim provider input pc db (.reserve plan pending) db
  | reserved {plan : Plan} {pending : List Db.SourceChunk} {db' : Db} (hpc : pc = .reserve plan pending)
    (hr : reserve now claim (plan.tokens env (head pending)) db = some db') :
    Effect env now claim provider input pc db (.embed plan pending) db'
  | called {plan : Plan} {pending : List Db.SourceChunk} (hpc : pc = .embed plan pending) (hin : input = .go) :
    Effect env now claim provider input pc db (.embedding plan pending) db
  | answered {plan : Plan} {pending : List Db.SourceChunk} {vectors : List (Option Vector)}
    (hpc : pc = .embedding plan pending) (hlen : vectors.length = (head pending).length)
    (hsome : ∀ v ∈ vectors, v.isSome) :
    Effect env now claim provider input pc db
      (.checkpoint plan pending vectors (plan.tokens env (head pending))) db
  | stored {plan : Plan} {pending : List Db.SourceChunk} {vectors : List (Option Vector)} {usage : Nat} {db' : Db}
    (hpc : pc = .checkpoint plan pending vectors usage)
    (hc : checkpoint now claim (List.zipWith (document env plan claim) (head pending) vectors) usage db = some db') :
    Effect env now claim provider input pc db (.batch plan (pending.drop 8)) db'
  | completed {plan : Plan} {db' : Db} (hpc : pc = .complete plan) (hc : complete now claim db = some db') :
    Effect env now claim provider input pc db .done db'
  | failed {code message : String} (hpc : pc = .failing code message) :
    Effect env now claim provider input pc db .done (recordFailure now claim code message db)

theorem handler_stops (e : Raised) : handler e = .done ∨ ∃ code message, handler e = .failing code message := by
  cases e
  case leaseLost => exact .inl rfl
  all_goals exact .inr ⟨_, _, rfl⟩

theorem aggregateAll_ok {env : Env} {vectors : List Vector} {parts : List (List (List Nat))}
    {result : List (Option Vector)} (h : aggregateAll env vectors parts = .ok result) :
    result.length = parts.length ∧ ∀ v ∈ result, v.isSome := by
  induction parts generalizing vectors result with
  | nil => cases h; exact ⟨rfl, by simp⟩
  | cons p parts ih =>
    simp only [aggregateAll, bind_ok] at h
    obtain ⟨v, -, rest, hr, h⟩ := h
    cases h
    obtain ⟨hl, hs⟩ := ih hr
    refine ⟨by simp [hl], fun u hu => ?_⟩
    rcases List.mem_cons.1 hu with rfl | hu
    · rfl
    · exact hs u hu

section Steps
variable {env : Env} {claim : Claim} {provider : Option EmbeddingProvider} {input : Input}

theorem load_effect :
    Effect env now claim provider input .load db (load env provider claim db) db := by
  unfold load
  split
  · exact .stopped _ (handler_stops _) rfl
  · rename_i job hj
    split
    · exact .stopped _ (handler_stops _) rfl
    · split
      · exact .stopped _ (handler_stops _) rfl
      · dsimp only
        split
        · exact .stopped _ (handler_stops _) rfl
        · rename_i hpre
          refine .loaded rfl hj fun hm => ?_
          exact not_lt.1 fun hlt => hpre ⟨hm, hlt⟩

theorem embedded_effect {plan : Plan} {pending : List Db.SourceChunk} {response : EmbeddingBatch} :
    Effect env now claim provider input (.embedding plan pending) db (embedded env plan pending response) db := by
  unfold embedded
  dsimp only
  split
  · exact .stopped _ (handler_stops _) rfl
  · split
    · exact .stopped _ (handler_stops _) rfl
    · rename_i hv
      obtain ⟨hl, hs⟩ := aggregateAll_ok hv
      exact .answered rfl (by simpa using hl) hs

theorem store_effect {plan : Plan} {pending : List Db.SourceChunk} {vectors : List (Option Vector)} {usage : Nat} :
    Effect env now claim provider input (.checkpoint plan pending vectors usage) db
      (store env now claim plan pending vectors usage db).1 (store env now claim plan pending vectors usage db).2 := by
  unfold store
  dsimp only
  split
  · exact .stopped (handler .leaseLost) (handler_stops _) rfl
  · split
    · exact .stored rfl ‹_›
    · exact .stopped (handler .other) (handler_stops _) rfl

theorem step_effect (env : Env) (now : Time) (claim : Claim) (provider : Option EmbeddingProvider) (input : Input)
    (pc : Pc) (db : Db) :
    Effect env now claim provider input pc db (step env now claim provider input pc db).1
      (step env now claim provider input pc db).2 := by
  unfold step
  split
  · exact load_effect
  · split
    · exact .reported rfl ‹_›
    · exact .stopped (handler .leaseLost) (handler_stops _) rfl
  · split
    · rename_i hp
      subst hp
      exact .emptied rfl
    · rename_i hp
      split
      · rename_i hm
        exact .lexical rfl hp hm
      · exact .stopped (handler (.app _)) (handler_stops (.app _)) rfl
      · rename_i hm _
        exact .semantic rfl hp hm
  · split
    · exact .reserved rfl ‹_›
    · exact .stopped (handler (.app _)) (handler_stops (.app _)) rfl
  · exact .called rfl rfl
  · exact embedded_effect
  · exact store_effect
  · split
    · exact .completed rfl ‹_›
    · exact .stopped (handler .leaseLost) (handler_stops _) rfl
  · exact .failed rfl
  · exact .idle rfl
  · exact .idle rfl
  · exact .stopped (handler _) (handler_stops _) (by cases pc <;> rfl)
  · rename_i hembed _ _ _ _
    refine .idle ?_
    unfold embedCall
    split
    · exact absurd rfl (hembed _ _ rfl)
    · rfl

end Steps

section Writes
variable {claim : Claim}

theorem reserve_eq {tokens : Nat} (h : reserve now claim tokens db = some db') :
    ∃ searches, Job.fencedIf now claim (Affordable tokens) (addReserved tokens) db.searches = some searches ∧
      db' = { db with searches := searches } := by
  unfold reserve at h
  obtain ⟨searches, hi, rfl⟩ := Option.map_eq_some_iff.1 h
  exact ⟨searches, hi, rfl⟩

theorem checkpoint_eq {documents : List SearchDocument} {usage : Nat}
    (h : checkpoint now claim documents usage db = some db') :
    ∃ searches, Job.fenced now claim (addStored documents.length usage) db.searches = some searches ∧
      db' = { db with searches := searches, documents := db.documents ++ documents } := by
  unfold checkpoint at h
  obtain ⟨searches, hi, rfl⟩ := Option.map_eq_some_iff.1 h
  exact ⟨searches, hi, rfl⟩

theorem complete_eq (h : complete now claim db = some db') :
    ∃ searches, Job.fenced now claim (Job.finished now id) db.searches = some searches ∧
      db' = { db with searches := searches } := by
  unfold complete at h
  obtain ⟨searches, hi, rfl⟩ := Option.map_eq_some_iff.1 h
  exact ⟨searches, hi, rfl⟩

theorem recordFailure_eq (now : Time) (claim : Claim) (code message : String) (db : Db) :
    recordFailure now claim code message db = db ∨
      ∃ searches, Job.fenced now claim (Job.failedWith now code message) db.searches = some searches ∧
        recordFailure now claim code message db = { db with searches := searches } := by
  unfold recordFailure
  cases hf : Job.fenced now claim (Job.failedWith now code message) db.searches with
  | none => exact .inl rfl
  | some searches => exact .inr ⟨searches, rfl, rfl⟩

theorem moves_addReserved {tokens : Nat} {r : SearchIndex}
    (hl : Job.LeaseCondition now claim r) (ha : Affordable tokens r) :
    Job.Moves ⟨now, [], [], some claim.leaseToken, false⟩ r (addReserved tokens r) :=
  .kept ⟨rfl, rfl, rfl⟩ ⟨rfl, rfl, rfl, rfl⟩ rfl
    (.inr ⟨hl.heldBy, rfl, rfl, rfl, Nat.le_add_right _ _, fun _ => ha⟩)

theorem moves_addStored {count usage : Nat} {r : SearchIndex}
    (hl : Job.LeaseCondition now claim r) :
    Job.Moves ⟨now, [], [], some claim.leaseToken, false⟩ r (addStored count usage r) :=
  .kept ⟨rfl, rfl, rfl⟩ ⟨rfl, rfl, rfl, rfl⟩ rfl (.inr ⟨hl.heldBy, rfl, rfl, rfl, le_refl _, fun h => h⟩)

theorem Effect.changes {env : Env} {provider : Option EmbeddingProvider} {input : Input} {pc pc' : Pc}
    (h : Effect env now claim provider input pc db pc' db') :
    Job.Changes ⟨now, [], [], some claim.leaseToken, false⟩ db.searches db'.searches := by
  cases h with
  | idle hc => exact .refl
  | stopped pc' h hc => exact .refl
  | loaded hpc hj hpre => exact .refl
  | reported hpc hr => exact .reportStage hr
  | emptied hpc => exact .refl
  | lexical hpc hp hm => exact .refl
  | semantic hpc hp hm => exact .refl
  | reserved hpc hr =>
    obtain ⟨searches, hi, rfl⟩ := reserve_eq hr
    exact .fencedIf (fun r _ hl ha => moves_addReserved hl ha) hi
  | called hpc hin => exact .refl
  | answered hpc hlen hsome => exact .refl
  | stored hpc hc =>
    obtain ⟨searches, hi, rfl⟩ := checkpoint_eq hc
    exact .fenced (fun r _ hl => moves_addStored hl) hi
  | completed hpc hc =>
    obtain ⟨searches, hi, rfl⟩ := complete_eq hc
    exact .fenced (fun r _ hl => Job.moves_finished (JobData.refl _) hl) hi
  | failed hpc =>
    rcases recordFailure_eq now claim _ _ db with h | ⟨searches, hi, h⟩
    · rw [h]; exact .refl
    · rw [h]
      exact .fenced (fun r _ hl => Job.moves_failedWith _ _ (.inr hl.2.1)) hi

theorem Effect.frame {env : Env} {provider : Option EmbeddingProvider} {input : Input} {pc pc' : Pc}
    (h : Effect env now claim provider input pc db pc' db') :
    ∃ searches documents, db' = { db with searches := searches, documents := db.documents ++ documents } := by
  have hnone : db = { db with documents := db.documents ++ [] } := by simp only [List.append_nil]
  cases h with
  | idle hc => exact ⟨_, _, hnone⟩
  | stopped pc' h hc => exact ⟨_, _, hnone⟩
  | loaded hpc hj hpre => exact ⟨_, _, hnone⟩
  | @reported _ _ _ searches hpc hr => exact ⟨searches, [], by simp only [List.append_nil]⟩
  | emptied hpc => exact ⟨_, _, hnone⟩
  | lexical hpc hp hm => exact ⟨_, _, hnone⟩
  | semantic hpc hp hm => exact ⟨_, _, hnone⟩
  | reserved hpc hr =>
    obtain ⟨searches, hi, rfl⟩ := reserve_eq hr
    exact ⟨searches, [], by simp only [List.append_nil]⟩
  | called hpc hin => exact ⟨_, _, hnone⟩
  | answered hpc hlen hsome => exact ⟨_, _, hnone⟩
  | stored hpc hc =>
    obtain ⟨searches, hi, rfl⟩ := checkpoint_eq hc
    exact ⟨_, _, rfl⟩
  | completed hpc hc =>
    obtain ⟨searches, hi, rfl⟩ := complete_eq hc
    exact ⟨searches, [], by simp only [List.append_nil]⟩
  | failed hpc =>
    rcases recordFailure_eq now claim _ _ db with h | ⟨searches, hi, h⟩
    · rw [h]; exact ⟨_, _, hnone⟩
    · rw [h]; exact ⟨searches, [], by simp only [List.append_nil]⟩

end Writes

end Searches
end RepoPilot
