import RepoPilot.System

/-! # Jobs end in time

A job is claimed three times at most, a claim holds its lease for three minutes, and an import that failed
waits for half a minute per attempt. So if no job that can be claimed waits longer than `wait` seconds for
a worker, its time is bounded: after that it has ended, or its last lease has, and then the next dispatcher
cycle ends it. -/

namespace RepoPilot

theorem seconds_add (m n : Nat) : seconds (m + n) = seconds m + seconds n := by
  unfold seconds
  push_cast
  ring

theorem seconds_mono {m n : Nat} (h : m ≤ n) : seconds m ≤ seconds n := by
  unfold seconds
  exact_mod_cast Nat.mul_le_mul_right _ h

namespace Job
variable {π : Type}

/-- How one transaction leaves the columns that tell when a job runs. -/
inductive Aged (now : Time) (delay : Nat) (r r' : Job π) : Prop
  | kept (status : r'.status = r.status) (attempts : r'.attempts = r.attempts)
    (lease : r'.leaseExpiresAt = r.leaseExpiresAt) (available : r'.availableAt = r.availableAt)
  | claimed (was : ClaimWhere now r.id r) (status : r'.status = .running) (attempts : r'.attempts = r.attempts + 1)
    (lease : r'.leaseExpiresAt = some (now + seconds 180)) (available : r'.availableAt = r.availableAt)
  | requeued (was : r.status = .running) (live : Future r.leaseExpiresAt now) (status : r'.status = .queued)
    (attempts : r'.attempts = r.attempts) (available : r'.availableAt = now + seconds (delay * r.attempts))
  | ended (status : r'.status.Terminal)

/-- A job that has just been asked for, or asked for again. -/
structure Begun (now : Time) (since : Job π → Time) (r : Job π) : Prop where
  status : r.status = .queued
  attempts : r.attempts = 0
  available : r.availableAt = now
  since : since r = now

/-- Where a job of the next table comes from; `since` tells when it was asked for. -/
def Ages (now : Time) (delay : Nat) (since : Job π → Time) (t : List (Job π)) (r' : Job π) : Prop :=
  (∃ r ∈ t, since r' = since r ∧ Aged now delay r r') ∨ Begun now since r'

section
variable {now : Time} {delay : Nat} {since : Job π → Time} {t t' : List (Job π)} {r' : Job π} {c : Claim}

theorem Ages.of_mem (h : r' ∈ t) : Ages now delay since t r' := .inl ⟨r', h, rfl, .kept rfl rfl rfl rfl⟩

/-- An update of the jobs whose rows age. -/
theorem Ages.update {p : Job π → Prop} [DecidablePred p] {f : Job π → Job π} (h : r' ∈ Table.update p f t)
    (hf : ∀ r ∈ t, p r → since (f r) = since r ∧ Aged now delay r (f r)) : Ages now delay since t r' := by
  obtain ⟨r, hr, rfl⟩ := Table.mem_update.1 h
  refine .inl ⟨r, hr, ?_⟩
  split
  · exact hf r hr ‹_›
  · exact ⟨rfl, .kept rfl rfl rfl rfl⟩

theorem Ages.fencedIf {guard : Job π → Prop} [DecidablePred guard] {f : Job π → Job π}
    (ht : Job.fencedIf now c guard f t = some t') (h : r' ∈ t')
    (hf : ∀ r ∈ t, LeaseCondition now c r → since (f r) = since r ∧ Aged now delay r (f r)) :
    Ages now delay since t r' := by
  obtain ⟨-, rfl⟩ := fencedIf_isSome ht
  exact .update h fun r hr hp => hf r hr hp.1

theorem Ages.reportStage {stage : String} (hs : ∀ r : Job π, since { r with stage := stage } = since r)
    (ht : Job.reportStage now c stage t = some t') (h : r' ∈ t') : Ages now delay since t r' :=
  .fencedIf ht h fun r _ _ => ⟨hs r, .kept rfl rfl rfl rfl⟩

theorem Ages.claimJob {repositories : List Repository} {jobId token : Uuid} {p : List (Job π) × Claim}
    (hs : ∀ r : Job π, since (claimed now token r) = since r)
    (ht : Job.claimJob now repositories jobId token t = some p) (h : r' ∈ p.1) : Ages now delay since t r' := by
  obtain ⟨-, -, -, -, he, -⟩ := claimJob_eq ht
  rw [he] at h
  exact .update h fun r _ hw => ⟨hs r, .claimed ⟨rfl, hw.2⟩ rfl rfl rfl rfl⟩

/-- A new job, after a job that is over has made room for it. -/
theorem Ages.insert {p : Job π → Prop} [DecidablePred p] {id repositoryId : Uuid} {data : π}
    (hs : ∀ r : Job π, since (superseded r) = since r) (hn : since (Job.new id repositoryId now data) = now)
    (ht : Job.insert (Table.update p superseded t) (Job.new id repositoryId now data) = some t') (h : r' ∈ t') :
    Ages now delay since t r' := by
  rcases mem_of_insert ht h with h | rfl
  · exact .update h fun r _ _ => ⟨hs r, .kept rfl rfl rfl rfl⟩
  · exact .inr ⟨rfl, rfl, rfl, hn⟩

end
end Job

theorem Cycle.ages {π : Type} {now : Time} {delay : Nat} {since : Job π → Time} {t : List (Job π)} {r' : Job π}
    {input : Input} {cycles : List Cycle}
    (hl : ∀ code message (r : Job π), since (Job.failedWith now code message r) = since r)
    (hd : ∀ time (r : Job π), since { r with lastDispatchedAt := some time } = since r)
    (h : r' ∈ (step now input t cycles).1) : Job.Ages now delay since t r' := by
  unfold step at h
  split at h
  · exact .update h fun r _ _ => ⟨hl _ _ r, .ended (.inr (.inl rfl))⟩
  · split at h <;> exact .of_mem h
  · split at h
    · dsimp only at h
      split at h
      · exact .update h fun r _ _ => ⟨hd _ r, .kept rfl rfl rfl rfl⟩
      · exact .of_mem h
    · exact .of_mem h

/-! ### The three job tables -/

section Workers
variable {now : Time} {claim : Claim} {db db' : Db} {w : World}

theorem Imports.Effect.ages {input : Imports.Input} {pc pc' : Imports.Pc} {r' : ImportJob}
    (h : Imports.Effect now claim input pc db pc' db') (hg : Job.Granted w db.imports claim) (hr' : r' ∈ db'.imports) :
    Job.Ages now 30 Job.createdAt db.imports r' := by
  cases h with
  | idle | advanced => exact .of_mem hr'
  | reported pc' hpc h hr => exact .reportStage (fun _ => rfl) hr hr'
  | published hpc hin hlen hp =>
    obtain ⟨imports, hi, rfl⟩ := Imports.publishResult_eq hp
    exact .fencedIf hi hr' fun _ _ _ => ⟨rfl, .ended (.inl rfl)⟩
  | failed failure hpc =>
    rcases Imports.recordFailure_eq now claim failure db with h | ⟨imports, h, ⟨-, -, hi⟩ | hi⟩ <;> rw [h] at hr'
    · exact .of_mem hr'
    · refine .fencedIf hi hr' fun r hr hl => ⟨rfl, .requeued hl.2.1 hl.2.2.2.2 rfl rfl ?_⟩
      rw [(hg.row r hr hl.1 hl.2.2.1).1]
      rfl
    · exact .fencedIf hi hr' fun _ _ _ => ⟨rfl, .ended (.inr (.inl rfl))⟩

theorem Indexes.Effect.ages {env : Env} {input : Indexes.Input} {pc pc' : Indexes.Pc} {r' : RepositoryIndex}
    (h : Indexes.Effect env now claim input pc db pc' db') (hr' : r' ∈ db'.indexes) :
    Job.Ages now 0 Job.createdAt db.indexes r' := by
  cases h with
  | idle | stopped | loaded | parsed => exact .of_mem hr'
  | parsing hpc hr | storing hpc hr => exact .reportStage (fun _ => rfl) hr hr'
  | published hpc hin hlen hp =>
    obtain ⟨indexes, hi, rfl⟩ := Indexes.publishIndex_eq hp
    exact .fencedIf hi hr' fun _ _ _ => ⟨rfl, .ended (.inl rfl)⟩
  | failed hpc =>
    rcases Indexes.recordFailure_eq now claim _ _ db with h | ⟨indexes, hi, h⟩ <;> rw [h] at hr'
    · exact .of_mem hr'
    · exact .fencedIf hi hr' fun _ _ _ => ⟨rfl, .ended (.inr (.inl rfl))⟩

theorem Searches.Effect.ages {env : Env} {provider : Option EmbeddingProvider} {input : Searches.Input}
    {pc pc' : Searches.Pc} {r' : SearchIndex} (h : Searches.Effect env now claim provider input pc db pc' db')
    (hr' : r' ∈ db'.searches) : Job.Ages now 0 Job.availableAt db.searches r' := by
  cases h with
  | idle | stopped | loaded | emptied | lexical | semantic | called | answered => exact .of_mem hr'
  | reported hpc hr => exact .reportStage (fun _ => rfl) hr hr'
  | reserved hpc hr =>
    obtain ⟨searches, hi, rfl⟩ := Searches.reserve_eq hr
    exact .fencedIf hi hr' fun _ _ _ => ⟨rfl, .kept rfl rfl rfl rfl⟩
  | stored hpc hc =>
    obtain ⟨searches, hi, rfl⟩ := Searches.checkpoint_eq hc
    exact .fencedIf hi hr' fun _ _ _ => ⟨rfl, .kept rfl rfl rfl rfl⟩
  | completed hpc hc =>
    obtain ⟨searches, hi, rfl⟩ := Searches.complete_eq hc
    exact .fencedIf hi hr' fun _ _ _ => ⟨rfl, .ended (.inl rfl)⟩
  | failed hpc =>
    rcases Searches.recordFailure_eq now claim _ _ db with h | ⟨searches, hi, h⟩ <;> rw [h] at hr'
    · exact .of_mem hr'
    · exact .fencedIf hi hr' fun _ _ _ => ⟨rfl, .ended (.inr (.inl rfl))⟩

end Workers

namespace Jobs
variable {env : Env} {now : Time} {s : Jobs} {w : World}

/-- Every action ages the imports. -/
theorem imports_age (a : Action) (hc : ∀ k ∈ s.importWorkers, Job.Granted w s.db.imports k.claim) {r' : ImportJob}
    (hr' : r' ∈ (step env now a s).db.imports) : Job.Ages now 30 Job.createdAt s.db.imports r' := by
  cases hk : a.kind with
  | indexes => rw [(frame_indexes _ _ _ hk).2.1] at hr'; exact .of_mem hr'
  | searches => rw [(frame_searches _ _ _ hk).2.1] at hr'; exact .of_mem hr'
  | removal =>
    cases a <;> try cases hk
    case removal.removeRepository.refl userId repositoryId =>
      rcases removeRepository_cases s.db userId repositoryId with h | h <;> simp only [step, h] at hr'
      · exact .of_mem hr'
      · exact .of_mem (List.mem_of_mem_filter hr')
  | imports =>
    cases a <;> try cases hk
    case imports.createImport.refl userId source limit repositoryId jobId =>
      rcases committed_cases s.db (Imports.create now userId source limit repositoryId jobId s.db) with
        h | ⟨p, hp, h⟩ <;> simp only [step, h] at hr'
      · exact .of_mem hr'
      · obtain ⟨imports, he, -, -, hi⟩ := Imports.create_eq hp
        rw [he] at hr'
        rcases Job.mem_of_insert hi hr' with hr' | rfl
        · exact .of_mem hr'
        · exact .inr ⟨rfl, rfl, rfl, rfl⟩
    case imports.retryImport.refl userId repositoryId limit jobId =>
      rcases committed_cases s.db (Imports.retry now userId repositoryId limit jobId s.db) with
        h | ⟨p, hp, h⟩ <;> simp only [step, h] at hr'
      · exact .of_mem hr'
      · obtain ⟨imports, old, repository, he, -, hi⟩ := Imports.retry_eq hp
        rw [he] at hr'
        exact .insert (fun _ => rfl) rfl hi hr'
    case imports.cancelImport.refl userId repositoryId =>
      rcases committed_map_cases s.db (Imports.cancel now userId repositoryId s.db) with h | ⟨db', hp, h⟩ <;>
        simp only [step, h] at hr'
      · exact .of_mem hr'
      · obtain ⟨-, job, -, he⟩ := Imports.cancel_eq hp
        rw [he] at hr'
        exact .update hr' fun _ _ _ => ⟨rfl, .ended (.inr (.inr rfl))⟩
    case imports.claimImport.refl jobId token =>
      simp only [step, claimImport] at hr'
      split at hr'
      · exact .claimJob (fun _ => rfl) ‹_› hr'
      · exact .of_mem hr'
    case imports.importStep.refl i input =>
      simp only [step, importStep] at hr'
      split at hr'
      · rename_i k hk
        exact (Imports.step_effect now k.claim input k.pc s.db).ages (hc k (Table.mem_of_getElem? hk)) hr'
      · exact .of_mem hr'
    case imports.importCycle.refl input => exact Cycle.ages (fun _ _ _ => rfl) (fun _ _ => rfl) hr'

/-- Every action ages the indexes. -/
theorem indexes_age (a : Action) {r' : RepositoryIndex} (hr' : r' ∈ (step env now a s).db.indexes) :
    Job.Ages now 0 Job.createdAt s.db.indexes r' := by
  cases hk : a.kind with
  | imports => rw [(frame_imports _ _ _ hk).1] at hr'; exact .of_mem hr'
  | searches => rw [(frame_searches _ _ _ hk).2.2.2.1] at hr'; exact .of_mem hr'
  | removal =>
    cases a <;> try cases hk
    case removal.removeRepository.refl userId repositoryId =>
      rcases removeRepository_cases s.db userId repositoryId with h | h <;> simp only [step, h] at hr'
      · exact .of_mem hr'
      · exact .of_mem (List.mem_of_mem_filter hr')
  | indexes =>
    cases a <;> try cases hk
    case indexes.startIndex.refl userId repositoryId limit jobId =>
      rcases committed_cases s.db (Indexes.start now userId repositoryId limit jobId s.db) with
        h | ⟨p, hp, h⟩ <;> simp only [step, h] at hr'
      · exact .of_mem hr'
      · rcases Indexes.start_eq hp with he | ⟨_, _, _, indexes, -, -, -, -, hi, he⟩ <;> rw [he] at hr'
        · exact .of_mem hr'
        · exact .insert (fun _ => rfl) rfl hi hr'
    case indexes.cancelIndex.refl userId repositoryId =>
      rcases committed_map_cases s.db (Indexes.cancel now userId repositoryId s.db) with h | ⟨db', hp, h⟩ <;>
        simp only [step, h] at hr'
      · exact .of_mem hr'
      · obtain ⟨-, source, -, he⟩ := Indexes.cancel_eq hp
        rw [he] at hr'
        exact .update hr' fun _ _ _ => ⟨rfl, .ended (.inr (.inr rfl))⟩
    case indexes.claimIndex.refl jobId token =>
      simp only [step, claimIndex] at hr'
      split at hr'
      · exact .claimJob (fun _ => rfl) ‹_› hr'
      · exact .of_mem hr'
    case indexes.indexStep.refl i input =>
      simp only [step, indexStep] at hr'
      split at hr'
      · rename_i k hk
        exact (Indexes.step_effect env now k.claim input k.pc s.db).ages hr'
      · exact .of_mem hr'
    case indexes.indexCycle.refl input => exact Cycle.ages (fun _ _ _ => rfl) (fun _ _ => rfl) hr'

/-- Every action ages the search indexes, which begin again when they are resumed. -/
theorem searches_age (a : Action) {r' : SearchIndex} (hr' : r' ∈ (step env now a s).db.searches) :
    Job.Ages now 0 Job.availableAt s.db.searches r' := by
  cases hk : a.kind with
  | imports => rw [(frame_imports _ _ _ hk).2.2.2.1] at hr'; exact .of_mem hr'
  | indexes => rw [(frame_indexes _ _ _ hk).2.2.2.1] at hr'; exact .of_mem hr'
  | removal =>
    cases a <;> try cases hk
    case removal.removeRepository.refl userId repositoryId =>
      rcases removeRepository_cases s.db userId repositoryId with h | h <;> simp only [step, h] at hr'
      · exact .of_mem hr'
      · exact .of_mem (List.mem_of_mem_filter hr')
  | searches =>
    cases a <;> try cases hk
    case searches.startSearch.refl settings userId repositoryId mode limit jobId =>
      rcases committed_cases s.db (Searches.start now settings userId repositoryId mode limit jobId s.db) with
        h | ⟨p, hp, h⟩ <;> simp only [step, h] at hr'
      · exact .of_mem hr'
      · rcases Searches.start_eq hp with he | ⟨index, -, -, -, ⟨l, -, -, he⟩ | ⟨searches, hi, he⟩⟩ <;> rw [he] at hr'
        · exact .of_mem hr'
        · obtain ⟨r, hr, rfl⟩ := Table.mem_update.1 hr'
          split
          · exact .inr ⟨rfl, rfl, rfl, rfl⟩
          · exact .of_mem hr
        · exact .insert (fun _ => rfl) rfl hi hr'
    case searches.cancelSearch.refl userId repositoryId =>
      rcases committed_map_cases s.db (Searches.cancel now userId repositoryId s.db) with h | ⟨db', hp, h⟩ <;>
        simp only [step, h] at hr'
      · exact .of_mem hr'
      · rw [(Searches.cancel_eq hp).2] at hr'
        exact .update hr' fun _ _ _ => ⟨rfl, .ended (.inr (.inr rfl))⟩
    case searches.claimSearch.refl jobId token provider =>
      simp only [step, claimSearch] at hr'
      split at hr'
      · exact .claimJob (fun _ => rfl) ‹_› hr'
      · exact .of_mem hr'
    case searches.searchStep.refl i input =>
      simp only [step, searchStep] at hr'
      split at hr'
      · rename_i k hk
        exact (Searches.step_effect env now k.claim k.provider input k.pc s.db).ages hr'
      · exact .of_mem hr'
    case searches.searchCycle.refl input => exact Cycle.ages (fun _ _ _ => rfl) (fun _ _ => rfl) hr'

end Jobs

/-! ### Jobs on time -/

namespace Job
variable {π : Type}

/-- The time a job that can be claimed has been waiting from. -/
def due (r : Job π) : Time := if r.status = .running then r.leaseExpiresAt.getD r.availableAt else r.availableAt

/-- No job that can be claimed has been waiting for more than `wait` seconds. -/
def Prompt (wait : Nat) (now : Time) (t : List (Job π)) : Prop :=
  ∀ r ∈ t, ClaimWhere now r.id r → now ≤ r.due + seconds wait

instance (wait : Nat) (now : Time) (t : List (Job π)) : Decidable (Prompt wait now t) :=
  inferInstanceAs (Decidable (∀ r ∈ t, ClaimWhere now r.id r → now ≤ r.due + seconds wait))

/-- The seconds `n` attempts can take: each waits, holds its lease and is delayed before the next one. -/
def spent (wait delay : Nat) : Nat → Nat
  | 0 => 0
  | n + 1 => spent wait delay n + wait + 180 + delay * (n + 1)

theorem spent_mono (wait delay : Nat) : Monotone (spent wait delay) :=
  monotone_nat_of_le_succ fun n => by
    rw [spent]
    omega

/-- The seconds until the lease of the last attempt has ended. -/
def lifetime (wait delay : Nat) : Nat := spent wait delay 2 + wait + 180

/-- The job has spent no more time than its attempts can take. -/
structure OnTime (wait delay : Nat) (since : Job π → Time) (r : Job π) : Prop where
  queued : r.status = .queued → r.availableAt ≤ since r + seconds (spent wait delay r.attempts)
  running : r.status = .running → ∃ n e, r.attempts = n + 1 ∧ r.leaseExpiresAt = some e ∧ r.availableAt ≤ e ∧
    e ≤ since r + seconds (spent wait delay n + wait + 180)

section
variable {wait delay : Nat} {now start clock : Time} {since : Job π → Time} {t t' : List (Job π)} {r r' : Job π}

theorem not_active_of_terminal {s : Status} (h : s.Terminal) : s ≠ .queued ∧ s ≠ .running := by
  rcases h with rfl | rfl | rfl <;> decide

/-- A job that can be claimed promptly is claimed on time. -/
theorem OnTime.claim (h : OnTime wait delay since r) (hc : ClaimWhere now r.id r) (hp : now ≤ r.due + seconds wait) :
    now ≤ since r + seconds (spent wait delay r.attempts + wait) := by
  rw [seconds_add]
  rcases hc.2.2.2.2 with hq | ⟨hr, -⟩
  · have hne : r.status ≠ .running := by
      rw [hq]
      decide
    rw [due, if_neg hne] at hp
    have := h.queued hq
    linarith
  · obtain ⟨n, e, ha, he, -, hle⟩ := h.running hr
    rw [due, if_pos hr, he, Option.getD_some] at hp
    have hs : seconds (spent wait delay n + wait + 180) ≤ seconds (spent wait delay r.attempts) := by
      rw [ha, spent]
      exact seconds_mono (Nat.le_add_right _ _)
    linarith

theorem Ages.onTime (h : Ages now delay since t r') (ht : ∀ r ∈ t, OnTime wait delay since r) (hp : Prompt wait now t) :
    OnTime wait delay since r' := by
  rcases h with ⟨r, hr, hs, hag⟩ | hb
  · have hot := ht r hr
    cases hag with
    | kept status attempts lease available =>
      refine ⟨fun hq => ?_, fun hrun => ?_⟩
      · rw [available, attempts, hs]
        exact hot.queued (status.symm.trans hq)
      · rw [available, attempts, lease, hs]
        exact hot.running (status.symm.trans hrun)
    | claimed was status attempts lease available =>
      refine ⟨fun hq => absurd (status.symm.trans hq) (by decide), fun _ => ⟨r.attempts, _, attempts, lease, ?_, ?_⟩⟩
      · have h180 : 0 < seconds 180 := seconds_pos (by decide)
        rw [available]
        exact was.2.2.2.1.trans (by linarith)
      · have := hot.claim was (hp r hr was)
        rw [hs, seconds_add]
        linarith
    | requeued was live status attempts available =>
      refine ⟨fun _ => ?_, fun hrun => absurd (status.symm.trans hrun) (by decide)⟩
      obtain ⟨n, e, ha, he, -, hle⟩ := hot.running was
      obtain ⟨e', he', hlt⟩ := live
      cases he.symm.trans he'
      rw [available, attempts, hs, ha, spent, seconds_add _ (delay * (n + 1))]
      linarith
    | ended status =>
      obtain ⟨hq, hrun⟩ := not_active_of_terminal status
      exact ⟨fun h => absurd h hq, fun h => absurd h hrun⟩
  · refine ⟨fun _ => ?_, fun hrun => absurd (hb.status.symm.trans hrun) (by decide)⟩
    rw [hb.available, hb.since, hb.attempts, spent]
    exact (add_zero now).ge

/-- Out of time, a job that is swept has ended. -/
theorem OnTime.terminal (h : OnTime wait delay since r) (hok : Ok r)
    (hp : ClaimWhere now r.id r → now ≤ r.due + seconds wait)
    (hsw : r.status = .running → Past r.leaseExpiresAt start → r.attempts < 3) (hs : start ≤ now)
    (hlate : since r + seconds (lifetime wait delay) < start) : r.status.Terminal := by
  refine Status.terminal_iff_not_active.2 fun ha => ?_
  -- what could be claimed in time has been
  have hno : ¬ ClaimWhere now r.id r := by
    intro hc
    have hle : spent wait delay r.attempts + wait ≤ lifetime wait delay := by
      have := spent_mono wait delay (Nat.le_of_lt_succ hc.2.2.1)
      unfold lifetime
      omega
    have := h.claim hc (hp hc)
    have := seconds_mono hle
    linarith
  have hlease : ∀ e, r.leaseExpiresAt = some e → e < start := by
    intro e he
    have hrun : r.status = .running := hok.expires.1 (by rw [he]; rfl)
    obtain ⟨n, e', hn, he', -, hle⟩ := h.running hrun
    cases he.symm.trans he'
    have hn : n ≤ 2 := by
      have := hok.attempts
      omega
    have : seconds (spent wait delay n + wait + 180) ≤ seconds (lifetime wait delay) := by
      refine seconds_mono ?_
      have := spent_mono wait delay hn
      unfold lifetime
      omega
    linarith
  have hav : r.availableAt ≤ now := by
    rcases ha with hq | hrun
    · have := h.queued hq
      have hle : spent wait delay r.attempts ≤ lifetime wait delay := by
        have := spent_mono wait delay (Nat.le_of_lt_succ (hok.queued hq))
        unfold lifetime
        omega
      have := seconds_mono hle
      linarith
    · obtain ⟨n, e, -, he, hle, -⟩ := h.running hrun
      have := hlease e he
      linarith
  rcases hok.claimable ha (fun e he => (hlease e he).trans_le hs) hav with hc | ⟨hrun, ⟨e, he, -⟩, h3⟩
  · exact hno hc
  · exact absurd (hsw hrun ⟨e, he, hlease e he⟩) (not_lt.2 h3)

end
end Job

namespace Cycle

def start : Cycle → Time
  | .expired start | .publishing start _ => start

end Cycle

namespace Job
variable {π : Type} {wait delay : Nat} {now clock clock' : Time} {since : Job π → Time} {t t' : List (Job π)}
  {cycles : List Cycle} {input : Cycle.Input}

/-- The jobs of a table are on time, and what its cycles have swept stays swept. -/
structure Timely (clock : Time) (wait delay : Nat) (since : Job π → Time) (t : List (Job π)) (cycles : List Cycle) :
    Prop where
  rows : ∀ r ∈ t, OnTime wait delay since r
  began : ∀ c ∈ cycles, c.start ≤ clock
  swept : ∀ c ∈ cycles, Swept c.start t

theorem Timely.mono (h : Timely clock wait delay since t cycles) (hc : clock ≤ clock') :
    Timely clock' wait delay since t cycles :=
  ⟨h.rows, fun c hm => (h.began c hm).trans hc, h.swept⟩

theorem Timely.ages [JobData π] {a : Actor} (h : Timely a.now wait delay since t cycles) (hp : Prompt wait a.now t)
    (hag : ∀ r' ∈ t', Ages a.now delay since t r') (hc : Changes a t t') :
    Timely a.now wait delay since t' cycles :=
  ⟨fun r hr => (hag r hr).onTime h.rows hp, h.began, fun c hm => (h.swept c hm).changes (h.began c hm) hc⟩

/-- A cycle sweeps when it begins. -/
theorem Timely.step [JobData π] {a : Actor} (h : Timely a.now wait delay since t cycles) (hp : Prompt wait a.now t)
    (hag : ∀ r' ∈ (Cycle.step a.now input t cycles).1, Ages a.now delay since t r')
    (hc : Changes a t (Cycle.step a.now input t cycles).1) :
    Timely a.now wait delay since (Cycle.step a.now input t cycles).1 (Cycle.step a.now input t cycles).2 := by
  have hold := h.ages hp hag hc
  have hcycle : ∀ c ∈ (Cycle.step a.now input t cycles).2,
      (∃ c₀ ∈ cycles, c.start = c₀.start) ∨
        c = .expired a.now ∧ (Cycle.step a.now input t cycles).1 = workerLost a.now t := by
    intro c hm
    cases input with
    | expire =>
      rcases List.mem_append.1 hm with hm | hm
      · exact .inl ⟨c, hm, rfl⟩
      · exact .inr ⟨List.mem_singleton.1 hm, rfl⟩
    | select i =>
      simp only [Cycle.step] at hm
      split at hm
      · rename_i start hi
        rcases List.mem_or_eq_of_mem_set hm with hm | rfl
        · exact .inl ⟨c, hm, rfl⟩
        · exact .inl ⟨_, Table.mem_of_getElem? hi, rfl⟩
      · exact .inl ⟨c, hm, rfl⟩
    | publish i succeeded =>
      simp only [Cycle.step] at hm
      split at hm
      · rename_i start id ids hi
        rcases List.mem_or_eq_of_mem_set hm with hm | rfl
        · exact .inl ⟨c, hm, rfl⟩
        · exact .inl ⟨_, Table.mem_of_getElem? hi, rfl⟩
      · exact .inl ⟨c, hm, rfl⟩
  refine ⟨hold.rows, fun c hm => ?_, fun c hm => ?_⟩
  · rcases hcycle c hm with ⟨c₀, hm₀, he⟩ | ⟨rfl, -⟩
    · exact he ▸ h.began c₀ hm₀
    · exact le_refl _
  · rcases hcycle c hm with ⟨c₀, hm₀, he⟩ | ⟨rfl, he⟩
    · exact he ▸ hold.swept c₀ hm₀
    · rw [he]
      exact swept_workerLost

/-- What a cycle finds that begins when a job is out of time. -/
theorem Timely.terminal (h : Timely clock wait delay since t cycles) (hp : Prompt wait clock t) (hok : ∀ r ∈ t, Ok r)
    {c : Cycle} (hc : c ∈ cycles) {r : Job π} (hr : r ∈ t)
    (hlate : since r + seconds (lifetime wait delay) < c.start) : r.status.Terminal :=
  (h.rows r hr).terminal (hok r hr) (hp r hr) (h.swept c hc r hr) (h.began c hc) hlate

end Job
/-! ### The whole system -/

namespace System
variable {env : Env} {wait : Nat}

/-- No job that a worker could claim has been waiting for more than `wait` seconds. -/
structure Prompt (wait : Nat) (s : System) : Prop where
  imports : Job.Prompt wait s.world.clock s.jobs.db.imports
  indexes : Job.Prompt wait s.world.clock s.jobs.db.indexes
  searches : Job.Prompt wait s.world.clock s.jobs.db.searches

instance (wait : Nat) (s : System) : Decidable (Prompt wait s) :=
  decidable_of_iff
    (Job.Prompt wait s.world.clock s.jobs.db.imports ∧ Job.Prompt wait s.world.clock s.jobs.db.indexes ∧
      Job.Prompt wait s.world.clock s.jobs.db.searches)
    ⟨fun ⟨h1, h2, h3⟩ => ⟨h1, h2, h3⟩, fun ⟨h1, h2, h3⟩ => ⟨h1, h2, h3⟩⟩

structure JobDeadlines (wait : Nat) (s : System) : Prop where
  imports : Job.Timely s.world.clock wait 30 Job.createdAt s.jobs.db.imports s.jobs.importCycles
  indexes : Job.Timely s.world.clock wait 0 Job.createdAt s.jobs.db.indexes s.jobs.indexCycles
  searches : Job.Timely s.world.clock wait 0 Job.availableAt s.jobs.db.searches s.jobs.searchCycles

theorem jobDeadlines_step (s : System) (a : Action) (hp : Prompt wait s) (h : JobsInv env s ∧ JobDeadlines wait s) :
    JobsInv env (step env s a) ∧ JobDeadlines wait (step env s a) := by
  refine ⟨jobsInv_step s a h.1, ?_⟩
  obtain ⟨⟨hi, -, -, -, -, -⟩, h1, h2, h3⟩ := h
  cases a with
  | tick elapsed =>
    have hclock : s.world.clock ≤ s.world.clock + elapsed := le_add_of_nonneg_right (Int.natCast_nonneg _)
    exact ⟨h1.mono hclock, h2.mono hclock, h3.mono hclock⟩
  | chat a =>
    simp only [step]
    split <;> exact ⟨h1, h2, h3⟩
  | jobs a =>
    simp only [step]
    split
    · rename_i hfr
      have hf := hfr.1.2
      obtain ⟨c1, c2, c3⟩ := Jobs.CycleInv.cycles_frame env s.world.clock a s.jobs
      have himports := Jobs.imports_changes env s.world.clock hi.imports hi.importClaims hf
      have hindexes := Jobs.indexes_changes env s.world.clock hi.indexes hf
      have hsearches := Jobs.searches_changes env s.world.clock hi.searches hi.profiled hf
      have gimports : ∀ r' ∈ (Jobs.step env s.world.clock a s.jobs).db.imports, _ := fun r' hr' =>
        Jobs.imports_age a hi.importClaims hr'
      have gindexes : ∀ r' ∈ (Jobs.step env s.world.clock a s.jobs).db.indexes, _ := fun r' hr' =>
        Jobs.indexes_age a hr'
      have gsearches : ∀ r' ∈ (Jobs.step env s.world.clock a s.jobs).db.searches, _ := fun r' hr' =>
        Jobs.searches_age a hr'
      refine ⟨?_, ?_, ?_⟩
      · rcases c1 with ⟨input, rfl⟩ | he
        · exact h1.step hp.imports gimports himports
        · simp only [he]
          exact Job.Timely.ages (a := Jobs.actor s.world.clock a s.jobs) h1 hp.imports gimports himports
      · rcases c2 with ⟨input, rfl⟩ | he
        · exact h2.step hp.indexes gindexes hindexes
        · simp only [he]
          exact Job.Timely.ages (a := Jobs.actor s.world.clock a s.jobs) h2 hp.indexes gindexes hindexes
      · rcases c3 with ⟨input, rfl⟩ | he
        · exact h3.step hp.searches gsearches hsearches
        · simp only [he]
          exact Job.Timely.ages (a := Jobs.actor s.world.clock a s.jobs) h3 hp.searches gsearches hsearches
    · exact ⟨h1, h2, h3⟩

/-- The jobs that are over when a dispatcher cycle begins too late for them: ten and a half minutes after its
request for an import, nine for an index or a search, and three times the wait for a worker. -/
structure JobsInTime (wait : Nat) (s : Jobs) : Prop where
  imports : ∀ c ∈ s.importCycles, ∀ r ∈ s.db.imports, r.createdAt + seconds (630 + 3 * wait) < c.start →
    r.status.Terminal
  indexes : ∀ c ∈ s.indexCycles, ∀ r ∈ s.db.indexes, r.createdAt + seconds (540 + 3 * wait) < c.start →
    r.status.Terminal
  /-- A resumed search index is available from the time it was resumed. -/
  searches : ∀ c ∈ s.searchCycles, ∀ r ∈ s.db.searches, r.availableAt + seconds (540 + 3 * wait) < c.start →
    r.status.Terminal

theorem lifetime_eq (wait delay : Nat) : Job.lifetime wait delay = 540 + 3 * delay + 3 * wait := by
  simp only [Job.lifetime, Job.spent]
  ring

/-- However workers crash, fail and interleave with requests and dispatchers, every job ends in time as
long as none that can be claimed waits too long for a worker. -/
theorem jobs_end_in_time (env : Env) (wait : Nat) (acts : List Action)
    (h : ∀ pre, pre <+: acts → Prompt wait (run env pre)) : JobsInTime wait (run env acts).jobs := by
  have hnil : ∀ {π : Type} {delay : Nat} {since : Job π → Time}, Job.Timely 0 wait delay since [] [] :=
    ⟨List.forall_mem_nil _, List.forall_mem_nil _, List.forall_mem_nil _⟩
  have hinv : JobsInv env (run env acts) ∧ JobDeadlines wait (run env acts) :=
    Machine.invariant_while (P := fun s => JobsInv env s ∧ JobDeadlines wait s)
      ⟨jobsInv env [], hnil, hnil, hnil⟩ (fun s a hp hs => jobDeadlines_step s a hp hs) h
  obtain ⟨⟨hi, -, -, -, -, -⟩, h1, h2, h3⟩ := hinv
  obtain ⟨p1, p2, p3⟩ := h acts (List.prefix_refl acts)
  refine ⟨fun c hc r hr hlate => ?_, fun c hc r hr hlate => ?_, fun c hc r hr hlate => ?_⟩
  · refine h1.terminal p1 hi.imports.rows hc hr ?_
    rwa [lifetime_eq]
  · refine h2.terminal p2 hi.indexes.rows hc hr ?_
    rwa [lifetime_eq]
  · refine h3.terminal p3 hi.searches.rows hc hr ?_
    rwa [lifetime_eq]

/-- Three workers take an import a minute after they could, and crash; a dispatcher cycle ends it. -/
def crashes : List Action :=
  [.jobs (.createImport 1 (.ok (['a'], ['b'])) none 10 11), .tick 60000000, .jobs (.claimImport 11 12),
    .tick 240000000, .jobs (.claimImport 11 13), .tick 240000000, .jobs (.claimImport 11 14), .tick 400000000,
    .jobs (.importCycle .expire)]

theorem jobs_end_in_time_crashes :
    (run Env.plain crashes).jobs.db.imports.map (fun r => (r.status, r.attempts)) = [(.failed, 3)] ∧
      JobsInTime 60 (run Env.plain crashes).jobs := by
  refine ⟨by decide, jobs_end_in_time Env.plain 60 crashes fun pre h => ?_⟩
  have hall : ∀ pre ∈ crashes.inits, Prompt 60 (run Env.plain pre) := by decide
  exact hall pre ((List.mem_inits pre crashes).2 h)

end System
end RepoPilot
