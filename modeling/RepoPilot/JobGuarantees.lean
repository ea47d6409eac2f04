import RepoPilot.System

/-! # What the job system guarantees

In every reachable state, that is after every interleaving of requests, deliveries, worker steps and
dispatcher cycles. -/

namespace RepoPilot

/-! ### No job gets stuck -/

namespace Job
variable {π : Type}

/-- A job table that is never stuck, with the dispatcher cycles at work on it. -/
structure Unstuck (now : Time) (t : List (Job π)) (cycles : List Cycle) : Prop where
  attempts : ∀ r ∈ t, r.attempts ≤ 3
  lease : ∀ r ∈ t, r.leaseToken.isSome ↔ r.status = .running
  current : ∀ repositoryId, (t.filter fun r => r.repositoryId = repositoryId ∧ r.isCurrent = true).length ≤ 1
  superseded : ∀ r ∈ t, r.isCurrent = false → r.status.Terminal
  covered : ∀ r ∈ t, r.status.Active → (∀ e, r.leaseExpiresAt = some e → e < now) → r.availableAt ≤ now →
    ClaimWhere now r.id r ∨ LostWhere now r
  /-- What the cycle that started at `start` would select now can be claimed now. -/
  selected : ∀ start, .expired start ∈ cycles → ∀ id ∈ dispatchSelect start t, ∃ r ∈ t, ClaimWhere now id r

theorem Good.unstuck {w : World} {t : List (Job π)} {cycles : List Cycle} (h : Good w t)
    (hc : Cycle.Clean w.clock t cycles) : Unstuck w.clock t cycles := by
  refine ⟨fun r hr => (h.rows r hr).attempts, fun r hr => (h.rows r hr).token, ?_,
    fun r hr => (h.rows r hr).current, fun r hr => (h.rows r hr).claimable, ?_⟩
  · intro repositoryId
    refine (h.keyed.filter _).length_le_one fun r hr q hq => ?_
    obtain ⟨hr, hrc⟩ := List.mem_filter.1 hr
    obtain ⟨hq, hqc⟩ := List.mem_filter.1 hq
    obtain ⟨hrr, hrc⟩ := of_decide_eq_true hrc
    obtain ⟨hqr, hqc⟩ := of_decide_eq_true hqc
    exact h.current r hr q hq hrc hqc (hrr.trans hqr.symm)
  · intro start hm id hid
    obtain ⟨hs, hswept⟩ := hc start hm
    obtain ⟨r, hr, hw⟩ := hswept.selected h.rows hid
    have hid' := hw.1
    subst hid'
    exact ⟨r, hr, hw.mono hs⟩

end Job

namespace System

/-- Attempts, leases and current jobs are as they should be, and the claim and the dispatcher together
cover every abandoned job. -/
theorem jobs_unstuck (env : Env) (acts : List Action) :
    Job.Unstuck (run env acts).world.clock (run env acts).jobs.db.imports (run env acts).jobs.importCycles ∧
      Job.Unstuck (run env acts).world.clock (run env acts).jobs.db.indexes (run env acts).jobs.indexCycles ∧
      Job.Unstuck (run env acts).world.clock (run env acts).jobs.db.searches (run env acts).jobs.searchCycles := by
  have h := jobsInv env acts
  exact ⟨h.inv.imports.unstuck h.cycles.imports, h.inv.indexes.unstuck h.cycles.indexes,
    h.inv.searches.unstuck h.cycles.searches⟩

end System

/-! ### Search preparation -/

namespace Jobs

/-- All tokens ever passed to `provider.embed` for a search index were reserved before, within its
budget; and no attempt that passed the preflight and keeps its lease is refused a reservation. -/
structure WithinBudget (env : Env) (now : Time) (s : Jobs) : Prop where
  spent : ∀ r ∈ s.db.searches, s.spent r.id ≤ r.data.reservedTokens
  reserved : ∀ r ∈ s.db.searches, r.data.reservedTokens ≤ r.data.tokenBudget
  granted : ∀ r ∈ s.db.searches, ∀ k ∈ s.searchWorkers, ∀ plan pending, k.pc = .reserve plan pending →
    Job.LeaseCondition now k.claim r →
    (Searches.reserve now k.claim (plan.tokens env (Searches.head pending)) s.db).isSome

/-- The documents of a search index are distinct chunks of its source index, its counters are theirs,
and a completed one has exactly one document for each chunk. -/
structure CoversSource (s : Jobs) (r : SearchIndex) : Prop where
  source : ∃ x ∈ s.db.indexes, x.id = r.data.sourceIndexId ∧ x.status = .completed
  distinct : ((Searches.documentsOf s.db r.id).map (·.chunkId)).Nodup
  chunks : ∀ d ∈ Searches.documentsOf s.db r.id,
    ∃ c ∈ s.db.chunks, c.id = d.chunkId ∧ c.indexId = r.data.sourceIndexId
  stored : r.data.documentsStored = (Searches.documentsOf s.db r.id).length
  tokens : r.data.inputTokens = if r.data.mode = .hybrid then
    ((Searches.documentsOf s.db r.id).map (·.tokenCount)).sum else 0
  complete : r.status = .completed → ∀ c ∈ s.db.chunks, c.indexId = r.data.sourceIndexId →
    ∃ d, (Searches.documentsOf s.db r.id).filter (·.chunkId = c.id) = [d] ∧
      (d.embedding.isSome ↔ r.data.mode = .hybrid)

/-- Every search index covers its source. -/
def SearchesCovered (s : Jobs) : Prop := ∀ r ∈ s.db.searches, CoversSource s r

theorem BudgetInv.withinBudget {env : Env} {w : World} {s : Jobs} (h : BudgetInv env w s) :
    WithinBudget env w.clock s := by
  refine ⟨fun r hr => (Nat.le_add_right _ _).trans (h.covered r hr), h.within, ?_⟩
  intro r hr k hk plan pending hpc hl
  have hahead := h.ahead k hk r hr hl.1 hl.2.2.1
  rw [hpc] at hahead
  have hafford : Searches.Affordable (plan.tokens env (Searches.head pending)) r := by
    unfold Searches.Affordable
    simp only [Searches.Pc.ahead] at hahead
    omega
  unfold Searches.reserve Job.fencedIf
  rw [if_pos ⟨r, hr, hl, hafford⟩]
  rfl

theorem CoverageInv.coversSource {env : Env} {w : World} {s : Jobs} {r : SearchIndex} (h : CoverageInv env s)
    (hc : ContentInv w s) (hr : r ∈ s.db.searches) : CoversSource s r := by
  obtain ⟨x, hx, hid, hxc, -⟩ := h.sources r hr
  have hst := h.stored r hr
  have hkeyed : (s.db.chunkIds r.data.sourceIndexId).Nodup := hc.chunkKeys.filter _
  obtain ⟨pending, hcov⟩ := hst.chunks
  have hnd := hcov.nodup_iff.2 hkeyed
  rw [List.nodup_append] at hnd
  refine ⟨⟨x, hx, hid, hxc⟩, hnd.1, ?_, hst.count, hst.usage, ?_⟩
  · intro d hd
    have hmem := hcov.mem_iff.1 (List.mem_append_left _ (List.mem_map_of_mem hd))
    obtain ⟨c, hcm, hcd⟩ := List.mem_map.1 hmem
    obtain ⟨hcm, hci⟩ := List.mem_filter.1 hcm
    exact ⟨c, hcm, hcd, of_decide_eq_true hci⟩
  · intro hdone c hcm hci
    have hfull := hst.complete hdone
    unfold Searches.Covers at hfull
    rw [List.append_nil] at hfull
    have hmem : c.id ∈ s.db.chunkIds r.data.sourceIndexId :=
      List.mem_map.2 ⟨c, List.mem_filter.2 ⟨hcm, decide_eq_true hci⟩, rfl⟩
    obtain ⟨d, hd, hdc⟩ := List.mem_map.1 (hfull.mem_iff.2 hmem)
    refine ⟨d, ?_, hst.embedding d hd⟩
    rw [← hdc]
    exact Table.Keyed.filter_eq_singleton hnd.1 hd

end Jobs

namespace System

theorem embedding_within_budget (env : Env) (acts : List Action) :
    (run env acts).jobs.WithinBudget env (run env acts).world.clock :=
  (jobsInv env acts).budget.withinBudget

theorem search_covers_source (env : Env) (acts : List Action) :
    (run env acts).jobs.SearchesCovered := by
  intro r hr
  have h := jobsInv env acts
  exact h.coverage.coversSource h.content hr

end System

/-! ### Results are published once, and whole -/

namespace Jobs

/-- The files of each import are the result of the one claim that published, if it is completed, and
none otherwise; the counters are theirs. -/
structure ImportsPublished (s : Jobs) : Prop where
  owner : ∀ f ∈ s.db.files, ∃ j ∈ s.db.imports, j.id = f.importJobId ∧ j.status = .completed
  result : ∀ j ∈ s.db.imports, j.status = .completed → ∃ (i : Nat) (k : Imports.Worker) (source : RepositorySource)
    (result : ArchiveResult) (ids : List Uuid),
    s.importWorkers[i]? = some k ∧ k.claim.jobId = j.id ∧ k.pc = .published source result ∧
    ids.length = result.files.length ∧
    s.db.files.filter (·.importJobId = j.id) = List.zipWith (Imports.fileRow k.claim) ids result.files ∧
    j.data = ⟨result.scanned, result.skipped, (s.db.files.filter (·.importJobId = j.id)).length⟩ ∧
    ∀ (i' : Nat) (k' : Imports.Worker) source' result', s.importWorkers[i']? = some k' → k'.claim.jobId = j.id →
      k'.pc = .published source' result' → i' = i

/-- The symbols and chunks of each index likewise. -/
structure IndexesPublished (s : Jobs) : Prop where
  symbolOwner : ∀ c ∈ s.db.symbols, ∃ x ∈ s.db.indexes, x.id = c.indexId ∧ x.status = .completed
  chunkOwner : ∀ c ∈ s.db.chunks, ∃ x ∈ s.db.indexes, x.id = c.indexId ∧ x.status = .completed
  result : ∀ x ∈ s.db.indexes, x.status = .completed → ∃ (i : Nat) (k : Indexes.Worker) (source : Uuid)
    (built : Indexes.Built) (n : Nat) (ids : List Uuid),
    s.indexWorkers[i]? = some k ∧ k.claim.jobId = x.id ∧ k.pc = .published source built n ∧
    ids.length = built.chunks.length ∧
    s.db.symbols.filter (·.indexId = x.id) = built.symbols.map (Indexes.symbolRow k.claim source) ∧
    s.db.chunks.filter (·.indexId = x.id) = List.zipWith (Indexes.chunkRow k.claim source) ids built.chunks ∧
    x.data.symbolCount = (s.db.symbols.filter (·.indexId = x.id)).length ∧
    x.data.chunkCount = (s.db.chunks.filter (·.indexId = x.id)).length ∧
    x.data.diagnostics = built.diagnostics ∧ x.data.filesScanned = n ∧ x.data.filesStored = n ∧
    ∀ (i' : Nat) (k' : Indexes.Worker) source' built' n', s.indexWorkers[i']? = some k' → k'.claim.jobId = x.id →
      k'.pc = .published source' built' n' → i' = i

theorem OutputInv.importsPublished {w : World} {s : Jobs} (h : OutputInv w s) : ImportsPublished s := by
  refine ⟨h.files.owner, fun j hj hs => ?_⟩
  obtain ⟨p, hp, hpj⟩ := h.imports.all j hj hs
  obtain ⟨k, hk, hkp⟩ := List.mem_filterMap.1 hp
  obtain ⟨i, hi⟩ := List.mem_iff_getElem?.1 hk
  have hpub : ∃ source result, k.pc = .published source result ∧ p = (k.claim.jobId, k.claim, source, result) := by
    unfold Imports.Worker.publication at hkp
    split at hkp
    · exact ⟨_, _, ‹_›, (Option.some.inj hkp).symm⟩
    · cases hkp
  obtain ⟨source, result, hpc, rfl⟩ := hpub
  obtain ⟨ids, hlen, hrows⟩ := h.files.rows _ hp ⟨j, hj, hpj.symm⟩
  have hdata := (h.imports.done _ hp j hj hpj.symm).2
  rw [hpj] at hrows
  refine ⟨i, k, source, result, ids, hi, hpj, hpc, hlen, hrows, ?_, ?_⟩
  · rw [hrows, List.length_zipWith, hlen, Nat.min_self]
    exact hdata
  · intro i' k' source' result' hi' hid hpc'
    have hkp' : k'.publication = some (k'.claim.jobId, k'.claim, source', result') := by
      unfold Imports.Worker.publication
      rw [hpc']
    exact Table.eq_of_filterMap_once h.imports.once hi' hi hkp' hkp (hid.trans hpj.symm)

theorem OutputInv.indexesPublished {w : World} {s : Jobs} (h : OutputInv w s) : IndexesPublished s := by
  refine ⟨h.symbols.owner, h.chunks.owner, fun x hx hs => ?_⟩
  obtain ⟨p, hp, hpx⟩ := h.indexes.all x hx hs
  obtain ⟨k, hk, hkp⟩ := List.mem_filterMap.1 hp
  obtain ⟨i, hi⟩ := List.mem_iff_getElem?.1 hk
  have hpub : ∃ source built n, k.pc = .published source built n ∧ p = (k.claim.jobId, k.claim, source, built, n) := by
    unfold Indexes.Worker.publication at hkp
    split at hkp
    · exact ⟨_, _, _, ‹_›, (Option.some.inj hkp).symm⟩
    · cases hkp
  obtain ⟨source, built, n, hpc, rfl⟩ := hpub
  have hsym := h.symbols.rows _ hp ⟨x, hx, hpx.symm⟩
  obtain ⟨ids, hlen, hrows⟩ := h.chunks.rows _ hp ⟨x, hx, hpx.symm⟩
  obtain ⟨hsc, hcc, hd, hfs, hft⟩ := (h.indexes.done _ hp x hx hpx.symm).2
  unfold Indexes.SymbolRows at hsym
  rw [hpx] at hrows hsym
  refine ⟨i, k, source, built, n, ids, hi, hpx, hpc, hlen, hsym, hrows, ?_, ?_, hd, hfs, hft, ?_⟩
  · rw [hsym, List.length_map]
    exact hsc
  · rw [hrows, List.length_zipWith, hlen, Nat.min_self]
    exact hcc
  · intro i' k' source' built' n' hi' hid hpc'
    have hkp' : k'.publication = some (k'.claim.jobId, k'.claim, source', built', n') := by
      unfold Indexes.Worker.publication
      rw [hpc']
    exact Table.eq_of_filterMap_once h.indexes.once hi' hi hkp' hkp (hid.trans hpx.symm)

section Later
variable {env : Env} {now : Time} {a : Action} {s : Jobs}

/-- A worker keeps its place and its claim. -/
theorem importWorkers_kept {i : Nat} {k : Imports.Worker} (hk : s.importWorkers[i]? = some k) :
    ∃ k', (step env now a s).importWorkers[i]? = some k' ∧ k'.claim = k.claim := by
  by_cases h : a.kind = .imports
  · cases a <;> try cases h
    case pos.claimImport.refl jobId token =>
      simp only [step, claimImport]
      split
      · exact Table.kept_append hk _
      · exact ⟨k, hk, rfl⟩
    case pos.importStep.refl j input =>
      simp only [step, importStep]
      split
      · rename_i k₀ hk₀
        refine Table.kept_set (f := (·.claim)) hk hk₀ ?_
        rfl
      · exact ⟨k, hk, rfl⟩
    all_goals exact ⟨k, hk, rfl⟩
  · rw [importWorkers_frame h]
    exact ⟨k, hk, rfl⟩

theorem indexWorkers_kept {i : Nat} {k : Indexes.Worker} (hk : s.indexWorkers[i]? = some k) :
    ∃ k', (step env now a s).indexWorkers[i]? = some k' ∧ k'.claim = k.claim := by
  by_cases h : a.kind = .indexes
  · cases a <;> try cases h
    case pos.claimIndex.refl jobId token =>
      simp only [step, claimIndex]
      split
      · exact Table.kept_append hk _
      · exact ⟨k, hk, rfl⟩
    case pos.indexStep.refl j input =>
      simp only [step, indexStep]
      split
      · rename_i k₀ hk₀
        refine Table.kept_set (f := (·.claim)) hk hk₀ ?_
        rfl
      · exact ⟨k, hk, rfl⟩
    all_goals exact ⟨k, hk, rfl⟩
  · rw [indexWorkers_frame h]
    exact ⟨k, hk, rfl⟩

end Later
end Jobs

namespace Job
variable {π : Type}

/-- Every old row of the later table was there, and is still completed, with the same data, if it was. -/
def Persists (issued : List Uuid) (t t' : List (Job π)) : Prop :=
  ∀ r' ∈ t', r'.id ∈ issued →
    ∃ r ∈ t, r.id = r'.id ∧ (r.status = .completed → r'.status = .completed ∧ r'.data = r.data)

theorem Persists.refl {issued : List Uuid} (t : List (Job π)) : Persists issued t t :=
  fun r hr _ => ⟨r, hr, rfl, fun hs => ⟨hs, rfl⟩⟩

theorem Persists.trans {issued issued' : List Uuid} {t t' t'' : List (Job π)} (h : Persists issued t t')
    (hi : ∀ i ∈ issued, i ∈ issued') (h' : Persists issued' t' t'') : Persists issued t t'' := by
  intro r'' hr'' hid
  obtain ⟨r', hr', hid', hc'⟩ := h' r'' hr'' (hi _ hid)
  obtain ⟨r, hr, hidr, hc⟩ := h r' hr' (hid' ▸ hid)
  refine ⟨r, hr, hidr.trans hid', fun hs => ?_⟩
  obtain ⟨hs', hd⟩ := hc hs
  obtain ⟨hs'', hd'⟩ := hc' hs'
  exact ⟨hs'', hd'.trans hd⟩

/-- Completed is absorbing. -/
theorem Persists.completed {w : World} {t t' : List (Job π)} (h : Persists w.issued t t') (hg : Good w t)
    {r r' : Job π} (hr : r ∈ t) (hs : r.status = .completed) (hr' : r' ∈ t') (hid : r'.id = r.id) :
    r'.status = .completed ∧ r'.data = r.data := by
  obtain ⟨q, hq, hqid, hc⟩ := h r' hr' (hid ▸ hg.ids r hr)
  have hqr : q = r := hg.keyed.eq hq hr (hqid.trans hid)
  rw [hqr] at hc
  exact hc hs

theorem Changes.persists [JobData π] {w : World} {a : Actor} {t t' : List (Job π)} (hc : Changes a t t')
    (hg : Good w t) (hf : ∀ i ∈ a.inserts, i ∉ w.issued) : Persists w.issued t t' := by
  intro r' hr' hid
  obtain ⟨r, hr, hidr⟩ := hc.existed hr' fun hi => hf _ hi hid
  refine ⟨r, hr, hidr, fun hs => ?_⟩
  exact hc.completed (fun q hq hi => hf _ hi (hg.ids q hq)) hg.keyed hr hs hr' hidr.symm

end Job

namespace System
variable {env : Env}

/-- What stays of a state in every later one: leases are not renewed, workers keep their claims and
completed jobs their data. -/
structure Later (s s' : System) : Prop where
  clock : s.world.clock ≤ s'.world.clock
  issued : ∀ i ∈ s.world.issued, i ∈ s'.world.issued
  importLeases : Job.lease.Evolves s.world.issued s.jobs.db.imports s'.jobs.db.imports
  indexLeases : Job.lease.Evolves s.world.issued s.jobs.db.indexes s'.jobs.db.indexes
  imports : Job.Persists s.world.issued s.jobs.db.imports s'.jobs.db.imports
  indexes : Job.Persists s.world.issued s.jobs.db.indexes s'.jobs.db.indexes
  importWorkers : ∀ (i : Nat) (k : Imports.Worker), s.jobs.importWorkers[i]? = some k →
    ∃ k' : Imports.Worker, s'.jobs.importWorkers[i]? = some k' ∧ k'.claim = k.claim
  indexWorkers : ∀ (i : Nat) (k : Indexes.Worker), s.jobs.indexWorkers[i]? = some k →
    ∃ k' : Indexes.Worker, s'.jobs.indexWorkers[i]? = some k' ∧ k'.claim = k.claim

theorem Later.refl (s : System) : Later s s :=
  ⟨le_refl _, fun _ h => h, Leased.Evolves.refl, Leased.Evolves.refl, .refl _, .refl _,
    fun _ k h => ⟨k, h, rfl⟩, fun _ k h => ⟨k, h, rfl⟩⟩

theorem Later.trans {s s' s'' : System} (h : Later s s') (h' : Later s' s'') : Later s s'' := by
  refine ⟨h.clock.trans h'.clock, fun i hi => h'.issued i (h.issued i hi),
    h.importLeases.trans h.issued h'.importLeases, h.indexLeases.trans h.issued h'.indexLeases,
    h.imports.trans h.issued h'.imports, h.indexes.trans h.issued h'.indexes, ?_, ?_⟩
  · intro i k hk
    obtain ⟨k', hk', he⟩ := h.importWorkers i k hk
    obtain ⟨k'', hk'', he'⟩ := h'.importWorkers i k' hk'
    exact ⟨k'', hk'', he'.trans he⟩
  · intro i k hk
    obtain ⟨k', hk', he⟩ := h.indexWorkers i k hk
    obtain ⟨k'', hk'', he'⟩ := h'.indexWorkers i k' hk'
    exact ⟨k'', hk'', he'.trans he⟩

theorem later_step (s : System) (a : Action) (h : JobsInv env s) : Later s (step env s a) := by
  cases a with
  | tick elapsed =>
    exact { Later.refl s with clock := le_add_of_nonneg_right (Int.natCast_nonneg _) }
  | jobs a =>
    simp only [step]
    split
    · rename_i hfr
      obtain ⟨⟨-, hf⟩, -⟩ := hfr
      have hfresh : ∀ i ∈ (Jobs.actor s.world.clock a s.jobs).fresh, i ∉ s.world.issued := fun i hi =>
        hf i (Jobs.fresh_subset _ _ i hi)
      have hinserts : ∀ i ∈ (Jobs.actor s.world.clock a s.jobs).inserts, i ∉ s.world.issued := fun i hi =>
        hfresh i (List.mem_append_right _ hi)
      have himports : Job.Changes (Jobs.actor s.world.clock a s.jobs) s.jobs.db.imports
          (Jobs.step env s.world.clock a s.jobs).db.imports :=
        Jobs.imports_changes _ _ h.inv.imports h.inv.importClaims hf
      have hindexes : Job.Changes (Jobs.actor s.world.clock a s.jobs) s.jobs.db.indexes
          (Jobs.step env s.world.clock a s.jobs).db.indexes := Jobs.indexes_changes _ _ h.inv.indexes hf
      exact ⟨le_refl _, fun i hi => List.mem_append_left _ hi, himports.leases hfresh, hindexes.leases hfresh,
        himports.persists h.inv.imports hinserts, hindexes.persists h.inv.indexes hinserts,
        fun i k => Jobs.importWorkers_kept, fun i k => Jobs.indexWorkers_kept⟩
    · exact .refl s
  | chat a =>
    simp only [step]
    split
    · exact { Later.refl s with issued := fun i hi => List.mem_append_left _ hi }
    · exact .refl s

theorem later (acts more : List Action) : Later (run env acts) ((machine env).exec (run env acts) more) :=
  Machine.relates jobsInv_step Later.refl Later.trans later_step (jobsInv env acts) more

/-- A worker whose lease is not live changes no row. -/
theorem import_stale {s : System} (input : Imports.Input) {i : Nat} {k : Imports.Worker}
    (hk : s.jobs.importWorkers[i]? = some k)
    (hl : ¬ Job.lease.Live s.world.clock k.claim.jobId k.claim.leaseToken s.jobs.db.imports) :
    (step env s (.jobs (.importStep i input))).jobs.db = s.jobs.db := by
  simp only [step]
  split
  · simp only [Jobs.step, Jobs.importStep, hk]
    exact (Imports.step_effect s.world.clock k.claim input k.pc s.jobs.db).of_not_live hl
  · rfl

theorem index_stale {s : System} (input : Indexes.Input) {i : Nat} {k : Indexes.Worker}
    (hk : s.jobs.indexWorkers[i]? = some k)
    (hl : ¬ Job.lease.Live s.world.clock k.claim.jobId k.claim.leaseToken s.jobs.db.indexes) :
    (step env s (.jobs (.indexStep i input))).jobs.db = s.jobs.db := by
  simp only [step]
  split
  · simp only [Jobs.step, Jobs.indexStep, hk]
    exact (Indexes.step_effect env s.world.clock k.claim input k.pc s.jobs.db).of_not_live hl
  · rfl

/-- The output rows of an import or index are the whole result of the one claim that published it; a
worker that has lost its lease never changes a row again; and completed is absorbing. -/
theorem jobs_publish_once (env : Env) (acts more : List Action) :
    let s := run env acts
    let s' := (machine env).exec s more
    s.jobs.ImportsPublished ∧ s.jobs.IndexesPublished ∧
      (∀ (i : Nat) (k : Imports.Worker), s.jobs.importWorkers[i]? = some k →
        ¬ Job.lease.Live s.world.clock k.claim.jobId k.claim.leaseToken s.jobs.db.imports →
        ∀ input, (step env s' (.jobs (.importStep i input))).jobs.db = s'.jobs.db) ∧
      (∀ (i : Nat) (k : Indexes.Worker), s.jobs.indexWorkers[i]? = some k →
        ¬ Job.lease.Live s.world.clock k.claim.jobId k.claim.leaseToken s.jobs.db.indexes →
        ∀ input, (step env s' (.jobs (.indexStep i input))).jobs.db = s'.jobs.db) ∧
      (∀ j ∈ s.jobs.db.imports, j.status = .completed → ∀ j' ∈ s'.jobs.db.imports, j'.id = j.id →
        j'.status = .completed ∧ j'.data = j.data) ∧
      (∀ x ∈ s.jobs.db.indexes, x.status = .completed → ∀ x' ∈ s'.jobs.db.indexes, x'.id = x.id →
        x'.status = .completed ∧ x'.data = x.data) := by
  intro s s'
  have h : JobsInv env s := jobsInv env acts
  have hl : Later s s' := later acts more
  refine ⟨h.output.importsPublished, h.output.indexesPublished, ?_, ?_, ?_, ?_⟩
  · intro i k hk hdead input
    obtain ⟨k', hk', hc⟩ := hl.importWorkers i k hk
    refine import_stale input hk' fun hlive => hdead ?_
    rw [hc] at hlive
    exact hlive.of_evolves hl.importLeases (h.inv.importClaims k (List.mem_of_getElem? hk)).issued hl.clock
  · intro i k hk hdead input
    obtain ⟨k', hk', hc⟩ := hl.indexWorkers i k hk
    refine index_stale input hk' fun hlive => hdead ?_
    rw [hc] at hlive
    exact hlive.of_evolves hl.indexLeases (h.inv.indexClaims k (List.mem_of_getElem? hk)).issued hl.clock
  · intro j hj hs j' hj' hid
    exact hl.imports.completed h.inv.imports hj hs hj' hid
  · intro x hx hs x' hx' hid
    exact hl.indexes.completed h.inv.indexes hx hs hx' hid

end System
end RepoPilot
