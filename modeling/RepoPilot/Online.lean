import RepoPilot.GitHub
import RepoPilot.Snapshots

/-! # The system and GitHub

The addresses of repositories come from users, and what is stored of a repository comes from what GitHub answers to
the import workers. The log has every request they make, with what became of it. A worker may stop at any request:
its time runs out, or it dies. -/

namespace RepoPilot

/-- The source a worker has found. -/
def Imports.Pc.source : Imports.Pc → Option RepositorySource
  | .resolve | .failing _ | .done => none
  | .downloading source | .download source | .validating source | .validate source | .storing source _
  | .publish source _ | .published source _ => some source

/-- The worker has the archive. -/
def Imports.Pc.Downloaded : Imports.Pc → Prop
  | .validating _ | .validate _ | .storing _ _ | .publish _ _ | .published _ _ => True
  | _ => False

namespace Online
open Urls GitHub

/-- The request and what became of it. -/
abbrev Exchange := Request × Reply

structure State where
  system : System
  log : List Exchange

inductive Action
  | create (userId : Uuid) (value : Text) (limit : Option AppError) (repositoryId jobId : Uuid)
  | fetch (worker : Nat) (answer : Nat → Request → Reply)
  | stop (worker : Nat) (answer : Nat → Request → Reply) (requests : Nat)
  | other (action : System.Action)

/-- The pair of an address: it is parsed by `RepositoryCreate` and, written out again, by the service. -/
def requested (value : Text) : Option (Text × Text) :=
  (parseRepositoryUrl value).bind fun r => parseRepositoryUrl (address r)

/-- The action names no repository and brings nothing from GitHub. -/
def Offline : System.Action → Prop
  | .jobs (.createImport ..) | .jobs (.importStep _ (.resolved _)) | .jobs (.importStep _ .downloaded) => False
  | _ => True

instance : DecidablePred Offline := fun a => by
  unfold Offline
  split <;> infer_instance

variable {α : Type} (c : Client α)

/-- The requests of a worker, with their replies. -/
def exchanges (answer : Nat → Request → Reply) (k : Imports.Worker) : List Exchange :=
  match k.pc with
  | .resolve => (c.resolve answer k.claim.owner k.claim.name).1.mapIdx fun n r => (r, answer n r)
  | .download source => [(c.archiveRequest source, answer 0 (c.archiveRequest source))]
  | _ => []

/-- What the worker gets from GitHub. -/
def input (answer : Nat → Request → Reply) (k : Imports.Worker) : Option Imports.Input :=
  match k.pc with
  | .resolve =>
    match (c.resolve answer k.claim.owner k.claim.name).2 with
    | .ok source => some (.resolved source)
    | .error e => some (.raised e)
  | .download source =>
    match c.download (answer 0) source with
    | .ok _ => some .downloaded
    | .error e => some (.raised e)
  | _ => none

def step (env : Env) (s : State) : Action → State
  | .create userId value limit repositoryId jobId =>
    match requested value with
    | some r => { s with system := s.system.step env (.jobs (.createImport userId (.ok r) limit repositoryId jobId)) }
    | none => s
  | .fetch i answer =>
    match s.system.jobs.importWorkers[i]? with
    | some k =>
      match input c answer k with
      | some input => ⟨s.system.step env (.jobs (.importStep i input)), s.log ++ exchanges c answer k⟩
      | none => s
    | none => s
  | .stop i answer requests =>
    match s.system.jobs.importWorkers[i]? with
    | some k => { s with log := s.log ++ (exchanges c answer k).take requests }
    | none => s
  | .other a => if Offline a then { s with system := s.system.step env a } else s

/-- The system with GitHub as a machine. -/
def machine (env : Env) : Machine State Action := ⟨⟨(System.machine env).init, []⟩, step c env⟩

/-! ### What GitHub said -/

/-- Whole responses in the log say what the source of the pair is. -/
inductive Named (log : List Exchange) (owner name : Text) (source : RepositorySource) : Prop
  | mk {answer : Nat → Request → Reply} : Resolved c answer owner name source →
      (repositoryRequest owner name, answer 0 (repositoryRequest owner name)) ∈ log →
      (commitRequest source.owner source.name source.branch,
        answer 1 (commitRequest source.owner source.name source.branch)) ∈ log → Named log owner name source

/-- The whole archive arrived, within the limit. -/
def Archived (log : List Exchange) (source : RepositorySource) : Prop :=
  ∃ reply body, (c.archiveRequest source, reply) ∈ log ∧ Delivers c.archiveLimit body reply

/-- The row as its owner asked for it. -/
structure Asked (owner name : Text) (r : Repository) : Prop where
  owner : r.owner = owner
  name : r.name = name
  githubRepositoryId : r.githubRepositoryId = none
  defaultBranch : r.defaultBranch = none
  lastCommitSha : r.lastCommitSha = none
  importedAt : r.importedAt = none

/-- The row of an imported source. -/
def Kept (source : RepositorySource) (r : Repository) : Prop :=
  ∃ at', r = Imports.stored source at' r

/-- The row of a repository is what was asked for, or what GitHub says about it. -/
def Row (log : List Exchange) (r : Repository) : Prop :=
  ∃ value owner name, requested value = some (owner, name) ∧ r.sourceKey = owner ++ '/' :: name ∧
    r.sourceKey.length ≤ 200 ∧
    (Asked owner name r ∨
      ∃ source, Named c log owner name source ∧ Archived c log source ∧ source.Storable ∧ Kept source r)

/-- What a worker knows. -/
structure Knows (log : List Exchange) (claim : Claim) (pc : Imports.Pc) : Prop where
  named : ∀ source, pc.source = some source → Named c log claim.owner claim.name source
  archived : ∀ source, pc.source = some source → pc.Downloaded → Archived c log source

section Log
variable {c} {log more : List Exchange} {owner name : Text} {source : RepositorySource}

theorem Named.mono (h : Named c log owner name source) : Named c (log ++ more) owner name source := by
  obtain ⟨hr, hfirst, hsecond⟩ := h
  exact .mk hr (List.mem_append_left _ hfirst) (List.mem_append_left _ hsecond)

theorem Archived.mono (h : Archived c log source) : Archived c (log ++ more) source := by
  obtain ⟨reply, body, hlog, hbody⟩ := h
  exact ⟨reply, body, List.mem_append_left _ hlog, hbody⟩

theorem Row.mono {r : Repository} (h : Row c log r) : Row c (log ++ more) r := by
  obtain ⟨value, owner, name, hv, hkey, hfit, h⟩ := h
  refine ⟨value, owner, name, hv, hkey, hfit, h.imp_right ?_⟩
  rintro ⟨source, hn, ha, hk⟩
  exact ⟨source, hn.mono, ha.mono, hk⟩

theorem Knows.mono {claim : Claim} {pc : Imports.Pc} (h : Knows c log claim pc) : Knows c (log ++ more) claim pc :=
  ⟨fun source hs => (h.named source hs).mono, fun source hs hd => (h.archived source hs hd).mono⟩

theorem Named.wellFormed (h : Named c log owner name source) : WellFormed source := by
  obtain ⟨hr, -⟩ := h
  exact hr.wellFormed

theorem requested_segments {value : Text} (h : requested value = some (owner, name)) : Segment owner ∧ Segment name := by
  obtain ⟨r, -, hr⟩ := Option.bind_eq_some_iff.1 h
  obtain ⟨ho, hn, -⟩ := parse_segments hr
  exact ⟨ho, hn⟩

end Log

/-! ### Workers -/

section Workers
variable {c} {log : List Exchange} {answer : Nat → Request → Reply} {k : Imports.Worker}

theorem exchanges_routed (ho : Segment k.claim.owner) (hn : Segment k.claim.name)
    (hs : ∀ source, k.pc = .download source → WellFormed source) : ∀ e ∈ exchanges c answer k, Routed c e.1 := by
  intro e he
  unfold exchanges at he
  split at he
  · have hmem : e.1 ∈ (c.resolve answer k.claim.owner k.claim.name).1 := by
      obtain ⟨n, hlt, rfl⟩ := List.mem_mapIdx.1 he
      exact List.getElem_mem hlt
    rcases resolve_spec c answer k.claim.owner k.claim.name with ⟨source, hr, hsource⟩ | ⟨requests, e, hr, hleads, -⟩
    · rw [hr] at hmem
      refine (Leads.archive hsource.wellFormed : Leads c _ _ _).routed ho hn _ ?_
      simp only [List.mem_cons, List.not_mem_nil, or_false] at hmem ⊢
      tauto
    · rw [hr] at hmem
      exact hleads.routed ho hn _ hmem
  · rename_i source hpc
    rw [List.mem_singleton.1 he]
    exact .archive (hs source hpc) (goes_archive c (hs source hpc)) rfl
  · cases he

theorem named_exchanges {source : RepositorySource} (hpc : k.pc = .resolve)
    (h : input c answer k = some (.resolved source)) :
    Named c (log ++ exchanges c answer k) k.claim.owner k.claim.name source := by
  unfold input at h
  rw [hpc] at h
  dsimp only at h
  rcases resolve_spec c answer k.claim.owner k.claim.name with ⟨found, hr, hfound⟩ | ⟨requests, e, hr, -⟩
  · rw [hr] at h
    cases h
    set first := repositoryRequest k.claim.owner k.claim.name
    set second := commitRequest source.owner source.name source.branch
    have he : exchanges c answer k = [(first, answer 0 first), (second, answer 1 second)] := by
      unfold exchanges
      rw [hpc]
      dsimp only
      rw [hr]
      rfl
    rw [he]
    exact .mk hfound (List.mem_append_right _ List.mem_cons_self)
      (List.mem_append_right _ (List.mem_cons_of_mem _ List.mem_cons_self))
  · rw [hr] at h
    cases h

theorem archived_exchanges {source : RepositorySource} (hpc : k.pc = .download source)
    (h : input c answer k = some .downloaded) : Archived c (log ++ exchanges c answer k) source := by
  unfold input at h
  rw [hpc] at h
  dsimp only at h
  cases hget : c.download (answer 0) source with
  | error e =>
    rw [hget] at h
    cases h
  | ok body =>
    refine ⟨_, body, List.mem_append_right _ ?_, get_eq_ok.1 hget⟩
    unfold exchanges
    rw [hpc]
    exact List.mem_singleton_self _

theorem Knows.of_none {claim : Claim} {pc : Imports.Pc} (h : pc.source = none) : Knows c log claim pc := by
  refine ⟨fun source hs => ?_, fun source hs _ => ?_⟩ <;> cases h.symm.trans hs

theorem Knows.congr {claim : Claim} {pc pc' : Imports.Pc} (h : Knows c log claim pc) (hs : pc'.source = pc.source)
    (hd : pc'.Downloaded → pc.Downloaded) : Knows c log claim pc' :=
  ⟨fun source hs' => h.named source (hs.symm.trans hs'),
    fun source hs' hd' => h.archived source (hs.symm.trans hs') (hd hd')⟩

theorem handler_source (e : Raised) : (Imports.handler e).source = none := by
  cases e <;> rfl

theorem Knows.report {claim : Claim} {pc : Imports.Pc} (h : Knows c log claim pc) (now : Time) (stage : String)
    (db : Db) : Knows c log claim (Imports.report now claim stage pc db).1 := by
  unfold Imports.report
  split
  · exact h
  · exact .of_none rfl

/-- A worker learns from GitHub only. -/
theorem Knows.step {claim : Claim} {pc : Imports.Pc} {input : Imports.Input} (h : Knows c log claim pc) (now : Time)
    (db : Db)
    (hr : ∀ source, pc = .resolve → input = .resolved source → Named c log claim.owner claim.name source)
    (hd : ∀ source, pc = .download source → input = .downloaded → Archived c log source) :
    Knows c log claim (Imports.step now claim input pc db).1 := by
  unfold Imports.step
  split
  · refine ⟨fun source hs => ?_, fun source hs hdown => hdown.elim⟩
    cases hs
    exact hr _ rfl rfl
  · refine .report ?_ now _ db
    exact h.congr rfl id
  · rename_i source
    refine ⟨h.named, fun source' hs _ => ?_⟩
    cases hs
    exact hd _ rfl rfl
  · refine .report ?_ now _ db
    exact h.congr rfl id
  · exact h.congr rfl id
  · refine .report ?_ now _ db
    exact h.congr rfl id
  · split
    · split
      · split
        · exact h.congr rfl id
        · exact .of_none rfl
      · exact .of_none rfl
    · exact h
  · exact .of_none rfl
  · exact h
  · exact h
  · exact h
  · exact .of_none (handler_source _)
  · exact h

end Workers

/-! ### Rows -/

section Rows
variable {env : Env} {now : Time} {a : Jobs.Action} {s : Jobs} {r' : Repository}

/-- A row that `create` adds. -/
theorem create_row {userId repositoryId jobId : Uuid} {source : Except AppError (Text × Text)} {limit : Option AppError}
    {db : Db} {p : Db × Repository × ImportJob} (h : Imports.create now userId source limit repositoryId jobId db = .ok p) :
    ∃ owner name, source = .ok (owner, name) ∧ p.1.repositories = db.repositories ++ [p.2.1] ∧
      p.2.1.id = repositoryId ∧ p.2.1.sourceKey = owner ++ '/' :: name ∧ p.2.1.sourceKey.length ≤ 200 ∧
      Asked owner name p.2.1 := by
  unfold Imports.create at h
  simp only [bind_ok, lift_ok, demand_ok] at h
  obtain ⟨-, -, -, -, -, -, ⟨owner, name⟩, hs, -, hfit, -, -, h⟩ := h
  dsimp only at h
  split at h
  · cases h
  · cases h
    exact ⟨owner, name, hs, rfl, rfl, rfl, hfit.1, rfl, rfl, rfl, rfl, rfl, rfl⟩

/-- Where a row comes from. -/
inductive Arises (now : Time) (a : Jobs.Action) (s s' : Jobs) (r' : Repository) : Prop
  | same : r' ∈ s.db.repositories → Arises now a s s' r'
  | created {userId jobId : Uuid} {owner name : Text} {limit : Option AppError} :
      a = .createImport userId (.ok (owner, name)) limit r'.id jobId → r'.sourceKey = owner ++ '/' :: name →
      r'.sourceKey.length ≤ 200 → Asked owner name r' → Arises now a s s' r'
  | stored {i : Nat} {ids : List Uuid} {k : Imports.Worker} {r : Repository} {source : RepositorySource}
      {result : ArchiveResult} {imports : List ImportJob} : a = .importStep i (.go ids) →
      s.importWorkers[i]? = some k → k.pc = .publish source result → r ∈ s.db.repositories →
      r.id = k.claim.repositoryId → r' = Imports.stored source now r →
      Job.fenced now k.claim (Job.finished now (Imports.counters result)) s.db.imports = some imports →
      s'.db.imports = imports → source.Storable → Arises now a s s' r'

theorem arises (h : r' ∈ (Jobs.step env now a s).db.repositories) : Arises now a s (Jobs.step env now a s) r' := by
  cases hk : a.kind with
  | indexes => exact .same ((Jobs.frame_indexes _ _ _ hk).1 ▸ h)
  | searches => exact .same ((Jobs.frame_searches _ _ _ hk).1 ▸ h)
  | removal =>
    cases a <;> try cases hk
    case removal.removeRepository.refl userId repositoryId =>
      simp only [Jobs.step] at h
      rcases Jobs.removeRepository_cases s.db userId repositoryId with he | he <;> rw [he] at h
      · exact .same h
      · exact .same (List.mem_of_mem_filter h)
  | imports =>
    cases a <;> try cases hk
    case imports.createImport.refl userId source limit repositoryId jobId =>
      simp only [Jobs.step] at h
      rcases Jobs.committed_cases s.db (Imports.create now userId source limit repositoryId jobId s.db) with
        he | ⟨p, hp, he⟩ <;> rw [he] at h
      · exact .same h
      obtain ⟨owner, name, rfl, hr, rfl, hkey, hfit, hasked⟩ := create_row hp
      rw [hr] at h
      rcases List.mem_append.1 h with h | h
      · exact .same h
      · rw [List.mem_singleton.1 h]
        exact .created rfl hkey hfit hasked
    case imports.retryImport.refl userId repositoryId limit jobId =>
      simp only [Jobs.step] at h
      rcases Jobs.committed_cases s.db (Imports.retry now userId repositoryId limit jobId s.db) with
        he | ⟨p, hp, he⟩ <;> rw [he] at h
      · exact .same h
      · obtain ⟨imports, old, repository, hdb, -⟩ := Imports.retry_eq hp
        rw [hdb] at h
        exact .same h
    case imports.cancelImport.refl userId repositoryId =>
      simp only [Jobs.step] at h
      rcases Jobs.committed_map_cases s.db (Imports.cancel now userId repositoryId s.db) with he | ⟨db', hp, he⟩ <;>
        rw [he] at h
      · exact .same h
      · obtain ⟨-, job, -, hdb⟩ := Imports.cancel_eq hp
        rw [hdb] at h
        exact .same h
    case imports.claimImport.refl jobId token =>
      simp only [Jobs.step, Jobs.claimImport] at h
      split at h <;> exact .same h
    case imports.importStep.refl i input =>
      cases hi : s.importWorkers[i]? with
      | none =>
        simp only [Jobs.step, Jobs.importStep, hi] at h
        exact .same h
      | some k =>
        have hdb : (Jobs.step env now (.importStep i input) s).db = (Imports.step now k.claim input k.pc s.db).2 := by
          simp only [Jobs.step, Jobs.importStep, hi]
        have he := Imports.step_effect now k.claim input k.pc s.db
        rw [hdb] at h
        generalize hdb' : (Imports.step now k.claim input k.pc s.db).2 = db' at h he hdb
        generalize (Imports.step now k.claim input k.pc s.db).1 = pc' at he
        cases he with
        | idle => exact .same h
        | advanced => exact .same h
        | reported => exact .same h
        | published hpc hin _ hp hstorable =>
          obtain ⟨imports, hf, rfl⟩ := Imports.publishResult_eq hp
          obtain ⟨r, hr, rfl⟩ := Table.mem_update.1 h
          split
          · rename_i hid
            exact .stored (by rw [hin]) hi hpc hr hid rfl hf (by rw [hdb]) hstorable
          · exact .same hr
        | failed failure =>
          rcases Imports.recordFailure_eq now k.claim failure s.db with he | ⟨imports, he, -⟩ <;> rw [he] at h <;>
            exact .same h
    case imports.importCycle.refl input => exact .same h

/-- A row keeps its key, unless it is new. -/
theorem Arises.key {s' : Jobs} (h : Arises now a s s' r') :
    r'.id ∈ a.ids ∨ ∃ r ∈ s.db.repositories, r.id = r'.id ∧ r.sourceKey = r'.sourceKey := by
  cases h with
  | same hr => exact .inr ⟨r', hr, rfl, rfl⟩
  | created ha =>
    rw [ha]
    exact .inl List.mem_cons_self
  | stored _ _ _ hr _ he =>
    rw [he]
    exact .inr ⟨_, hr, rfl, rfl⟩

end Rows

/-! ### What holds in every state -/

/-- The claim names the repository as its owner asked for it. -/
structure Claimed (s : System) (claim : Claim) : Prop where
  issued : claim.repositoryId ∈ s.world.issued
  asked : ∃ value, requested value = some (claim.owner, claim.name)
  key : ∀ r ∈ s.jobs.db.repositories, r.id = claim.repositoryId → r.sourceKey = claim.owner ++ '/' :: claim.name

structure Inv (env : Env) (s : State) : Prop where
  snap : System.SnapInv env s.system
  rows : ∀ r ∈ s.system.jobs.db.repositories, Row c s.log r
  completed : ∀ r ∈ s.system.jobs.db.repositories, r.lastCommitSha.isSome →
    ∃ j ∈ s.system.jobs.db.imports, j.repositoryId = r.id ∧ j.status = .completed
  knows : ∀ k ∈ s.system.jobs.importWorkers, Knows c s.log k.claim k.pc
  claimed : ∀ k ∈ s.system.jobs.importWorkers, Claimed s.system k.claim
  log : ∀ e ∈ s.log, Routed c e.1

/-- What an action brings from outside is true. -/
structure Truthful (s : State) (a : System.Action) : Prop where
  created : ∀ userId r limit repositoryId jobId, a = .jobs (.createImport userId (.ok r) limit repositoryId jobId) →
    ∃ value, requested value = some r
  resolved : ∀ i k source, a = .jobs (.importStep i (.resolved source)) → s.system.jobs.importWorkers[i]? = some k →
    k.pc = .resolve → Named c s.log k.claim.owner k.claim.name source
  downloaded : ∀ i k source, a = .jobs (.importStep i .downloaded) → s.system.jobs.importWorkers[i]? = some k →
    k.pc = .download source → Archived c s.log source

section Invariant
variable {c} {env : Env} {s : State}

theorem Inv.logged (h : Inv c env s) {more : List Exchange} (hm : ∀ e ∈ more, Routed c e.1) :
    Inv c env { s with log := s.log ++ more } where
  snap := h.snap
  rows r hr := (h.rows r hr).mono
  completed := h.completed
  knows k hk := (h.knows k hk).mono
  claimed := h.claimed
  log e he := (List.mem_append.1 he).elim (h.log e) (hm e)

section Jobs
variable {a : Jobs.Action} {r' : Repository}

theorem Inv.rows_step (h : Inv c env s) (ht : Truthful c s (.jobs a))
    (hr' : r' ∈ (Jobs.step env s.system.world.clock a s.system.jobs).db.repositories) : Row c s.log r' := by
  cases arises hr' with
  | same hr => exact h.rows r' hr
  | created ha hkey hfit hasked =>
    obtain ⟨value, hv⟩ := ht.created _ _ _ _ _ (by rw [ha])
    exact ⟨value, _, _, hv, hkey, hfit, .inl hasked⟩
  | @stored i ids k r source result imports ha hi hpc hr hid he _ _ hstorable =>
    have hk : k ∈ s.system.jobs.importWorkers := Table.mem_of_getElem? hi
    have hknows := h.knows k hk
    rw [hpc] at hknows
    obtain ⟨value, hv⟩ := (h.claimed k hk).asked
    obtain ⟨-, -, -, -, -, hfit, -⟩ := h.rows r hr
    rw [he]
    exact ⟨value, _, _, hv, (h.claimed k hk).key r hr hid, hfit,
      .inr ⟨source, hknows.named source rfl, hknows.archived source rfl trivial, hstorable, _, rfl⟩⟩

theorem Inv.completed_step (h : Inv c env s) (hf : System.Fresh s.system.world.issued a.ids)
    (hr' : r' ∈ (Jobs.step env s.system.world.clock a s.system.jobs).db.repositories) (hs : r'.lastCommitSha.isSome) :
    ∃ j ∈ (Jobs.step env s.system.world.clock a s.system.jobs).db.imports,
      j.repositoryId = r'.id ∧ j.status = .completed := by
  cases arises hr' with
  | same hr =>
    obtain ⟨j, hj, hjr, hc⟩ := h.completed r' hr hs
    have hfixed := Jobs.fixed env s.system.world.clock h.snap.snapped h.snap.gen.jobs.inv hf.2 ⟨r', hr', rfl⟩
    obtain ⟨⟨j', hj', hd⟩, -⟩ := hfixed.imports j hj hjr hc
    exact ⟨j', hj', hd.filed.repositoryId_eq.trans hjr, hd.filed.status_eq.trans hc⟩
  | created _ _ _ hasked =>
    rw [hasked.lastCommitSha] at hs
    cases hs
  | @stored i ids k r source result imports ha hi hpc hr hid he hfe himports _ =>
    obtain ⟨⟨q, hq, hl, -⟩, hupd⟩ := Job.fencedIf_isSome hfe
    have hrow := ((h.snap.gen.jobs.inv.importClaims k (Table.mem_of_getElem? hi)).row q hq hl.1 hl.2.2.1).2
    refine ⟨Job.finished s.system.world.clock (Imports.counters result) q, ?_, ?_, rfl⟩
    · rw [himports, hupd]
      exact Table.mem_update.2 ⟨q, hq, by rw [if_pos ⟨hl, trivial⟩]⟩
    · rw [he]
      exact hrow.trans hid.symm

/-- A claim is made before anything is stored, so it names what was asked for. -/
theorem Inv.claim (h : Inv c env s) {jobId token : Uuid} {p : List ImportJob × Claim}
    (hp : Job.claimJob s.system.world.clock s.system.jobs.db.repositories jobId token s.system.jobs.db.imports = some p) :
    Claimed s.system p.2 := by
  unfold Job.claimJob at hp
  simp only [Option.bind_eq_bind, Option.bind_eq_some_iff] at hp
  obtain ⟨j, hj, r, hr, hp⟩ := hp
  cases hp
  have hw := List.find?_some hj
  have hrid := List.find?_some hr
  simp only [decide_eq_true_eq] at hw hrid
  have hjm := List.mem_of_find?_eq_some hj
  have hrm := List.mem_of_find?_eq_some hr
  obtain ⟨value, owner, name, hv, hkey, -, horigin⟩ := h.rows r hrm
  have hasked : Asked owner name r := by
    refine horigin.resolve_right ?_
    rintro ⟨source, -, -, -, at', hkept⟩
    obtain ⟨q, hq, hqr, hc⟩ := h.completed r hrm (by rw [hkept]; rfl)
    have hqj : q = j := h.snap.gen.jobs.inv.imports.current q hq j hjm (h.snap.snapped.current q hq hc) hw.2.1
      (hqr.trans hrid)
    rw [hqj] at hc
    rcases hw.2.2.2.2 with hs | ⟨hs, -⟩ <;> cases hc.symm.trans hs
  refine ⟨h.snap.gen.chat.owners.ids r hrm, ⟨value, ?_⟩, fun r' hr' hid => ?_⟩
  · rw [hasked.owner, hasked.name]
    exact hv
  · rw [h.snap.gen.chat.owners.keyed.eq hr' hrm hid, hasked.owner, hasked.name]
    exact hkey

theorem Claimed.step {s : System} {claim : Claim} (h : Claimed s claim) (hf : System.Fresh s.world.issued a.ids)
    (chat : Chat) :
    Claimed ⟨⟨s.world.clock, s.world.issued ++ a.ids⟩, Jobs.step env s.world.clock a s.jobs, chat⟩ claim := by
  refine ⟨List.mem_append_left _ h.issued, h.asked, fun r' hr' hid => ?_⟩
  rcases (arises hr').key with hnew | ⟨r, hr, hrid, hkey⟩
  · exact absurd (hid ▸ h.issued) (hf.2 _ hnew)
  · exact hkey ▸ h.key r hr (hrid.trans hid)

/-- The workers after an action. -/
theorem Inv.worker_step (h : Inv c env s) (ht : Truthful c s (.jobs a)) {k : Imports.Worker}
    (hk : k ∈ (Jobs.step env s.system.world.clock a s.system.jobs).importWorkers) :
    Knows c s.log k.claim k.pc ∧ Claimed s.system k.claim := by
  rcases Jobs.Inv.importWorkers_step hk with hk | ⟨jobId, token, p, rfl, hp, rfl, -⟩ | ⟨i, input, k₀, rfl, hi, -, -⟩
  · exact ⟨h.knows k hk, h.claimed k hk⟩
  · exact ⟨.of_none rfl, h.claim hp⟩
  · have hk₀ := Table.mem_of_getElem? hi
    simp only [Jobs.step, Jobs.importStep, hi] at hk
    rcases List.mem_or_eq_of_mem_set hk with hk | rfl
    · exact ⟨h.knows k hk, h.claimed k hk⟩
    · refine ⟨(h.knows k₀ hk₀).step _ _ (fun source hpc hin => ?_) fun source hpc hin => ?_, h.claimed k₀ hk₀⟩
      · exact ht.resolved i k₀ source (by rw [hin]) hi hpc
      · exact ht.downloaded i k₀ source (by rw [hin]) hi hpc

end Jobs

theorem Inv.acts (h : Inv c env s) {a : System.Action} (ht : Truthful c s a) :
    Inv c env { s with system := s.system.step env a } := by
  have hsnap := System.snapInv_step s.system a h.snap
  cases a with
  | tick elapsed => exact ⟨hsnap, h.rows, h.completed, h.knows, fun k hk =>
      ⟨(h.claimed k hk).issued, (h.claimed k hk).asked, (h.claimed k hk).key⟩, h.log⟩
  | chat a =>
    simp only [System.step] at hsnap ⊢
    split at hsnap
    · rename_i hfr
      rw [if_pos hfr]
      exact ⟨hsnap, h.rows, h.completed, h.knows, fun k hk =>
        ⟨List.mem_append_left _ (h.claimed k hk).issued, (h.claimed k hk).asked, (h.claimed k hk).key⟩, h.log⟩
    · rename_i hfr
      rw [if_neg hfr]
      exact h
  | jobs a =>
    simp only [System.step] at hsnap ⊢
    split at hsnap
    · rename_i hfr
      rw [if_pos hfr]
      exact ⟨hsnap, fun r hr => h.rows_step ht hr, fun r hr => h.completed_step hfr.1 hr,
        fun k hk => (h.worker_step ht hk).1, fun k hk => (h.worker_step ht hk).2.step hfr.1 _, h.log⟩
    · rename_i hfr
      rw [if_neg hfr]
      exact h

theorem Inv.routed (h : Inv c env s) {k : Imports.Worker} (hk : k ∈ s.system.jobs.importWorkers)
    (answer : Nat → Request → Reply) : ∀ e ∈ exchanges c answer k, Routed c e.1 := by
  obtain ⟨value, hv⟩ := (h.claimed k hk).asked
  obtain ⟨ho, hn⟩ := requested_segments hv
  refine exchanges_routed ho hn fun source hpc => ?_
  exact ((h.knows k hk).named source (by rw [hpc]; rfl)).wellFormed

theorem Truthful.of_offline {a : System.Action} (h : Offline a) : Truthful c s a := by
  constructor
  · rintro _ _ _ _ _ rfl
    exact h.elim
  · rintro _ _ _ rfl
    exact h.elim
  · rintro _ _ _ rfl
    exact h.elim

theorem inv_step (s : State) (a : Action) (h : Inv c env s) : Inv c env (step c env s a) := by
  cases a with
  | create userId value limit repositoryId jobId =>
    simp only [step]
    split
    · rename_i r hr
      refine h.acts ⟨fun _ r' _ _ _ he => ?_, fun _ _ _ he => ?_, fun _ _ _ he => ?_⟩ <;> cases he
      exact ⟨value, hr⟩
    · exact h
  | fetch i answer =>
    simp only [step]
    split
    · rename_i k hi
      have hk := Table.mem_of_getElem? hi
      split
      · rename_i got hin
        refine (h.logged (h.routed hk answer)).acts ⟨fun _ _ _ _ _ he => ?_, fun i' k' source he hi' hpc => ?_,
          fun i' k' source he hi' hpc => ?_⟩ <;> cases he
        · cases hi.symm.trans hi'
          exact named_exchanges hpc hin
        · cases hi.symm.trans hi'
          exact archived_exchanges hpc hin
      · exact h
    · exact h
  | stop i answer requests =>
    simp only [step]
    split
    · rename_i k hi
      exact h.logged fun e he => h.routed (Table.mem_of_getElem? hi) answer e (List.mem_of_mem_take he)
    · exact h
  | other a =>
    simp only [step]
    split
    · rename_i ho
      exact h.acts (.of_offline ho)
    · exact h

theorem inv (c : Client α) (env : Env) (acts : List Action) : Inv c env ((machine c env).run acts) := by
  refine Machine.invariant ⟨System.snapInv env [], ?_, ?_, ?_, ?_, List.forall_mem_nil _⟩ inv_step acts
  all_goals exact List.forall_mem_nil _

end Invariant

/-- What the columns of a row hold is well formed and fits them. -/
structure Fits (r : Repository) : Prop where
  sourceKey : r.sourceKey.length ≤ 200
  owner : Segment r.owner
  name : Segment r.name
  githubRepositoryId : ∀ id ∈ r.githubRepositoryId, 0 < id ∧ id < 2 ^ 63
  defaultBranch : ∀ branch ∈ r.defaultBranch, 1 ≤ branch.length ∧ branch.length ≤ 255
  lastCommitSha : ∀ sha ∈ r.lastCommitSha, Sha sha

theorem Row.fits {log : List Exchange} {r : Repository} (h : Row c log r) : Fits r := by
  obtain ⟨value, owner, name, hv, -, hfit, ha | ⟨source, hn, -, hs, at', hkept⟩⟩ := h
  · obtain ⟨ho, hn⟩ := requested_segments hv
    refine ⟨hfit, ha.owner ▸ ho, ha.name ▸ hn, fun _ hm => ?_, fun _ hm => ?_, fun _ hm => ?_⟩
    · cases ha.githubRepositoryId.symm.trans hm
    · cases ha.defaultBranch.symm.trans hm
    · cases ha.lastCommitSha.symm.trans hm
  · have hw := hn.wellFormed
    rw [hkept] at hfit ⊢
    refine ⟨hfit, hw.owner, hw.name, ?_, ?_, ?_⟩
    · rintro _ ⟨⟩
      exact ⟨hw.githubId, hs.githubId⟩
    · rintro _ ⟨⟩
      exact hw.branch
    · rintro _ ⟨⟩
      exact hw.sha

/-- Import workers talk to GitHub only: every request they ever make, interrupted attempts included, asks for a
repository, one of its commits or an archive, at the address of exactly these names. What is stored of a repository
is what its owner asked for or, from the completion of its import on, what GitHub's whole answers say about it, and it
fits the columns. -/
theorem stored_from_github (c : Client α) (env : Env) (acts : List Action) :
    let s := (machine c env).run acts
    (∀ e ∈ s.log, Routed c e.1) ∧
      ∀ r ∈ s.system.jobs.db.repositories, Row c s.log r ∧ Fits r ∧
        (r.lastCommitSha.isSome ↔ ∃ j ∈ s.system.jobs.db.imports, j.repositoryId = r.id ∧ j.status = .completed) := by
  intro s
  have h : Inv c env s := inv c env acts
  refine ⟨h.log, fun r hr => ⟨h.rows r hr, (h.rows r hr).fits, h.completed r hr, ?_⟩⟩
  rintro ⟨j, hj, hjr, hc⟩
  exact h.snap.snapped.fetched j hj hc r hr hjr.symm

end Online
end RepoPilot
