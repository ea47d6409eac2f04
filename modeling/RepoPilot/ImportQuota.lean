import RepoPilot.Machine
import RepoPilot.RateLimits
import RepoPilot.JobChanges

/-! # How many imports an hour

Creates and retries pass two limiters: the counter in Redis, which starts anew when it has expired, and the count
in the database, which forgets a job with its repository. Requests overlap: one that passed Redis goes to the
database at any later time. Every clock reading is free. -/

namespace RepoPilot

namespace Imports

/-! ### The requests after their limiters -/

/-- `RepositoryService.create` after `_quota`. -/
def connect (now : Time) (userId : Uuid) (source : Except AppError (Text × Text)) (repositoryId jobId : Uuid)
    (db : Db) : Except Raised (Db × Repository × ImportJob) := do
  refuse (20 ≤ (db.repositories.filter (·.userId = userId)).length)
    ⟨"repository_limit", "Limit of twenty repositories reached. Remove one first.", 409⟩
  let (owner, name) ← lift source
  let repository : Repository :=
    { id := repositoryId
      userId := userId
      sourceKey := owner ++ '/' :: name
      owner := owner
      name := name
      githubRepositoryId := none
      defaultBranch := none
      lastCommitSha := none
      importedAt := none
      createdAt := now }
  demand (Fitting owner name)
  refuse (∃ r ∈ db.repositories, r.userId = userId ∧ r.sourceKey = repository.sourceKey) repositoryExists
  let job : ImportJob := Job.new jobId repositoryId now ⟨0, 0, 0⟩
  match Job.insert db.imports job with
  | none => .error (.app repositoryExists)
  | some imports =>
    .ok ({ db with repositories := db.repositories ++ [repository], imports := imports }, repository, job)

/-- `RepositoryService.retry` after `_quota`. -/
def renew (now : Time) (userId repositoryId newId : Uuid) (db : Db) : Except Raised (Db × Repository × ImportJob) := do
  let (repository, job) ← lift (db.owned userId repositoryId)
  refuse (¬ ∃ j ∈ db.imports, RetryWhere job.id j)
    ⟨"invalid_job_state", "Only failed or cancelled imports can be retried.", 409⟩
  let new : ImportJob := Job.new newId repository.id now ⟨0, 0, 0⟩
  match Job.insert (Table.update (RetryWhere job.id) Job.superseded db.imports) new with
  | none => .error .other
  | some imports => .ok ({ db with imports := imports }, repository, new)

theorem create_split (now : Time) (userId : Uuid) (source : Except AppError (Text × Text)) (limit : Option AppError)
    (repositoryId jobId : Uuid) (db : Db) :
    create now userId source limit repositoryId jobId db =
      (check limit >>= fun _ => quota now db userId >>= fun _ => connect now userId source repositoryId jobId db) :=
  rfl

theorem retry_split (now : Time) (userId repositoryId : Uuid) (limit : Option AppError) (newId : Uuid) (db : Db) :
    retry now userId repositoryId limit newId db =
      (check limit >>= fun _ => quota now db userId >>= fun _ => renew now userId repositoryId newId db) :=
  rfl

/-- A job the database counts at `now`. -/
def Counted (now : Time) (db : Db) (userId : Uuid) (j : ImportJob) : Prop :=
  db.repositories.any (fun r => r.id = j.repositoryId ∧ r.userId = userId) ∧ now - hours 1 < j.createdAt

instance (now : Time) (db : Db) (userId : Uuid) : DecidablePred (Counted now db userId) := fun j =>
  inferInstanceAs (Decidable
    (db.repositories.any (fun r => r.id = j.repositoryId ∧ r.userId = userId) ∧ now - hours 1 < j.createdAt))

variable {now : Time} {db db' : Db} {userId : Uuid} {r : Repository} {job : ImportJob}

theorem quota_ok {u : Unit} : quota now db userId = .ok u ↔ (db.imports.filter (Counted now db userId ·)).length < 5 :=
  refuse_ok.trans Nat.not_le

theorem connect_ok {source : Except AppError (Text × Text)} {repositoryId jobId : Uuid}
    (h : connect now userId source repositoryId jobId db = .ok (db', r, job)) :
    job = Job.new jobId r.id now ⟨0, 0, 0⟩ := by
  unfold connect at h
  obtain ⟨_, -, h⟩ := bind_ok.1 h
  obtain ⟨_, -, h⟩ := bind_ok.1 h
  obtain ⟨_, -, h⟩ := bind_ok.1 h
  obtain ⟨_, -, h⟩ := bind_ok.1 h
  dsimp only at h
  split at h
  · cases h
  · cases h
    rfl

theorem renew_ok {repositoryId newId : Uuid} (h : renew now userId repositoryId newId db = .ok (db', r, job)) :
    job = Job.new newId r.id now ⟨0, 0, 0⟩ := by
  unfold renew at h
  obtain ⟨_, -, h⟩ := bind_ok.1 h
  obtain ⟨_, -, h⟩ := bind_ok.1 h
  dsimp only at h
  split at h
  · cases h
  · cases h
    rfl

end Imports

namespace ImportQuota
open RateLimits Imports

/-! ### The machine -/

/-- Where a request is that Redis let through; an accepted one has its job. -/
inductive Progress
  | admitted
  | refused
  | accepted (jobId : Uuid) (createdAt : Time)
  deriving DecidableEq

/-- A request of `userId`; `window` is the counter it was counted in. -/
structure Request where
  userId : Uuid
  window : Nat
  progress : Progress
  deriving DecidableEq

/-- The job system with the counters in Redis; `windows` numbers the counters each user has had. -/
structure State where
  jobs : Jobs
  redis : Redis
  windows : Uuid → Nat
  requests : List Request

def importLimit (userId : Uuid) : Limit := ⟨⟨"imports:user:", userId⟩, 5, 3600⟩

/-- What a request asks of the database. -/
inductive Asked
  | create (source : Except AppError (Text × Text)) (repositoryId jobId : Uuid)
  | retry (repositoryId jobId : Uuid)

def Asked.jobId : Asked → Uuid
  | .create _ _ jobId => jobId
  | .retry _ jobId => jobId

/-- The transaction of a request: the count reads the clock of the application, the new rows get the time of the
database. -/
def Asked.transaction (asked : Asked) (counted now : Time) (userId : Uuid) (db : Db) :
    Except Raised (Db × Repository × ImportJob) := do
  quota counted db userId
  match asked with
  | .create source repositoryId jobId => connect now userId source repositoryId jobId db
  | .retry repositoryId jobId => renew now userId repositoryId jobId db

inductive Action
  /-- A create or retry asks Redis. -/
  | enter (userId : Uuid) (now : Time) (reply : Reply)
  /-- The request `i` asks the database. -/
  | submit (i : Nat) (asked : Asked) (counted now : Time)
  /-- Anything else the job system does. -/
  | jobs (now : Time) (a : Jobs.Action)

/-- The actions of the job system that are not requests for an import. -/
def Other : Jobs.Action → Bool
  | .createImport .. | .retryImport .. => false
  | _ => true

namespace Progress

def jobId : Progress → Option Uuid
  | .accepted jobId _ => some jobId
  | _ => none

def createdAt : Progress → Option Time
  | .accepted _ createdAt => some createdAt
  | _ => none

end Progress

namespace State

/-- Nobody has asked for anything. -/
def empty : State := ⟨Jobs.empty, fun _ => none, fun _ => 0, []⟩

/-- `limiter.check`; a request it lets through is counted in the counter that runs now. -/
def enter (userId : Uuid) (now : Time) (reply : Reply) (s : State) : State :=
  let p := checkLimits now reply [importLimit userId] s.redis
  let windows :=
    if reply ≠ .unreachable ∧ running now s.redis (importLimit userId).key = none then
      Function.update s.windows userId (s.windows userId + 1)
    else s.windows
  { s with
    redis := p.2
    windows := windows
    requests := match p.1 with
      | none => s.requests ++ [⟨userId, windows userId, .admitted⟩]
      | some _ => s.requests }

/-- The transaction of an admitted request; an identifier is drawn once. -/
def submit (i : Nat) (asked : Asked) (counted now : Time) (s : State) : State :=
  match s.requests[i]? with
  | none => s
  | some r =>
    if r.progress = .admitted ∧ ∀ q ∈ s.requests, q.progress.jobId ≠ some asked.jobId then
      match asked.transaction counted now r.userId s.jobs.db with
      | .ok (db, _, job) =>
        { s with jobs.db := db, requests := s.requests.set i { r with progress := .accepted job.id job.createdAt } }
      | .error _ => { s with requests := s.requests.set i { r with progress := .refused } }
    else s

end State

def step (env : Env) (s : State) : Action → State
  | .enter userId now reply => s.enter userId now reply
  | .submit i asked counted now => s.submit i asked counted now
  | .jobs now a => if Other a then { s with jobs := Jobs.step env now a s.jobs } else s

def machine (env : Env) : Machine State Action := ⟨.empty, step env⟩

/-- The state after the actions `acts`. -/
def run (env : Env) (acts : List Action) : State := (machine env).run acts

/-! ### Five an hour -/

/-- The request of `userId` was accepted in the hour from `start`. -/
def Request.AcceptedIn (userId : Uuid) (start : Time) (r : Request) : Prop :=
  r.userId = userId ∧ ∃ a ∈ r.progress.createdAt, start ≤ a ∧ a < start + hours 1

instance (userId : Uuid) (start : Time) : DecidablePred (Request.AcceptedIn userId start) := fun r =>
  inferInstanceAs (Decidable (r.userId = userId ∧ ∃ a ∈ r.progress.createdAt, start ≤ a ∧ a < start + hours 1))

/-- Any hour has at most five new jobs of a user. -/
def FivePerHour (s : State) : Prop :=
  ∀ userId start, s.requests.countP (Request.AcceptedIn userId start ·) ≤ 5

/-- The request of `userId` was accepted later than an hour before `now`. -/
def Request.Recent (userId : Uuid) (now : Time) (r : Request) : Prop :=
  r.userId = userId ∧ ∃ a ∈ r.progress.createdAt, now - hours 1 < a

instance (userId : Uuid) (now : Time) : DecidablePred (Request.Recent userId now) := fun r =>
  inferInstanceAs (Decidable (r.userId = userId ∧ ∃ a ∈ r.progress.createdAt, now - hours 1 < a))

/-- The count in the database sees every recent job: none was removed, and its clock is not ahead. -/
def State.SeenByDatabase (s : State) (r : Request) (counted now : Time) : Prop :=
  ∀ q ∈ s.requests, q.Recent r.userId now →
    ∃ j ∈ s.jobs.db.imports, q.progress.jobId = some j.id ∧ Counted counted s.jobs.db r.userId j

/-- The counter that let `r` through has counted every recent job. -/
def State.SeenByRedis (s : State) (r : Request) (now : Time) : Prop :=
  ∀ q ∈ s.requests, q.Recent r.userId now → q.window = r.window

/-- A request that the count does not refuse has one of the two limiters see every recent job. -/
def Seen (s : State) : Action → Prop
  | .submit i _ counted now =>
    ∀ r ∈ s.requests[i]?, (s.jobs.db.imports.filter (Counted counted s.jobs.db r.userId ·)).length < 5 →
      s.SeenByDatabase r counted now ∨ s.SeenByRedis r now
  | _ => True

instance (s : State) (a : Action) : Decidable (Seen s a) := by
  cases a <;> unfold Seen State.SeenByDatabase State.SeenByRedis <;> infer_instance

/-! ### The invariant -/

/-- The requests of a user that were counted in the counter `w`. -/
def State.passed (s : State) (userId : Uuid) (w : Nat) : Nat :=
  s.requests.countP fun r => r.userId = userId ∧ r.window = w

/-- A counter has let through at most five requests, the last one at most as many as it shows. -/
structure Inv (s : State) : Prop where
  fits : ∀ userId w, s.passed userId w ≤ 5
  later : ∀ userId w, s.windows userId < w → s.passed userId w = 0
  shown : ∀ userId, s.passed userId (s.windows userId) ≤ ((s.redis (importLimit userId).key).map (·.count)).getD 0
  drawn : (s.requests.filterMap (·.progress.jobId)).Nodup

variable {s : State}

theorem Inv.empty : Inv .empty :=
  ⟨fun _ _ => Nat.zero_le _, fun _ _ _ => rfl, fun _ => Nat.le_refl _, List.nodup_nil⟩

/-- What a call of the limiter does to the state `s`, `w` being the number of the counter it leaves: it has counted
one more there, and let a request through or not. -/
structure Counts (userId : Uuid) (s s' : State) (w : Nat) (c : Counter) : Prop where
  jobs : s'.jobs = s.jobs
  redis : s'.redis = Function.update s.redis (importLimit userId).key (some c)
  windows : s'.windows = Function.update s.windows userId w
  requests : s'.requests = s.requests ∨ s'.requests = s.requests ++ [⟨userId, w, .admitted⟩]

/-- The limiter does nothing, counts in the running counter, or begins one. -/
theorem admit_cases (userId : Uuid) (now : Time) (reply : Reply) (s : State) :
    s.enter userId now reply = s ∨
      (∃ c, s.redis (importLimit userId).key = some c ∧ c.count < 5 ∧
        Counts userId s (s.enter userId now reply) (s.windows userId) { c with count := c.count + 1 }) ∨
      Counts userId s (s.enter userId now reply) (s.windows userId + 1) ⟨1, now + seconds 3600⟩ := by
  cases hr : running now s.redis (importLimit userId).key with
  | some c =>
    obtain ⟨hc, hget⟩ := get_of_running hr
    have hw : (s.enter userId now reply).windows = s.windows := by simp [State.enter, hr]
    by_cases hfull : 5 ≤ c.count
    · have hs : script now [importLimit userId] s.redis = (false, s.redis) := script_full (hget ▸ hfull)
      left
      cases reply <;> simp [State.enter, checkLimits, hs, hr]
    · have hs : script now [importLimit userId] s.redis = (true, incr now (importLimit userId) s.redis) :=
        script_free (by rw [hget]; exact Nat.lt_of_not_le hfull)
      rw [incr_of_running hr] at hs
      cases reply with
      | unreachable => left; simp [State.enter, checkLimits]
      | lost =>
        refine .inr (.inl ⟨c, hc, Nat.lt_of_not_le hfull, rfl, ?_, ?_, .inl ?_⟩)
        · simp [State.enter, checkLimits, hs]
        · rw [hw, Function.update_eq_self]
        · simp [State.enter, checkLimits]
      | answered =>
        refine .inr (.inl ⟨c, hc, Nat.lt_of_not_le hfull, rfl, ?_, ?_, .inr ?_⟩)
        · simp [State.enter, checkLimits, hs]
        · rw [hw, Function.update_eq_self]
        · simp [State.enter, checkLimits, hs, hr]
  | none =>
    have hs : script now [importLimit userId] s.redis =
        (true, Function.update s.redis (importLimit userId).key (some ⟨1, now + seconds 3600⟩)) := by
      rw [script_free (by rw [get_of_none hr]; exact Nat.succ_pos 4), incr_of_none hr]
      rfl
    cases reply with
    | unreachable => left; simp [State.enter, checkLimits]
    | lost =>
      refine .inr (.inr ⟨rfl, ?_, ?_, .inl ?_⟩)
      · simp [State.enter, checkLimits, hs]
      · simp [State.enter, hr]
      · simp [State.enter, checkLimits]
    | answered =>
      refine .inr (.inr ⟨rfl, ?_, ?_, .inr ?_⟩)
      · simp [State.enter, checkLimits, hs]
      · simp [State.enter, hr]
      · simp [State.enter, checkLimits, hs, hr]

theorem importLimit_key_inj {userId v : Uuid} : (importLimit v).key = (importLimit userId).key ↔ v = userId := by
  simp [importLimit]

theorem Inv.counts {userId : Uuid} {s' : State} {w n : Nat} {c : Counter} (h : Inv s) (hc : Counts userId s s' w c)
    (hw : w = s.windows userId ∨ w = s.windows userId + 1) (hn : s.passed userId w ≤ n) (hcount : c.count = n + 1)
    (hle : n < 5) : Inv s' := by
  have hp : ∀ v x, s'.passed v x ≤ s.passed v x + if userId = v ∧ w = x then 1 else 0 := by
    intro v x
    unfold State.passed
    rcases hc.requests with hq | hq
    · rw [hq]
      exact Nat.le_add_right _ _
    · rw [hq, List.countP_append, List.countP_singleton]
      simp only [decide_eq_true_eq, le_refl]
  have hge : s.windows userId ≤ w := by omega
  refine ⟨fun v x => ?_, fun v x hx => ?_, fun v => ?_, ?_⟩
  · have := hp v x
    have := h.fits v x
    split_ifs at * with hv
    · obtain ⟨rfl, rfl⟩ := hv
      omega
    · omega
  · rw [hc.windows, Function.update_apply] at hx
    have := hp v x
    split_ifs at * with hv hv' hv'
    · omega
    · subst hv
      have := h.later v x (by omega)
      omega
    · exact absurd hv'.1.symm hv
    · have := h.later v x hx
      omega
  · have := hp v (s'.windows v)
    rw [hc.windows, Function.update_apply] at this ⊢
    rw [hc.redis, Function.update_apply]
    by_cases hv : v = userId
    · subst hv
      simp only [if_true, and_self] at this ⊢
      rw [Option.map_some, Option.getD_some, hcount]
      omega
    · rw [if_neg hv] at this ⊢
      rw [if_neg fun he => hv (importLimit_key_inj.1 he)]
      rw [if_neg fun he => hv he.1.symm] at this
      exact this.trans (h.shown v)
  · rcases hc.requests with hq | hq
    · rw [hq]
      exact h.drawn
    · rw [hq, List.filterMap_append]
      simpa [Progress.jobId] using h.drawn

theorem Inv.enter (h : Inv s) (userId : Uuid) (now : Time) (reply : Reply) : Inv (s.enter userId now reply) := by
  rcases admit_cases userId now reply s with he | ⟨c, hc, hlt, hs⟩ | hs
  · rwa [he]
  · have hshown := h.shown userId
    rw [hc] at hshown
    exact h.counts hs (.inl rfl) hshown rfl hlt
  · exact h.counts hs (.inr rfl) (h.later _ _ (Nat.lt_succ_self _)).le rfl (by decide)

theorem transaction_ok {asked : Asked} {counted now : Time} {userId : Uuid} {db db' : Db} {r : Repository}
    {job : ImportJob} (h : asked.transaction counted now userId db = .ok (db', r, job)) :
    (db.imports.filter (Counted counted db userId ·)).length < 5 ∧ job.id = asked.jobId ∧ job.createdAt = now := by
  obtain ⟨_, hq, h⟩ := bind_ok.1 h
  refine ⟨quota_ok.1 hq, ?_⟩
  cases asked with
  | create source repositoryId jobId =>
    rw [connect_ok h]
    exact ⟨rfl, rfl⟩
  | retry repositoryId jobId =>
    rw [renew_ok h]
    exact ⟨rfl, rfl⟩

/-- The database counts an accepted job as long as it is there. -/
theorem transaction_counted {asked : Asked} {counted now : Time} {userId : Uuid} {db db' : Db} {r : Repository}
    {job : ImportJob} (h : asked.transaction counted now userId db = .ok (db', r, job)) :
    job ∈ db'.imports ∧ Counted now db' userId job := by
  have hlt : now - hours 1 < now := sub_lt_self _ (seconds_pos (by decide))
  obtain ⟨_, -, h⟩ := bind_ok.1 h
  cases asked with
  | create source repositoryId jobId =>
    dsimp only at h
    unfold connect at h
    obtain ⟨_, -, h⟩ := bind_ok.1 h
    obtain ⟨_, -, h⟩ := bind_ok.1 h
    obtain ⟨_, -, h⟩ := bind_ok.1 h
    obtain ⟨_, -, h⟩ := bind_ok.1 h
    dsimp only at h
    split at h
    · cases h
    · rename_i imports hins
      cases h
      refine ⟨Job.mem_insert_self hins, ?_, hlt⟩
      simp [Job.new]
  | retry repositoryId jobId =>
    dsimp only at h
    unfold renew at h
    obtain ⟨⟨repository, old⟩, howned, h⟩ := bind_ok.1 h
    obtain ⟨_, -, h⟩ := bind_ok.1 h
    dsimp only at h
    split at h
    · cases h
    · rename_i imports hins
      cases h
      obtain ⟨hr, -, hu, -⟩ := Db.owned_eq (lift_ok.1 howned)
      refine ⟨Job.mem_insert_self hins, ?_, hlt⟩
      simp only [List.any_eq_true, decide_eq_true_eq]
      exact ⟨r, hr, rfl, hu⟩

/-- What the transaction of a request does to the requests: nothing, refuse it, or accept it on a count of at most
four jobs. -/
inductive Submits (s s' : State) (i : Nat) (counted now : Time) : Prop
  | same (h : s' = s)
  | refused {r : Request} (hi : s.requests[i]? = some r) (hr : r.progress = .admitted) (hredis : s'.redis = s.redis)
      (hwindows : s'.windows = s.windows) (h : s'.requests = s.requests.set i { r with progress := .refused })
  | accepted {r : Request} {jobId : Uuid} (hi : s.requests[i]? = some r) (hr : r.progress = .admitted)
      (hnew : ∀ q ∈ s.requests, q.progress.jobId ≠ some jobId)
      (hcount : (s.jobs.db.imports.filter (Counted counted s.jobs.db r.userId ·)).length < 5)
      (hredis : s'.redis = s.redis) (hwindows : s'.windows = s.windows)
      (h : s'.requests = s.requests.set i { r with progress := .accepted jobId now })

theorem submit_cases (i : Nat) (asked : Asked) (counted now : Time) (s : State) :
    Submits s (s.submit i asked counted now) i counted now := by
  unfold State.submit
  split
  · exact .same rfl
  · rename_i r hi
    split
    · rename_i hr
      split
      · rename_i db _ job hok
        obtain ⟨hcount, hid, hat⟩ := transaction_ok hok
        exact .accepted hi hr.1 (hid ▸ hr.2) hcount rfl rfl (by rw [hat])
      · exact .refused hi hr.1 rfl rfl rfl
    · exact .same rfl

/-- The progress of a request changes neither its user nor its counter. -/
theorem passed_set {s' : State} {i : Nat} {r : Request} {p : Progress} (hi : s.requests[i]? = some r)
    (h : s'.requests = s.requests.set i { r with progress := p }) (userId : Uuid) (w : Nat) :
    s'.passed userId w = s.passed userId w := by
  unfold State.passed
  rw [h]
  exact Table.countP_set_of_eq _ hi rfl

theorem Inv.progress {s' : State} {i : Nat} {r : Request} {p : Progress} (h : Inv s) (hi : s.requests[i]? = some r)
    (hredis : s'.redis = s.redis) (hwindows : s'.windows = s.windows)
    (hs : s'.requests = s.requests.set i { r with progress := p })
    (hdrawn : (s'.requests.filterMap (·.progress.jobId)).Nodup) : Inv s' where
  fits := fun userId w => passed_set hi hs userId w ▸ h.fits userId w
  later := fun userId w hw => passed_set hi hs userId w ▸ h.later userId w (hwindows ▸ hw)
  shown := fun userId => by
    rw [passed_set hi hs, hwindows, hredis]
    exact h.shown userId
  drawn := hdrawn

theorem Inv.submit {s' : State} {i : Nat} {counted now : Time} (h : Inv s) (hs : Submits s s' i counted now) :
    Inv s' := by
  cases hs with
  | same he => rwa [he]
  | @refused r hi hr hredis hwindows he =>
    refine h.progress hi hredis hwindows he ?_
    rw [he, Table.filterMap_set_of_eq _ hi (by rw [hr]; rfl)]
    exact h.drawn
  | @accepted r jobId hi hr hnew hcount hredis hwindows he =>
    refine h.progress hi hredis hwindows he ?_
    rw [he, (Table.filterMap_set_perm (fun q : Request => q.progress.jobId) hi (by rw [hr]; rfl) rfl).nodup_iff,
      List.nodup_cons]
    refine ⟨fun hm => ?_, h.drawn⟩
    obtain ⟨q, hq, hid⟩ := List.mem_filterMap.1 hm
    exact hnew q hq hid

/-! ### The bound -/

theorem Request.AcceptedIn.recent {r : Request} {userId : Uuid} {start now : Time} (h : r.AcceptedIn userId start)
    (hnow : now < start + hours 1) : r.Recent userId now := by
  obtain ⟨hu, a, ha, hle, -⟩ := h
  exact ⟨hu, a, ha, sub_lt_iff_lt_add.2 (hnow.trans_le (Int.add_le_add_right hle _))⟩

/-- What the database sees is at most what it counts. -/
theorem recent_le_counted {r : Request} {counted now : Time} (h : Inv s) (hseen : s.SeenByDatabase r counted now) :
    s.requests.countP (Request.Recent r.userId now ·) ≤
      (s.jobs.db.imports.filter (Counted counted s.jobs.db r.userId ·)).length := by
  rw [List.countP_eq_length_filter]
  refine Table.length_le_of_keys Job.id (h.drawn.sublist (List.filter_sublist.filterMap _)) ?_
  intro q hq
  obtain ⟨hq, hrecent⟩ := List.mem_filter.1 hq
  obtain ⟨j, hj, hid, hc⟩ := hseen q hq (of_decide_eq_true hrecent)
  exact ⟨j, List.mem_filter.2 ⟨hj, decide_eq_true hc⟩, hid⟩

/-- An accepted request that one of the limiters has seen the recent jobs for keeps the bound. -/
theorem FivePerHour.accepted {s' : State} {i : Nat} {r : Request} {jobId : Uuid} {counted now : Time}
    (hf : FivePerHour s) (h : Inv s) (h' : Inv s') (hi : s.requests[i]? = some r) (hr : r.progress = .admitted)
    (hcount : (s.jobs.db.imports.filter (Counted counted s.jobs.db r.userId ·)).length < 5)
    (he : s'.requests = s.requests.set i { r with progress := .accepted jobId now })
    (hseen : s.SeenByDatabase r counted now ∨ s.SeenByRedis r now) : FivePerHour s' := by
  intro userId start
  by_cases hin : Request.AcceptedIn userId start { r with progress := .accepted jobId now }
  · obtain ⟨rfl, a, ha, hle, hlt⟩ := hin
    cases ha
    rcases hseen with hdb | hredis
    · -- the others are recent, so the database has counted them
      have hothers : s.requests.countP (Request.AcceptedIn r.userId start ·) ≤ 4 := by
        calc s.requests.countP (Request.AcceptedIn r.userId start ·)
            ≤ s.requests.countP (Request.Recent r.userId now ·) :=
              List.countP_mono_left fun q _ hq => decide_eq_true ((of_decide_eq_true hq).recent hlt)
          _ ≤ (s.jobs.db.imports.filter (Counted counted s.jobs.db r.userId ·)).length := recent_le_counted h hdb
          _ ≤ 4 := Nat.le_of_lt_succ hcount
      rw [he]
      exact (Table.countP_set_le _ _ _).trans (Nat.succ_le_succ hothers)
    · -- all of them went through one counter
      refine le_trans (List.countP_mono_left fun q hq hin => ?_) (h'.fits r.userId r.window)
      have hin := of_decide_eq_true hin
      refine decide_eq_true ⟨hin.1, ?_⟩
      rw [he] at hq
      rcases Table.mem_set_cases hq with rfl | ⟨j, -, hj⟩
      · rfl
      · exact hredis q (Table.mem_of_getElem? hj) (hin.recent hlt)
  · have hold : ¬ Request.AcceptedIn userId start r := by
      rintro ⟨-, a, ha, -⟩
      rw [hr] at ha
      cases ha
    rw [he, Table.countP_set_of_eq _ hi (by rw [decide_eq_false hin, decide_eq_false hold])]
    exact hf userId start

theorem FivePerHour.submit {s' : State} {i : Nat} {counted now : Time} (hf : FivePerHour s) (h : Inv s)
    (hs : Submits s s' i counted now)
    (hseen : ∀ r ∈ s.requests[i]?, (s.jobs.db.imports.filter (Counted counted s.jobs.db r.userId ·)).length < 5 →
      s.SeenByDatabase r counted now ∨ s.SeenByRedis r now) : FivePerHour s' := by
  have h' := h.submit hs
  cases hs with
  | same he => rwa [he]
  | @refused r hi hr hredis hwindows he =>
    intro userId start
    have hno : ∀ p : Progress, p.createdAt = none → ¬ Request.AcceptedIn userId start { r with progress := p } := by
      rintro p hp ⟨-, a, ha, -⟩
      rw [hp] at ha
      cases ha
    have hold : ¬ Request.AcceptedIn userId start r := hno r.progress (by rw [hr]; rfl)
    rw [he, Table.countP_set_of_eq _ hi (by rw [decide_eq_false (hno .refused rfl), decide_eq_false hold])]
    exact hf userId start
  | accepted hi hr hnew hcount hredis hwindows he => exact hf.accepted h h' hi hr hcount he (hseen _ hi hcount)

theorem FivePerHour.enter (hf : FivePerHour s) (userId : Uuid) (now : Time) (reply : Reply) :
    FivePerHour (s.enter userId now reply) := by
  have hreq : (s.enter userId now reply).requests = s.requests ∨
      ∃ w, (s.enter userId now reply).requests = s.requests ++ [⟨userId, w, .admitted⟩] := by
    rcases admit_cases userId now reply s with he | ⟨c, -, -, hs⟩ | hs
    · exact .inl (by rw [he])
    · exact hs.requests.imp_right fun h => ⟨_, h⟩
    · exact hs.requests.imp_right fun h => ⟨_, h⟩
  intro v start
  rcases hreq with he | ⟨w, he⟩
  · rw [he]
    exact hf v start
  · have hno : ¬ Request.AcceptedIn v start ⟨userId, w, .admitted⟩ := by
      rintro ⟨-, a, ha, -⟩
      cases ha
    rw [he, List.countP_append, List.countP_singleton, decide_eq_false hno]
    exact hf v start

variable {env : Env}

theorem step_keeps (s : State) (a : Action) (hseen : Seen s a) (h : Inv s ∧ FivePerHour s) :
    Inv (step env s a) ∧ FivePerHour (step env s a) := by
  cases a with
  | enter userId now reply => exact ⟨h.1.enter userId now reply, h.2.enter userId now reply⟩
  | submit i asked counted now =>
    have hs := submit_cases i asked counted now s
    exact ⟨h.1.submit hs, h.2.submit h.1 hs hseen⟩
  | jobs now a =>
    simp only [step]
    split
    · exact ⟨⟨h.1.fits, h.1.later, h.1.shown, h.1.drawn⟩, h.2⟩
    · exact h

theorem empty_keeps : Inv .empty ∧ FivePerHour .empty := ⟨.empty, fun _ _ => Nat.zero_le _⟩

/-- Where one of the limiters sees every recent job of the user at each request that the count lets through, any
hour has at most five new jobs. -/
theorem five_per_hour (env : Env) (acts : List Action) (hseen : (machine env).Along Seen .empty acts) :
    FivePerHour (run env acts) :=
  (Machine.along_invariant (m := machine env) step_keeps empty_keeps hseen).2

/-! ### A run with six jobs in an hour -/

/-- The user connects the `i`-th repository at `now`. -/
def connects (i : Nat) (now : Time) : List Action :=
  [.enter 0 now .answered, .submit i (.create (.ok (['o'], 'r' :: List.replicate i '0')) (10 + i) (20 + i)) now now]

/-- The user connects the `i`-th repository at `now` and removes it. -/
def passes (i : Nat) (now : Time) : List Action :=
  connects i now ++ [.jobs now (.removeRepository 0 (10 + i))]

theorem five_per_hour_sample : FivePerHour (run Env.plain (passes 0 0 ++ connects 1 (seconds 10))) :=
  five_per_hour Env.plain (passes 0 0 ++ connects 1 (seconds 10)) (by decide)

/-- The counter of the first request expires between four removed jobs and two more. -/
theorem not_five_per_hour : ¬ ∀ env acts, FivePerHour (run env acts) := by
  intro h
  refine absurd (h Env.plain (connects 0 0 ++ (passes 1 (seconds 3590) ++ passes 2 (seconds 3590) ++
    passes 3 (seconds 3590) ++ passes 4 (seconds 3590)) ++ connects 5 (seconds 3601) ++ connects 6 (seconds 3601))
    0 (seconds 3590)) ?_
  decide +kernel

end ImportQuota
end RepoPilot
