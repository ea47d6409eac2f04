import RepoPilot.Basic
import RepoPilot.Table
import RepoPilot.Lease
import Mathlib

/-! # Durable jobs: claiming, leases and dispatch

Imports, source indexes and search indexes share their job columns, the claim, the lease condition
and the dispatcher; what a kind of job stores besides is its `data`. Every write of a worker after
its claim goes through `fenced`. -/

namespace RepoPilot

structure Repository where
  id : Uuid
  userId : Uuid
  sourceKey : Text
  owner : Text
  name : Text
  githubRepositoryId : Option Nat
  defaultBranch : Option Text
  lastCommitSha : Option Text
  importedAt : Option Time
  createdAt : Time
  deriving DecidableEq

/-- A row of `import_jobs`, `repository_indexes` or `search_indexes`. -/
structure Job (π : Type) where
  id : Uuid
  repositoryId : Uuid
  isCurrent : Bool
  status : Status
  stage : String
  attempts : Nat
  errorCode : Option String
  errorMessage : Option String
  leaseToken : Option Uuid
  leaseExpiresAt : Option Time
  lastDispatchedAt : Option Time
  availableAt : Time
  startedAt : Option Time
  finishedAt : Option Time
  createdAt : Time
  data : π
  deriving DecidableEq

/-- What a worker keeps of a successful claim. -/
structure Claim where
  jobId : Uuid
  repositoryId : Uuid
  leaseToken : Uuid
  owner : Text
  name : Text
  attempt : Nat
  deriving DecidableEq

namespace Job
variable {π : Type}

/-- A row with the column defaults. -/
def new (id repositoryId : Uuid) (now : Time) (data : π) : Job π where
  id := id
  repositoryId := repositoryId
  isCurrent := true
  status := .queued
  stage := "queued"
  attempts := 0
  errorCode := none
  errorMessage := none
  leaseToken := none
  leaseExpiresAt := none
  lastDispatchedAt := none
  availableAt := now
  startedAt := none
  finishedAt := none
  createdAt := now
  data := data

/-- Jobs carry leases. -/
def lease : Leased (Job π) Uuid Uuid Time := ⟨id, leaseToken, leaseExpiresAt⟩

/-- The partial unique index on `repository_id WHERE is_current` rejects a second current job. -/
def insert (t : List (Job π)) (r : Job π) : Option (List (Job π)) :=
  if ∃ q ∈ t, q.isCurrent = true ∧ q.repositoryId = r.repositoryId then none else some (t ++ [r])

/-! ### `claim_job` -/

def ClaimWhere (now : Time) (jobId : Uuid) (r : Job π) : Prop :=
  r.id = jobId ∧ r.isCurrent = true ∧ r.attempts < 3 ∧ r.availableAt ≤ now ∧
    (r.status = .queued ∨ r.status = .running ∧ Past r.leaseExpiresAt now)

instance (now : Time) (jobId : Uuid) : DecidablePred (ClaimWhere now jobId : Job π → Prop) := fun r =>
  inferInstanceAs (Decidable (r.id = jobId ∧ r.isCurrent = true ∧ r.attempts < 3 ∧ r.availableAt ≤ now ∧
    (r.status = .queued ∨ r.status = .running ∧ Past r.leaseExpiresAt now)))

def claimed (now : Time) (token : Uuid) (r : Job π) : Job π :=
  { r with
    status := .running
    stage := "starting"
    attempts := r.attempts + 1
    leaseToken := some token
    leaseExpiresAt := some (now + seconds 180)
    startedAt := some now
    finishedAt := none
    errorCode := none
    errorMessage := none }

/-- Claim a job under a fresh token; `none` when the `UPDATE` returns no row or the repository is
gone, in which case nothing is committed. -/
def claimJob (now : Time) (repositories : List Repository) (jobId token : Uuid) (t : List (Job π)) :
    Option (List (Job π) × Claim) := do
  let job ← t.find? (ClaimWhere now jobId ·)
  let repository ← repositories.find? (·.id = job.repositoryId)
  some (Table.update (ClaimWhere now jobId) (claimed now token) t,
    ⟨job.id, repository.id, token, repository.owner, repository.name, job.attempts + 1⟩)

/-! ### Fenced writes -/

/-- The row is still leased, and not expired, to the worker of claim `c`. -/
def LeaseCondition (now : Time) (c : Claim) (r : Job π) : Prop :=
  r.id = c.jobId ∧ r.status = .running ∧ r.leaseToken = some c.leaseToken ∧ r.isCurrent = true ∧
    Future r.leaseExpiresAt now

instance (now : Time) (c : Claim) : DecidablePred (LeaseCondition now c : Job π → Prop) := fun r =>
  inferInstanceAs (Decidable (r.id = c.jobId ∧ r.status = .running ∧ r.leaseToken = some c.leaseToken ∧
    r.isCurrent = true ∧ Future r.leaseExpiresAt now))

/-- A conditional `UPDATE` under the lease condition and a further guard; `none` when no row
matches. -/
def fencedIf (now : Time) (c : Claim) (guard : Job π → Prop) [DecidablePred guard] (f : Job π → Job π)
    (t : List (Job π)) : Option (List (Job π)) :=
  if ∃ r ∈ t, LeaseCondition now c r ∧ guard r then
    some (Table.update (fun r => LeaseCondition now c r ∧ guard r) f t)
  else none

/-- A conditional `UPDATE` under the lease condition alone. -/
def fenced (now : Time) (c : Claim) (f : Job π → Job π) (t : List (Job π)) : Option (List (Job π)) :=
  fencedIf now c (fun _ => True) f t

def reportStage (now : Time) (c : Claim) (stage : String) (t : List (Job π)) : Option (List (Job π)) :=
  fenced now c (fun r => { r with stage := stage }) t

/-- The columns every successful publication writes. -/
def finished (now : Time) (data : π → π) (r : Job π) : Job π :=
  { r with
    status := .completed
    stage := "completed"
    finishedAt := some now
    leaseToken := none
    leaseExpiresAt := none
    data := data r.data }

/-- The columns every terminal failure of a worker writes. -/
def failedWith (now : Time) (code message : String) (r : Job π) : Job π :=
  { r with
    status := .failed
    stage := "failed"
    errorCode := some code
    errorMessage := some message
    finishedAt := some now
    leaseToken := none
    leaseExpiresAt := none }

/-! ### Requests of the owner -/

def cancelled (now : Time) (r : Job π) : Job π :=
  { r with
    status := .cancelled
    stage := "cancelled"
    finishedAt := some now
    leaseToken := none
    leaseExpiresAt := none }

def superseded (r : Job π) : Job π := { r with isCurrent := false }

/-! ### `dispatch_once` -/

def LostWhere (now : Time) (r : Job π) : Prop :=
  r.status = .running ∧ Past r.leaseExpiresAt now ∧ 3 ≤ r.attempts

instance (now : Time) : DecidablePred (LostWhere now : Job π → Prop) := fun r =>
  inferInstanceAs (Decidable (r.status = .running ∧ Past r.leaseExpiresAt now ∧ 3 ≤ r.attempts))

def workerLost (now : Time) (t : List (Job π)) : List (Job π) :=
  Table.update (LostWhere now) (failedWith now "worker_lost" "Worker stopped repeatedly. Retry the job.") t

def SelectWhere (now : Time) (r : Job π) : Prop :=
  r.isCurrent = true ∧ r.availableAt ≤ now ∧
    (r.status = .queued ∨ r.status = .running ∧ Past r.leaseExpiresAt now) ∧
    (r.lastDispatchedAt = none ∨ Past r.lastDispatchedAt (now - seconds 30))

instance (now : Time) : DecidablePred (SelectWhere now : Job π → Prop) := fun r =>
  inferInstanceAs (Decidable (r.isCurrent = true ∧ r.availableAt ≤ now ∧
    (r.status = .queued ∨ r.status = .running ∧ Past r.leaseExpiresAt now) ∧
    (r.lastDispatchedAt = none ∨ Past r.lastDispatchedAt (now - seconds 30))))

/-- The ids of one dispatcher cycle, oldest first, at most fifty. -/
def dispatchSelect (now : Time) (t : List (Job π)) : List Uuid :=
  (((t.filter (SelectWhere now ·)).insertionSort (fun a b => a.createdAt ≤ b.createdAt)).take 50).map id

def markDispatched (now : Time) (jobId : Uuid) (t : List (Job π)) : List (Job π) :=
  Table.update (fun r => r.id = jobId) (fun r => { r with lastDispatchedAt := some now }) t

end Job
end RepoPilot
