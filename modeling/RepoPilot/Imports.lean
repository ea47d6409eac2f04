import RepoPilot.Database

/-! # Importing a repository

The requests of the owner (`create`, `retry`, `cancel`) and the import worker. Each request and each
step of a worker is one transaction. -/

namespace RepoPilot

structure ImportedFile where
  path : Text
  language : String
  content : Text
  size : Nat
  contentHash : Text
  deriving DecidableEq

/-- What `read_archive` returns; it has rejected archives with duplicate paths. -/
structure ArchiveResult where
  files : List ImportedFile
  scanned : Nat
  skipped : Nat
  paths : (files.map (·.path)).Nodup
  deriving DecidableEq

/-- `integrations.github.client.RepositorySource`. -/
structure RepositorySource where
  owner : Text
  name : Text
  githubId : Nat
  branch : Text
  sha : Text
  deriving DecidableEq

/-- The values fit the columns of `Repository`. -/
structure RepositorySource.Storable (s : RepositorySource) : Prop where
  owner : s.owner.length ≤ 100
  name : s.name.length ≤ 100
  githubId : s.githubId < 2 ^ 63
  branch : s.branch.length ≤ 255
  sha : s.sha.length ≤ 40

instance : DecidablePred RepositorySource.Storable := fun s =>
  decidable_of_iff (s.owner.length ≤ 100 ∧ s.name.length ≤ 100 ∧ s.githubId < 2 ^ 63 ∧ s.branch.length ≤ 255 ∧
      s.sha.length ≤ 40)
    ⟨fun ⟨h1, h2, h3, h4, h5⟩ => ⟨h1, h2, h3, h4, h5⟩, fun h => ⟨h.owner, h.name, h.githubId, h.branch, h.sha⟩⟩

namespace Imports

/-! ### Requests -/

/-- `RepositoryService._quota`. -/
def quota (now : Time) (db : Db) (userId : Uuid) : Except Raised Unit :=
  refuse (5 ≤ (db.imports.filter fun j =>
      db.repositories.any (fun r => r.id = j.repositoryId ∧ r.userId = userId) ∧
        now - hours 1 < j.createdAt).length)
    ⟨"import_rate_limited", "Import limit reached. Try again later (five per hour).", 429⟩

/-- The values fit the columns of `Repository`. -/
def Fitting (owner name : Text) : Prop :=
  (owner ++ '/' :: name).length ≤ 200 ∧ owner.length ≤ 100 ∧ name.length ≤ 100

instance (owner name : Text) : Decidable (Fitting owner name) :=
  inferInstanceAs (Decidable ((owner ++ '/' :: name).length ≤ 200 ∧ owner.length ≤ 100 ∧ name.length ≤ 100))

def repositoryExists : AppError := ⟨"repository_exists", "This repository is already connected.", 409⟩

/-- `RepositoryService.create`; `source` is the outcome of `parse_repository_url`. -/
def create (now : Time) (userId : Uuid) (source : Except AppError (Text × Text)) (limit : Option AppError)
    (repositoryId jobId : Uuid) (db : Db) : Except Raised (Db × Repository × ImportJob) := do
  check limit
  quota now db userId
  refuse (20 ≤ (db.repositories.filter (·.userId = userId)).length)
    ⟨"repository_limit", "Limit of twenty repositories reached. Remove one first.", 409⟩
  let (owner, name) ← lift source
  let repository : Repository :=
    { id := repositoryId
      userId := userId
      sourceKey := owner ++ '/' :: name
      owner := owner
      name := name
      githubRepositoryId := none
      defaultBranch := none
      lastCommitSha := none
      importedAt := none
      createdAt := now }
  -- otherwise the insert raises a `DataError`
  demand (Fitting owner name)
  refuse (∃ r ∈ db.repositories, r.userId = userId ∧ r.sourceKey = repository.sourceKey) repositoryExists
  let job : ImportJob := Job.new jobId repositoryId now ⟨0, 0, 0⟩
  match Job.insert db.imports job with
  | none => .error (.app repositoryExists)
  | some imports =>
    .ok ({ db with repositories := db.repositories ++ [repository], imports := imports }, repository, job)

def RetryWhere (jobId : Uuid) (j : ImportJob) : Prop :=
  j.id = jobId ∧ j.isCurrent = true ∧ (j.status = .failed ∨ j.status = .cancelled)

instance (jobId : Uuid) : DecidablePred (RetryWhere jobId) := fun j =>
  inferInstanceAs (Decidable (j.id = jobId ∧ j.isCurrent = true ∧ (j.status = .failed ∨ j.status = .cancelled)))

/-- `RepositoryService.retry`. -/
def retry (now : Time) (userId repositoryId : Uuid) (limit : Option AppError) (newId : Uuid) (db : Db) :
    Except Raised (Db × Repository × ImportJob) := do
  check limit
  quota now db userId
  let (repository, job) ← lift (db.owned userId repositoryId)
  refuse (¬ ∃ j ∈ db.imports, RetryWhere job.id j)
    ⟨"invalid_job_state", "Only failed or cancelled imports can be retried.", 409⟩
  let new : ImportJob := Job.new newId repository.id now ⟨0, 0, 0⟩
  match Job.insert (Table.update (RetryWhere job.id) Job.superseded db.imports) new with
  | none => .error .other
  | some imports => .ok ({ db with imports := imports }, repository, new)

def CancelWhere (jobId : Uuid) (j : ImportJob) : Prop := j.id = jobId ∧ j.status.Active

instance (jobId : Uuid) : DecidablePred (CancelWhere jobId) := fun j =>
  inferInstanceAs (Decidable (j.id = jobId ∧ j.status.Active))

/-- `RepositoryService.cancel`. -/
def cancel (now : Time) (userId repositoryId : Uuid) (db : Db) : Except Raised Db := do
  let (_, job) ← lift (db.owned userId repositoryId)
  refuse (¬ ∃ j ∈ db.imports, CancelWhere job.id j)
    ⟨"invalid_job_state", "This import is no longer active.", 409⟩
  .ok { db with imports := Table.update (CancelWhere job.id) (Job.cancelled now) db.imports }

/-! ### The worker -/

def stored (source : RepositorySource) (now : Time) (r : Repository) : Repository :=
  { r with
    owner := source.owner
    name := source.name
    githubRepositoryId := some source.githubId
    defaultBranch := some source.branch
    lastCommitSha := some source.sha
    importedAt := some now }

/-- The row of one imported file. -/
def fileRow (claim : Claim) (id : Uuid) (f : ImportedFile) : RepositoryFile :=
  { id := id
    repositoryId := claim.repositoryId
    importJobId := claim.jobId
    path := f.path
    language := f.language
    size := f.size
    contentHash := f.contentHash
    content := f.content }

def counters (result : ArchiveResult) (_ : ImportData) : ImportData :=
  ⟨result.scanned, result.skipped, result.files.length⟩

/-- `publish_result`; `ids` are the ids of the new file rows. -/
def publishResult (now : Time) (claim : Claim) (source : RepositorySource) (result : ArchiveResult)
    (ids : List Uuid) (db : Db) : Option Db :=
  (Job.fenced now claim (Job.finished now (counters result)) db.imports).map fun imports =>
    { db with
      imports := imports
      files := db.files ++ List.zipWith (fileRow claim) ids result.files
      repositories := Table.update (·.id = claim.repositoryId) (stored source now) db.repositories }

structure Failure where
  code : String
  message : String
  retryable : Bool
  deriving DecidableEq

def retryWait (now : Time) (claim : Claim) (failure : Failure) (j : ImportJob) : ImportJob :=
  { j with
    status := .queued
    stage := "retry_wait"
    errorCode := some failure.code
    errorMessage := some failure.message
    leaseToken := none
    leaseExpiresAt := none
    lastDispatchedAt := none
    availableAt := now + seconds (30 * claim.attempt)
    finishedAt := none }

def failedForGood (now : Time) (claim : Claim) (failure : Failure) (j : ImportJob) : ImportJob :=
  { Job.failedWith now failure.code failure.message j with
    lastDispatchedAt := none
    availableAt := now + seconds (30 * claim.attempt) }

/-- `record_failure`. -/
def recordFailure (now : Time) (claim : Claim) (failure : Failure) (db : Db) : Db :=
  let write := if failure.retryable = true ∧ claim.attempt < 3 then retryWait now claim failure
    else failedForGood now claim failure
  { db with imports := (Job.fenced now claim write db.imports).getD db.imports }

inductive Pc
  | resolve
  | downloading (source : RepositorySource)
  | download (source : RepositorySource)
  | validating (source : RepositorySource)
  | validate (source : RepositorySource)
  | storing (source : RepositorySource) (result : ArchiveResult)
  | publish (source : RepositorySource) (result : ArchiveResult)
  | failing (failure : Failure)
  | done
  | published (source : RepositorySource) (result : ArchiveResult)

/-- A delivery whose claim succeeded. A crashed worker takes no further step. -/
structure Worker where
  claim : Claim
  pc : Pc

/-- What the next step of a worker gets from outside. -/
inductive Input
  | go (ids : List Uuid)
  | resolved (source : RepositorySource)
  | downloaded
  | validated (result : ArchiveResult)
  | raised (e : Raised)

/-- The `except` clauses of `run_import`. -/
def handler : Raised → Pc
  | .leaseLost => .done
  | .timeout => .failing ⟨"import_timeout", "Repository import timed out.", true⟩
  | .importFailure code message retryable => .failing ⟨code, message, retryable⟩
  | .app _ | .other =>
    .failing ⟨"import_failed", "Import failed unexpectedly. Retry or inspect the worker logs.", false⟩

/-- `report_stage`, then `next`. -/
def report (now : Time) (claim : Claim) (stage : String) (next : Pc) (db : Db) : Pc × Db :=
  match Job.reportStage now claim stage db.imports with
  | some imports => (next, { db with imports := imports })
  | none => (handler .leaseLost, db)

/-- One step of `run_import` after the claim. -/
def step (now : Time) (claim : Claim) (input : Input) (pc : Pc) (db : Db) : Pc × Db :=
  match pc, input with
  | .resolve, .resolved source => (.downloading source, db)
  | .downloading source, .go _ => report now claim "downloading" (.download source) db
  | .download source, .downloaded => (.validating source, db)
  | .validating source, .go _ => report now claim "validating" (.validate source) db
  | .validate source, .validated result => (.storing source result, db)
  | .storing source result, .go _ => report now claim "storing" (.publish source result) db
  | .publish source result, .go ids =>
    if ids.length = result.files.length then
      match publishResult now claim source result ids db with
      | some db' =>
        -- the update raises a `DataError`, and the transaction is rolled back
        if source.Storable then (.published source result, db') else (handler .other, db)
      | none => (handler .leaseLost, db)
    else (pc, db)
  | .failing failure, .go _ => (.done, recordFailure now claim failure db)
  | .done, _ | .published _ _, _ | .failing _, _ => (pc, db)
  | _, .raised e => (handler e, db)
  | _, _ => (pc, db)

end Imports
end RepoPilot
