import RepoPilot.Database

/-! # Building the static index of an import

`start` and `cancel` of the owner, and the index worker. A request reads and writes under the lock of
the repository row and only supersedes rows in a terminal status, which no other transaction writes;
so it is one transaction here. -/

namespace RepoPilot
namespace Indexes

/-! ### Requests -/

/-- `IndexService.start`; the flag says whether a job was created. -/
def start (now : Time) (userId repositoryId : Uuid) (limit : Option AppError) (newId : Uuid) (db : Db) :
    Except Raised (Db × RepositoryIndex × Bool) := do
  let (repository, source) ← lift (db.owned userId repositoryId)
  let required : AppError := ⟨"import_required", "Complete the repository import first.", 409⟩
  refuse (source.status ≠ .completed) required
  match repository.lastCommitSha with
  | none => .error (.app required)
  | some commitSha =>
    let latest := db.latestIndex repositoryId source.id
    refuse (∃ l ∈ latest, l.status.Active) ⟨"index_active", "Indexing is already active.", 409⟩
    match latest.filter fun l => l.status = .completed ∧ l.data.pipelineVersion = pipelineVersion with
    | some existing => .ok (db, existing, false)
    | none =>
      check limit
      let job : RepositoryIndex :=
        Job.new newId repositoryId now ⟨source.id, commitSha, pipelineVersion, 0, 0, [], 0, 0, 0⟩
      let superseded := Table.update (fun i => ∃ l ∈ latest, i.id = l.id) Job.superseded db.indexes
      match Job.insert superseded job with
      | none => .error .other
      | some indexes => .ok ({ db with indexes := indexes }, job, true)

def CancelWhere (repositoryId sourceId : Uuid) (i : RepositoryIndex) : Prop :=
  i.repositoryId = repositoryId ∧ i.data.importJobId = sourceId ∧ i.isCurrent = true ∧ i.status.Active

instance (repositoryId sourceId : Uuid) : DecidablePred (CancelWhere repositoryId sourceId) := fun i =>
  inferInstanceAs (Decidable (i.repositoryId = repositoryId ∧ i.data.importJobId = sourceId ∧
    i.isCurrent = true ∧ i.status.Active))

/-- `IndexService.cancel`. -/
def cancel (now : Time) (userId repositoryId : Uuid) (db : Db) : Except Raised Db := do
  let (_, source) ← lift (db.owned userId repositoryId)
  refuse (¬ ∃ i ∈ db.indexes, CancelWhere repositoryId source.id i)
    ⟨"index_inactive", "No active indexing job to cancel.", 409⟩
  .ok { db with indexes := Table.update (CancelWhere repositoryId source.id) (Job.cancelled now) db.indexes }

/-! ### The worker -/

/-- What the worker computed: for each symbol and chunk the id of its file, and the diagnostics. -/
structure Built where
  symbols : List (Uuid × Nat × Symbol)
  chunks : List (Uuid × Chunk)
  diagnostics : List Diagnostic

/-- Add the symbols, chunks and diagnostic of one more file. -/
def addFile (env : Env) (built : Built) (file : RepositoryFile) : Except Raised Built := do
  let result ← Source.indexSource env.sha256 env.parsePython file.content file.language
  if 10000 < built.symbols.length + result.symbols.length ∨
      10000 < built.chunks.length + result.chunks.length then
    .error (.importFailure "index_size_limit"
      "Index exceeds 10000 symbols or chunks. Use a smaller repository." false)
  else
    .ok {
      symbols := built.symbols ++ result.symbols.zipIdx.map fun (s, ordinal) => (file.id, ordinal, s)
      chunks := built.chunks ++ result.chunks.map fun c => (file.id, c)
      diagnostics := built.diagnostics ++
        ((result.diagnostic.filter (· ≠ [])).map fun m => ⟨file.id, file.path, m⟩).toList }

def build (env : Env) (files : List RepositoryFile) : Except Raised Built :=
  files.foldlM (addFile env) ⟨[], [], []⟩

def symbolRow (claim : Claim) (source : Uuid) (p : Uuid × Nat × Symbol) : CodeSymbol :=
  { indexId := claim.jobId
    importJobId := source
    fileId := p.1
    ordinal := p.2.1
    name := p.2.2.name
    qualifiedName := p.2.2.qualifiedName
    kind := p.2.2.kind
    signature := p.2.2.signature
    docstring := p.2.2.docstring
    parentOrdinal := p.2.2.parent
    startLine := p.2.2.startLine
    endLine := p.2.2.endLine }

def chunkRow (claim : Claim) (source : Uuid) (id : Uuid) (p : Uuid × Chunk) : CodeChunk :=
  { id := id, indexId := claim.jobId, importJobId := source, fileId := p.1, chunk := p.2 }

def counters (built : Built) (fileCount : Nat) (d : IndexData) : IndexData :=
  { d with
    filesScanned := fileCount
    filesStored := fileCount
    symbolCount := built.symbols.length
    chunkCount := built.chunks.length
    diagnostics := built.diagnostics }

/-- `publish_index`; `ids` are the ids of the new chunk rows. -/
def publishIndex (now : Time) (claim : Claim) (source : Uuid) (built : Built) (fileCount : Nat)
    (ids : List Uuid) (db : Db) : Option Db :=
  (Job.fenced now claim (Job.finished now (counters built fileCount)) db.indexes).map fun indexes =>
    { db with
      indexes := indexes
      symbols := db.symbols ++ built.symbols.map (symbolRow claim source)
      chunks := db.chunks ++ List.zipWith (chunkRow claim source) ids built.chunks }

/-- The files the worker reads, in the order of their paths. -/
def sourceFiles (claim : Claim) (source : Uuid) (db : Db) : List RepositoryFile :=
  (db.files.filter fun f => f.importJobId = source ∧ f.repositoryId = claim.repositoryId).insertionSort
    fun a b => a.path ≤ b.path

def recordFailure (now : Time) (claim : Claim) (code message : String) (db : Db) : Db :=
  { db with indexes := (Job.fenced now claim (Job.failedWith now code message) db.indexes).getD db.indexes }

inductive Pc
  | load
  | parsing (source : Uuid) (files : List RepositoryFile)
  | parse (source : Uuid) (files : List RepositoryFile)
  | storing (source : Uuid) (built : Built) (fileCount : Nat)
  | publish (source : Uuid) (built : Built) (fileCount : Nat)
  | failing (code message : String)
  | done
  | published (source : Uuid) (built : Built) (fileCount : Nat)

/-- A delivery whose claim succeeded. -/
structure Worker where
  claim : Claim
  pc : Pc

inductive Input
  | go (ids : List Uuid)
  | raised (e : Raised)

/-- The `except` clauses of `run_index`. -/
def handler : Raised → Pc
  | .leaseLost => .done
  | .importFailure code message _ => .failing code message
  | .timeout => .failing "index_timeout" "Indexing failed. Retry or inspect worker logs."
  | .app _ | .other => .failing "index_failed" "Indexing failed. Retry or inspect worker logs."

def report (now : Time) (claim : Claim) (stage : String) (next : Pc) (db : Db) : Pc × Db :=
  match Job.reportStage now claim stage db.indexes with
  | some indexes => (next, { db with indexes := indexes })
  | none => (handler .leaseLost, db)

/-- The first transaction: the job and the files of its import. -/
def load (claim : Claim) (db : Db) : Pc :=
  match db.indexes.find? (·.id = claim.jobId) with
  | none => handler .leaseLost
  | some job =>
    if job.data.pipelineVersion ≠ pipelineVersion then
      handler (.importFailure "index_version_mismatch"
        "Restart workers using the current application image." false)
    else .parsing job.data.importJobId (sourceFiles claim job.data.importJobId db)

/-- One step of `run_index` after the claim. -/
def step (env : Env) (now : Time) (claim : Claim) (input : Input) (pc : Pc) (db : Db) : Pc × Db :=
  match pc, input with
  | .load, .go _ => (load claim db, db)
  | .parsing source files, .go _ => report now claim "parsing" (.parse source files) db
  | .parse source files, .go _ =>
    match build env files with
    | .ok built => (.storing source built files.length, db)
    | .error e => (handler e, db)
  | .storing source built n, .go _ => report now claim "storing" (.publish source built n) db
  | .publish source built n, .go ids =>
    if ids.length = built.chunks.length then
      match publishIndex now claim source built n ids db with
      | some db' => (.published source built n, db')
      | none => (handler .leaseLost, db)
    else (pc, db)
  | .failing code message, .go _ => (.done, recordFailure now claim code message db)
  | .done, _ | .published _ _ _, _ | .failing _ _, _ => (pc, db)
  | _, .raised e => (handler e, db)

end Indexes
end RepoPilot
