import RepoPilot.Imports
import RepoPilot.Indexes
import RepoPilot.Searches
import RepoPilot.Lifecycle

/-! # The job system

The tables with every process that works on them: requests of users, deliveries to workers and
dispatcher cycles, in any interleaving. One action is one transaction or one local step. -/

namespace RepoPilot

/-- A cycle of `dispatch_once`: between its two statements, or publishing the ids it selected. -/
inductive Cycle
  | expired (start : Time)
  | publishing (start : Time) (ids : List Uuid)

namespace Cycle

inductive Input
  | expire
  | select (cycle : Nat)
  | publish (cycle : Nat) (succeeded : Bool)

variable {π : Type}

def step (now : Time) (input : Input) (t : List (Job π)) (cycles : List Cycle) : List (Job π) × List Cycle :=
  match input with
  | .expire => (Job.workerLost now t, cycles ++ [.expired now])
  | .select i =>
    match cycles[i]? with
    | some (.expired start) => (t, cycles.set i (.publishing start (Job.dispatchSelect start t)))
    | _ => (t, cycles)
  | .publish i succeeded =>
    match cycles[i]? with
    | some (.publishing start (id :: ids)) =>
      (if succeeded then Job.markDispatched start id t else t, cycles.set i (.publishing start ids))
    | _ => (t, cycles)

end Cycle

structure Jobs where
  db : Db
  importWorkers : List Imports.Worker
  indexWorkers : List Indexes.Worker
  searchWorkers : List Searches.Worker
  importCycles : List Cycle
  indexCycles : List Cycle
  searchCycles : List Cycle
  /-- Every call of `provider.embed` by a preparation worker: the job and the tokens passed. -/
  embedCalls : List (Uuid × Nat)

namespace Jobs

def empty : Jobs := ⟨Db.empty, [], [], [], [], [], [], []⟩

inductive Action
  | createImport (userId : Uuid) (source : Except AppError (Text × Text)) (limit : Option AppError)
      (repositoryId jobId : Uuid)
  | retryImport (userId repositoryId : Uuid) (limit : Option AppError) (jobId : Uuid)
  | cancelImport (userId repositoryId : Uuid)
  | claimImport (jobId token : Uuid)
  | importStep (worker : Nat) (input : Imports.Input)
  | importCycle (input : Cycle.Input)
  | startIndex (userId repositoryId : Uuid) (limit : Option AppError) (jobId : Uuid)
  | cancelIndex (userId repositoryId : Uuid)
  | claimIndex (jobId token : Uuid)
  | indexStep (worker : Nat) (input : Indexes.Input)
  | indexCycle (input : Cycle.Input)
  | startSearch (settings : Settings) (userId repositoryId : Uuid) (mode : Mode) (limit : Option AppError)
      (jobId : Uuid)
  | cancelSearch (userId repositoryId : Uuid)
  | claimSearch (jobId token : Uuid) (provider : Option EmbeddingProvider)
  | searchStep (worker : Nat) (input : Searches.Input)
  | searchCycle (input : Cycle.Input)
  | removeRepository (userId repositoryId : Uuid)

/-- The identifiers an action draws. -/
def Action.ids : Action → List Uuid
  | .createImport _ _ _ repositoryId jobId => [repositoryId, jobId]
  | .retryImport _ _ _ jobId => [jobId]
  | .claimImport _ token => [token]
  | .importStep _ (.go ids) => ids
  | .startIndex _ _ _ jobId => [jobId]
  | .claimIndex _ token => [token]
  | .indexStep _ (.go ids) => ids
  | .startSearch _ _ _ _ _ jobId => [jobId]
  | .claimSearch _ token _ => [token]
  | _ => []

/-- A request that raises is rolled back. -/
def committed {α : Type} (db : Db) (result : Except Raised (Db × α)) : Db :=
  match result with
  | .ok p => p.1
  | .error _ => db

def claimImport (now : Time) (jobId token : Uuid) (s : Jobs) : Jobs :=
  match Job.claimJob now s.db.repositories jobId token s.db.imports with
  | some p => { s with db.imports := p.1, importWorkers := s.importWorkers ++ [⟨p.2, .resolve⟩] }
  | none => s

def importStep (now : Time) (i : Nat) (input : Imports.Input) (s : Jobs) : Jobs :=
  match s.importWorkers[i]? with
  | some w =>
    let p := Imports.step now w.claim input w.pc s.db
    { s with db := p.2, importWorkers := s.importWorkers.set i ⟨w.claim, p.1⟩ }
  | none => s

def claimIndex (now : Time) (jobId token : Uuid) (s : Jobs) : Jobs :=
  match Job.claimJob now s.db.repositories jobId token s.db.indexes with
  | some p => { s with db.indexes := p.1, indexWorkers := s.indexWorkers ++ [⟨p.2, .load⟩] }
  | none => s

def indexStep (env : Env) (now : Time) (i : Nat) (input : Indexes.Input) (s : Jobs) : Jobs :=
  match s.indexWorkers[i]? with
  | some w =>
    let p := Indexes.step env now w.claim input w.pc s.db
    { s with db := p.2, indexWorkers := s.indexWorkers.set i ⟨w.claim, p.1⟩ }
  | none => s

def claimSearch (now : Time) (jobId token : Uuid) (provider : Option EmbeddingProvider) (s : Jobs) : Jobs :=
  match Job.claimJob now s.db.repositories jobId token s.db.searches with
  | some p => { s with db.searches := p.1, searchWorkers := s.searchWorkers ++ [⟨p.2, provider, .load⟩] }
  | none => s

def searchStep (env : Env) (now : Time) (i : Nat) (input : Searches.Input) (s : Jobs) : Jobs :=
  match s.searchWorkers[i]? with
  | some w =>
    let p := Searches.step env now w.claim w.provider input w.pc s.db
    { s with
      db := p.2
      searchWorkers := s.searchWorkers.set i ⟨w.claim, w.provider, p.1⟩
      embedCalls := s.embedCalls ++ ((Searches.embedCall env w.pc input).map (w.claim.jobId, ·)).toList }
  | none => s

def step (env : Env) (now : Time) (a : Action) (s : Jobs) : Jobs :=
  match a with
  | .createImport userId source limit repositoryId jobId =>
    { s with db := committed s.db (Imports.create now userId source limit repositoryId jobId s.db) }
  | .retryImport userId repositoryId limit jobId =>
    { s with db := committed s.db (Imports.retry now userId repositoryId limit jobId s.db) }
  | .cancelImport userId repositoryId =>
    { s with db := committed s.db ((Imports.cancel now userId repositoryId s.db).map (·, ())) }
  | .claimImport jobId token => claimImport now jobId token s
  | .importStep i input => importStep now i input s
  | .importCycle input =>
    let p := Cycle.step now input s.db.imports s.importCycles
    { s with db.imports := p.1, importCycles := p.2 }
  | .startIndex userId repositoryId limit jobId =>
    { s with db := committed s.db (Indexes.start now userId repositoryId limit jobId s.db) }
  | .cancelIndex userId repositoryId =>
    { s with db := committed s.db ((Indexes.cancel now userId repositoryId s.db).map (·, ())) }
  | .claimIndex jobId token => claimIndex now jobId token s
  | .indexStep i input => indexStep env now i input s
  | .indexCycle input =>
    let p := Cycle.step now input s.db.indexes s.indexCycles
    { s with db.indexes := p.1, indexCycles := p.2 }
  | .startSearch settings userId repositoryId mode limit jobId =>
    { s with db := committed s.db (Searches.start now settings userId repositoryId mode limit jobId s.db) }
  | .cancelSearch userId repositoryId =>
    { s with db := committed s.db ((Searches.cancel now userId repositoryId s.db).map (·, ())) }
  | .claimSearch jobId token provider => claimSearch now jobId token provider s
  | .searchStep i input => searchStep env now i input s
  | .searchCycle input =>
    let p := Cycle.step now input s.db.searches s.searchCycles
    { s with db.searches := p.1, searchCycles := p.2 }
  | .removeRepository userId repositoryId => { s with db := s.db.removeRepository userId repositoryId }

end Jobs
end RepoPilot
