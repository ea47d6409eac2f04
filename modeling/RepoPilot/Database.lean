import RepoPilot.Job
import RepoPilot.Source
import RepoPilot.Json
import Mathlib

/-! # Repositories, imports, indexes and search documents

The tables behind importing, indexing and search preparation, the queries over them, and the
third-party functions the program calls (`Env`). -/

namespace RepoPilot

abbrev Vector := List ℚ

/-- A tokenizer with the profile it belongs to (`EmbeddingProvider`). -/
structure EmbeddingProvider where
  profile : Text
  tokenize : Text → List (List Nat)

/-- Code outside the repository: hashing, the Python parser, the tokenizer, regular expressions over
Unicode classes, vector arithmetic in floating point, the partial JSON parser, the printer of floats,
and the database's full-text search, case folding and vector distance. `rowLocks` says whether
`SELECT … FOR UPDATE` locks rows, as in PostgreSQL, or is ignored, as in the SQLite of the tests. -/
structure Env where
  sha256 : Text → Text
  parsePython : Text → Parsed
  encode : Text → List Nat
  queryTerms : Text → List Text
  lexicalText : Text → Text
  aggregate : List Vector → List Nat → Except Raised Vector
  partialObject : Text → Option Json
  instructions : Text
  printFloat : ℚ → Text
  tsMatches : Text → Text → Bool
  tsRank : Text → Text → ℚ
  lower : Text → Text
  distance : Vector → Vector → ℚ
  rowLocks : Bool

namespace Env
variable (env : Env)

def countTokens (text : Text) : Nat := (env.encode text).length

/-- `token_parts`: the token ids in groups of 4096. -/
def tokenParts (text : Text) : List (List Nat) := (env.encode text).toChunks 4096

/-- Third-party functions that return nothing of interest. -/
def plain : Env where
  sha256 := id
  parsePython := fun _ => ⟨[], none⟩
  encode := fun _ => []
  queryTerms := fun _ => []
  lexicalText := id
  aggregate := fun _ _ => .ok []
  partialObject := fun _ => none
  instructions := []
  printFloat := fun _ => []
  tsMatches := fun _ _ => false
  tsRank := fun _ _ => 0
  lower := id
  distance := fun _ _ => 0
  rowLocks := true

end Env

/-- `retrieval.text.VERSION`. -/
def searchVersion : String := "hybrid-v1"

/-- `PARSER_VERSION + ":" + CHUNKER_VERSION`. -/
def pipelineVersion : String := "python312-v1:source-bytes-v1"

/-- `embeddings.provider.PROFILE`. -/
def embeddingProfile : Text := "openai:text-embedding-3-small:1536:cl100k_base:mean-v1".toList

/-! ### Rows -/

structure ImportData where
  filesScanned : Nat
  filesSkipped : Nat
  filesStored : Nat
  deriving DecidableEq

abbrev ImportJob := Job ImportData

structure RepositoryFile where
  id : Uuid
  repositoryId : Uuid
  importJobId : Uuid
  path : Text
  language : String
  size : Nat
  contentHash : Text
  content : Text
  deriving DecidableEq

/-- `{"file_id": …, "path": …, "message": …}`. -/
structure Diagnostic where
  fileId : Uuid
  path : Text
  message : Text
  deriving DecidableEq

structure IndexData where
  importJobId : Uuid
  commitSha : Text
  pipelineVersion : String
  symbolCount : Nat
  chunkCount : Nat
  diagnostics : List Diagnostic
  filesScanned : Nat
  filesStored : Nat
  filesSkipped : Nat
  deriving DecidableEq

abbrev RepositoryIndex := Job IndexData

structure CodeSymbol where
  indexId : Uuid
  importJobId : Uuid
  fileId : Uuid
  ordinal : Nat
  name : Text
  qualifiedName : Text
  kind : String
  signature : Option Text
  docstring : Option Text
  parentOrdinal : Option Nat
  startLine : Nat
  endLine : Nat
  deriving DecidableEq

structure CodeChunk where
  id : Uuid
  indexId : Uuid
  importJobId : Uuid
  fileId : Uuid
  chunk : Chunk
  deriving DecidableEq

structure SearchData where
  sourceIndexId : Uuid
  commitSha : Text
  pipelineVersion : String
  mode : Mode
  providerProfile : Text
  documentsStored : Nat
  reservedTokens : Nat
  inputTokens : Nat
  tokenBudget : Nat
  pricePerMillion : ℚ
  deriving DecidableEq

abbrev SearchIndex := Job SearchData

structure SearchDocument where
  searchIndexId : Uuid
  sourceIndexId : Uuid
  chunkId : Uuid
  searchText : Text
  inputHash : Text
  tokenCount : Nat
  embedding : Option Vector
  deriving DecidableEq

/-- The tables of importing, indexing and search preparation. -/
structure Db where
  repositories : List Repository
  imports : List ImportJob
  files : List RepositoryFile
  indexes : List RepositoryIndex
  symbols : List CodeSymbol
  chunks : List CodeChunk
  searches : List SearchIndex
  documents : List SearchDocument

namespace Db

def empty : Db := ⟨[], [], [], [], [], [], [], []⟩

def notFound : AppError := ⟨"not_found", "Repository not found.", 404⟩

/-- `RepositoryStore.owned`. -/
def owned (db : Db) (userId repositoryId : Uuid) : Except AppError (Repository × ImportJob) :=
  match db.repositories.find? fun r => r.id = repositoryId ∧ r.userId = userId with
  | none => .error notFound
  | some repository =>
    match db.imports.find? fun j => j.repositoryId = repository.id ∧ j.isCurrent = true with
    | none => .error notFound
    | some job => .ok (repository, job)

/-- The first of the newest rows (`ORDER BY created_at DESC, id LIMIT 1`). -/
def newest {π : Type} (rows : List (Job π)) : Option (Job π) :=
  (rows.insertionSort fun a b => b.createdAt < a.createdAt ∨ a.createdAt = b.createdAt ∧ a.id ≤ b.id).head?

/-- `IndexStore.latest`. -/
def latestIndex (db : Db) (repositoryId sourceId : Uuid) : Option RepositoryIndex :=
  db.indexes.find? fun i =>
    i.repositoryId = repositoryId ∧ i.data.importJobId = sourceId ∧ i.isCurrent = true

/-- `IndexStore.active`. -/
def activeIndex (db : Db) (repositoryId sourceId : Uuid) : Option RepositoryIndex :=
  newest (db.indexes.filter fun i =>
    i.repositoryId = repositoryId ∧ i.data.importJobId = sourceId ∧ i.status = .completed)

/-- `SearchStore.latest`. -/
def latestSearch (db : Db) (repositoryId : Uuid) : Option SearchIndex :=
  db.searches.find? fun s => s.repositoryId = repositoryId ∧ s.isCurrent = true

/-- `SearchStore.active`. -/
def activeSearch (db : Db) (repositoryId sourceIndexId : Uuid) (mode : Mode) : Option SearchIndex :=
  newest (db.searches.filter fun s =>
    s.repositoryId = repositoryId ∧ s.data.sourceIndexId = sourceIndexId ∧ s.status = .completed ∧
      s.data.mode = mode ∧ s.data.pipelineVersion = searchVersion)

/-- A chunk with its file and its symbol, as retrieval reads it. -/
structure SourceChunk where
  id : Uuid
  fileId : Uuid
  path : Text
  language : String
  name : Option Text
  signature : Option Text
  content : Text
  startLine : Nat
  endLine : Nat
  startOffset : Nat
  endOffset : Nat
  deriving DecidableEq

/-- The chunk `c` of file `f`, outer-joined with its symbol. -/
def sourceChunk (symbols : List CodeSymbol) (c : CodeChunk) (f : RepositoryFile) : SourceChunk :=
  let symbol := symbols.find? fun s =>
    s.indexId = c.indexId ∧ s.fileId = c.fileId ∧ some s.ordinal = c.chunk.symbolOrdinal
  { id := c.id
    fileId := f.id
    path := f.path
    language := f.language
    name := symbol.map (·.qualifiedName)
    signature := symbol.bind (·.signature)
    content := c.chunk.content
    startLine := c.chunk.startLine
    endLine := c.chunk.endLine
    startOffset := c.chunk.startOffset
    endOffset := c.chunk.endOffset }

/-- `ORDER BY path, ordinal` on pairs of a chunk and its file. -/
def placeLe (a b : CodeChunk × RepositoryFile) : Prop :=
  a.2.path < b.2.path ∨ a.2.path = b.2.path ∧ a.1.chunk.ordinal ≤ b.1.chunk.ordinal

instance : DecidableRel placeLe := fun a b =>
  inferInstanceAs (Decidable (a.2.path < b.2.path ∨ a.2.path = b.2.path ∧ a.1.chunk.ordinal ≤ b.1.chunk.ordinal))

/-- The chunks of an index joined with their files. -/
def placed (db : Db) (sourceIndexId : Uuid) : List (CodeChunk × RepositoryFile) :=
  (db.chunks.filter (·.indexId = sourceIndexId)).filterMap fun c =>
    (db.files.find? (·.id = c.fileId)).map (c, ·)

/-- `SearchStore.chunks`; with `ids`, only the chunks named there. -/
def sourceChunks (db : Db) (sourceIndexId : Uuid) (ids : Option (List Uuid)) : List SourceChunk :=
  (((db.placed sourceIndexId).filter fun p => ids.all (p.1.id ∈ ·)).insertionSort placeLe).map fun p =>
    sourceChunk db.symbols p.1 p.2

/-- Delete a repository and, by cascade, everything that hangs on it. -/
def deleteRepository (db : Db) (repositoryId : Uuid) : Db :=
  let imports := (db.imports.filter (·.repositoryId = repositoryId)).map (·.id)
  let indexes := (db.indexes.filter (·.repositoryId = repositoryId)).map (·.id)
  let searches := (db.searches.filter (·.repositoryId = repositoryId)).map (·.id)
  { repositories := db.repositories.filter (·.id ≠ repositoryId)
    imports := db.imports.filter (·.repositoryId ≠ repositoryId)
    files := db.files.filter (·.importJobId ∉ imports)
    indexes := db.indexes.filter (·.repositoryId ≠ repositoryId)
    symbols := db.symbols.filter (·.indexId ∉ indexes)
    chunks := db.chunks.filter (·.indexId ∉ indexes)
    searches := db.searches.filter (·.repositoryId ≠ repositoryId)
    documents := db.documents.filter (·.searchIndexId ∉ searches) }

/-- `RepositoryService.remove`. -/
def removeRepository (db : Db) (userId repositoryId : Uuid) : Db :=
  match db.owned userId repositoryId with
  | .ok _ => db.deleteRepository repositoryId
  | .error _ => db

end Db
end RepoPilot
