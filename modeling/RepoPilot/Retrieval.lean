import RepoPilot.Searches

/-! # Retrieval

Candidate selection over the search documents of one index, reciprocal rank fusion, and the evidence
that fits a token budget. Scores are exact fractions. -/

namespace RepoPilot

structure SearchHit where
  chunkId : Uuid
  fileId : Uuid
  path : Text
  language : String
  symbol : Option Text
  startLine : Nat
  endLine : Nat
  startOffset : Nat
  endOffset : Nat
  content : Text
  score : ℚ
  channelRanks : List (String × Nat)

structure Evidence where
  citationId : Text
  chunkId : Uuid
  path : Text
  commitSha : Text
  startLine : Nat
  endLine : Nat
  content : Text
  deriving DecidableEq

/-- `retrieval.ranking.Ranked`. -/
structure Ranked where
  chunkId : Uuid
  score : ℚ
  channelRanks : List (String × Nat)

/-- `SearchResponse`. -/
structure Retrieved where
  searchIndexId : Uuid
  sourceIndexId : Uuid
  commitSha : Text
  mode : Mode
  pipelineVersion : String
  providerProfile : Text
  results : List SearchHit
  context : List Evidence
  contextTokens : Nat
  contextOmitted : Nat
  queryTokens : Nat
  estimatedQueryCostUsd : ℚ

namespace Retrieval
variable (env : Env)

/-! ### Candidates -/

/-- `search_documents d JOIN code_chunks c JOIN repository_files f` for one search index. -/
def joined (db : Db) (indexId : Uuid) : List (SearchDocument × CodeChunk × RepositoryFile) :=
  (db.documents.filter (·.searchIndexId = indexId)).filterMap fun d => do
    let c ← db.chunks.find? (·.id = d.chunkId)
    let f ← db.files.find? (·.id = c.fileId)
    some (d, c, f)

/-- `ORDER BY key, path, ordinal`. -/
def rowLe (key : SearchDocument → ℚ) (a b : SearchDocument × CodeChunk × RepositoryFile) : Prop :=
  key a.1 < key b.1 ∨ key a.1 = key b.1 ∧ Db.placeLe a.2 b.2

instance (key : SearchDocument → ℚ) : DecidableRel (rowLe key) := fun a b =>
  inferInstanceAs (Decidable (key a.1 < key b.1 ∨ key a.1 = key b.1 ∧ Db.placeLe a.2 b.2))

/-- `PostgresCandidates.lexical`. -/
def lexical (db : Db) (indexId : Uuid) (terms : List Text) : List Uuid :=
  let query := " | ".toList.intercalate terms
  if terms = [] then []
  else
    let rows := (joined db indexId).filter fun p => env.tsMatches p.1.searchText query
    ((rows.insertionSort (rowLe fun d => -env.tsRank d.searchText query)).take 30).map (·.1.chunkId)

/-- The symbol `s` names the chunk `c` by one of `terms`. -/
def Named (terms : List Text) (c : CodeChunk) (s : CodeSymbol) : Prop :=
  s.indexId = c.indexId ∧ s.fileId = c.fileId ∧
    (some s.ordinal = c.chunk.symbolOrdinal ∨ c.chunk.startLine ≤ s.startLine ∧ s.startLine ≤ c.chunk.endLine) ∧
    (env.lower s.name ∈ terms ∨ env.lower s.qualifiedName ∈ terms)

instance (terms : List Text) (c : CodeChunk) : DecidablePred (Named env terms c) := fun s =>
  inferInstanceAs (Decidable (s.indexId = c.indexId ∧ s.fileId = c.fileId ∧
    (some s.ordinal = c.chunk.symbolOrdinal ∨ c.chunk.startLine ≤ s.startLine ∧ s.startLine ≤ c.chunk.endLine) ∧
    (env.lower s.name ∈ terms ∨ env.lower s.qualifiedName ∈ terms)))

/-- `PostgresCandidates.symbols`. -/
def symbols (db : Db) (indexId : Uuid) (terms : List Text) : List Uuid :=
  if terms = [] then []
  else
    let rows := (joined db indexId).filter fun p => ∃ s ∈ db.symbols, Named env terms p.2.1 s
    (((rows.insertionSort (rowLe fun _ => 0)).map (·.1.chunkId)).eraseDups).take 30

/-- `PostgresCandidates.vector`. -/
def vector (db : Db) (indexId : Uuid) (query : Vector) : List Uuid :=
  let rows := (joined db indexId).filter (·.1.embedding.isSome)
  let distance (d : SearchDocument) : ℚ := (d.embedding.map (env.distance · query)).getD 0
  ((rows.insertionSort (rowLe distance)).take 30).map (·.1.chunkId)

/-! ### Fusion -/

/-- The one-based rank of `id` among the distinct ids. -/
def position (ids : List Uuid) (id : Uuid) : Option Nat :=
  if id ∈ ids then some (ids.eraseDups.idxOf id + 1) else none

def ranks (channels : List (String × List Uuid)) (id : Uuid) : List (String × Nat) :=
  channels.filterMap fun c => (position c.2 id).map (c.1, ·)

def score (channels : List (String × List Uuid)) (id : Uuid) : ℚ :=
  ((ranks channels id).map fun p => 1 / (60 + p.2 : ℚ)).sum

/-- The distinct ids of all channels in the order in which they first appear. -/
def candidateIds (channels : List (String × List Uuid)) : List Uuid := (channels.flatMap (·.2)).eraseDups

def tieKey (tieKeys : List (Uuid × Text)) (id : Uuid) : Text := (tieKeys.lookup id).getD (Json.uuidText id)

def rankLe (channels : List (String × List Uuid)) (tieKeys : List (Uuid × Text)) (a b : Uuid) : Prop :=
  score channels b < score channels a ∨
    score channels a = score channels b ∧ tieKey tieKeys a ≤ tieKey tieKeys b

instance (channels : List (String × List Uuid)) (tieKeys : List (Uuid × Text)) :
    DecidableRel (rankLe channels tieKeys) := fun a b =>
  inferInstanceAs (Decidable (score channels b < score channels a ∨
    score channels a = score channels b ∧ tieKey tieKeys a ≤ tieKey tieKeys b))

def fuse (channels : List (String × List Uuid)) (limit : Nat) (tieKeys : List (Uuid × Text)) : List Ranked :=
  (((candidateIds channels).insertionSort (rankLe channels tieKeys)).take limit).map fun id =>
    ⟨id, score channels id, ranks channels id⟩

/-! ### Hits and evidence -/

/-- `f"{c.path}:{c.start_offset:010}"`. -/
def place (c : Db.SourceChunk) : Uuid × Text :=
  let digits := Json.decimal c.startOffset
  (c.id, c.path ++ ':' :: (List.replicate (10 - digits.length) '0' ++ digits))

def hit (item : Ranked) (c : Db.SourceChunk) : SearchHit where
  chunkId := c.id
  fileId := c.fileId
  path := c.path
  language := c.language
  symbol := c.name
  startLine := c.startLine
  endLine := c.endLine
  startOffset := c.startOffset
  endOffset := c.endOffset
  content := c.content
  score := item.score
  channelRanks := item.channelRanks

/-- The ranked chunks; `none` when one of them is not there any more. -/
def hits (chunks : List Db.SourceChunk) (ranked : List Ranked) : Option (List SearchHit) :=
  ranked.mapM fun item => (chunks.find? (·.id = item.chunkId)).map (hit item)

def citation (commitSha : Text) (n : Nat) (h : SearchHit) : Evidence where
  citationId := 'C' :: Json.decimal n
  chunkId := h.chunkId
  path := h.path
  commitSha := commitSha
  startLine := h.startLine
  endLine := h.endLine
  content := h.content

/-- `Evidence.model_dump(mode="json")`. -/
def Evidence.dump (e : Evidence) : Json :=
  .obj [("citation_id".toList, .str e.citationId), ("chunk_id".toList, .str (Json.uuidText e.chunkId)),
    ("path".toList, .str e.path), ("commit_sha".toList, .str e.commitSha), ("start_line".toList, .num e.startLine),
    ("end_line".toList, .num e.endLine), ("content".toList, .str e.content)]

def contextJson (items : List Evidence) : Text := Json.dumps .compact (.arr (items.map Evidence.dump))

/-- Add the hit if the serialized evidence stays within the budget. -/
def addHit (commitSha : Text) (budget : Nat) (chosen : List Evidence) (h : SearchHit) : List Evidence :=
  let candidate := citation commitSha (chosen.length + 1) h
  if env.countTokens (contextJson (chosen ++ [candidate])) ≤ budget then chosen ++ [candidate] else chosen

/-- `retrieval.context.build_context`. -/
def buildContext (hits : List SearchHit) (commitSha : Text) (budget : Nat) : List Evidence × Nat :=
  let evidence := hits.foldl (addHit env commitSha budget) []
  (evidence, env.countTokens (contextJson evidence))

section Provenance
variable {env}

/-- Every piece of evidence is one of the hits under a citation id. -/
theorem mem_buildContext {hits : List SearchHit} {commitSha : Text} {budget : Nat} {e : Evidence}
    (h : e ∈ (buildContext env hits commitSha budget).1) : ∃ n, ∃ x ∈ hits, e = citation commitSha n x := by
  have hfold : ∀ (hits : List SearchHit) (chosen : List Evidence),
      e ∈ hits.foldl (addHit env commitSha budget) chosen →
      e ∈ chosen ∨ ∃ n, ∃ x ∈ hits, e = citation commitSha n x := by
    intro hits
    induction hits with
    | nil => intro chosen h; exact .inl h
    | cons x xs ih =>
      intro chosen h
      rcases ih _ h with h | ⟨n, y, hy, he⟩
      · unfold addHit at h
        dsimp only at h
        split at h
        · rcases List.mem_append.1 h with h | h
          · exact .inl h
          · exact .inr ⟨_, x, List.mem_cons_self, List.mem_singleton.1 h⟩
        · exact .inl h
      · exact .inr ⟨n, y, List.mem_cons_of_mem _ hy, he⟩
  rcases hfold hits [] h with h | h
  · cases h
  · exact h

/-- Every hit is one of the chunks. -/
theorem mem_hits {chunks : List Db.SourceChunk} {ranked : List Ranked} {found : List SearchHit}
    (h : hits chunks ranked = some found) {x : SearchHit} (hx : x ∈ found) :
    ∃ item ∈ ranked, ∃ c ∈ chunks, x = hit item c := by
  unfold hits at h
  induction ranked generalizing found with
  | nil =>
    cases h
    cases hx
  | cons item ranked ih =>
    rw [List.mapM_cons] at h
    simp only [Option.bind_eq_bind, Option.bind_eq_some_iff, Option.map_eq_some_iff] at h
    obtain ⟨y, ⟨c, hc, rfl⟩, ys, hys, he⟩ := h
    cases he
    rcases List.mem_cons.1 hx with rfl | hx
    · exact ⟨item, List.mem_cons_self, c, List.mem_of_find?_eq_some hc, rfl⟩
    · obtain ⟨item', hi, hrest⟩ := ih hys hx
      exact ⟨item', List.mem_cons_of_mem _ hi, hrest⟩

end Provenance

end Retrieval

namespace Db

/-- A chunk as retrieval reads it is a stored chunk of the index in a stored file. -/
theorem mem_sourceChunks {db : Db} {sourceIndexId : Uuid} {ids : Option (List Uuid)} {x : SourceChunk}
    (h : x ∈ db.sourceChunks sourceIndexId ids) :
    ∃ c ∈ db.chunks, c.indexId = sourceIndexId ∧ ∃ f ∈ db.files, f.id = c.fileId ∧ x = sourceChunk db.symbols c f := by
  unfold sourceChunks at h
  obtain ⟨p, hp, rfl⟩ := List.mem_map.1 h
  have hp := (List.mem_filter.1 ((List.mem_insertionSort _).1 hp)).1
  unfold placed at hp
  obtain ⟨c, hc, hcp⟩ := List.mem_filterMap.1 hp
  obtain ⟨hc, hci⟩ := List.mem_filter.1 hc
  obtain ⟨f, hf, rfl⟩ := Option.map_eq_some_iff.1 hcp
  have hfid : f.id = c.fileId := by simpa using List.find?_some hf
  exact ⟨c, hc, of_decide_eq_true hci, f, List.mem_of_find?_eq_some hf, hfid, rfl⟩

end Db
end RepoPilot
