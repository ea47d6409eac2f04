import RepoPilot.Basic
import Mathlib

/-! # Source chunks

`chunkSource` cuts a file into consecutive slices along lines and definitions. The parser and the
hash are parameters: both are third-party code. `Exact` is what the rest of the system relies on: a
chunk's content is the slice its offsets name. -/

namespace RepoPilot

structure Symbol where
  name : Text
  qualifiedName : Text
  kind : String
  parent : Option Nat
  startLine : Nat
  endLine : Nat
  signature : Option Text
  docstring : Option Text
  deriving DecidableEq

structure Parsed where
  symbols : List Symbol
  diagnostic : Option Text

structure Chunk where
  ordinal : Nat
  startOffset : Nat
  endOffset : Nat
  startLine : Nat
  endLine : Nat
  symbolOrdinal : Option Nat
  kind : String
  content : Text
  contentHash : Text
  deriving DecidableEq

namespace Source

def maxChunkBytes : Nat := 8192

def utf8Length (s : Text) : Nat := (s.map Char.utf8Size).sum

/-- The offsets after each line break (`\r\n`, `\r` or `\n`) of the text that starts at `offset`. -/
def breakEnds (offset : Nat) : Text → List Nat
  | [] => []
  | '\r' :: '\n' :: cs => (offset + 2) :: breakEnds (offset + 2) cs
  | '\r' :: cs => (offset + 1) :: breakEnds (offset + 1) cs
  | '\n' :: cs => (offset + 1) :: breakEnds (offset + 1) cs
  | _ :: cs => breakEnds (offset + 1) cs

/-- The offsets at which lines start. -/
def lineStarts (content : Text) : List Nat := 0 :: breakEnds 0 content

/-- `bisect.bisect_right` on a sorted list. -/
def bisectRight (xs : List Nat) (x : Nat) : Nat := (xs.takeWhile (· ≤ x)).length

/-- The enclosing scopes of a symbol, innermost first; parents come before their children, so the
number of symbols is fuel enough. -/
def ancestors (symbols : List Symbol) : Nat → Option Nat → List Symbol
  | 0, _ => []
  | _, none => []
  | fuel + 1, some p =>
    match symbols[p]? with
    | none => []
    | some s => s :: ancestors symbols fuel s.parent

def isDefinition (s : Symbol) : Bool := s.kind = "function" ∨ s.kind = "method" ∨ s.kind = "class"

/-- The symbols that get chunks of their own. -/
def hasRegion (symbols : List Symbol) (s : Symbol) (i : Nat) : Bool :=
  isDefinition s ∧
    ¬ (ancestors symbols symbols.length s.parent).any (fun a => a.kind = "function" ∨ a.kind = "method") ∧
    ¬ (s.kind = "class" ∧
      symbols.any fun t => (t.kind = "class" ∨ t.kind = "method") ∧ t.parent = some i)

/-- `(begin, end, ordinal)` of a symbol; `none` is an `IndexError`. -/
def region (content : Text) (starts : List Nat) (s : Symbol) (i : Nat) : Option (Nat × Nat × Nat) := do
  let first ← if s.startLine = 0 then starts.getLast? else starts[s.startLine - 1]?
  some (first, starts.getD s.endLine content.length, i)

def regions (content : Text) (starts : List Nat) (symbols : List Symbol) : Option (List (Nat × Nat × Nat)) :=
  (symbols.zipIdx.filter fun p => hasRegion symbols p.1 p.2).mapM fun p => region content starts p.1 p.2

def regionLe (a b : Nat × Nat × Nat) : Prop :=
  a.1 < b.1 ∨ a.1 = b.1 ∧ (a.2.1 < b.2.1 ∨ a.2.1 = b.2.1 ∧ a.2.2 ≤ b.2.2)

instance : DecidableRel regionLe := fun a b =>
  inferInstanceAs (Decidable (a.1 < b.1 ∨ a.1 = b.1 ∧ (a.2.1 < b.2.1 ∨ a.2.1 = b.2.1 ∧ a.2.2 ≤ b.2.2)))

/-- Cover `[cursor, length)` by the sorted regions and the gaps between them. -/
def spans (length : Nat) : Nat → List (Nat × Nat × Nat) → List (Nat × Nat × Option Nat)
  | cursor, [] => if cursor < length then [(cursor, length, none)] else []
  | cursor, (first, last, i) :: rs =>
    if first < cursor then spans length cursor rs
    else (if cursor < first then [(cursor, first, none)] else []) ++
      (first, last, some i) :: spans length last rs

/-- The last character read ended a line. -/
def endsLine (content : Text) (last stop : Nat) : Bool :=
  content[stop - 1]? = some '\n' ∨
    content[stop - 1]? = some '\r' ∧ (stop = last ∨ content[stop]? ≠ some '\n')

/-- Read characters while they fit; the result is where reading stopped and the last line break
before it. -/
def advance (content : Text) (maxBytes last : Nat) : Nat → Nat → Nat → Nat → Nat × Nat
  | 0, stop, _, lastBreak => (stop, lastBreak)
  | fuel + 1, stop, size, lastBreak =>
    if stop < last then
      let width := (content.getD stop ' ').utf8Size
      if maxBytes < size + width then (stop, lastBreak)
      else advance content maxBytes last fuel (stop + 1) (size + width)
        (if endsLine content last (stop + 1) then stop + 1 else lastBreak)
    else (stop, lastBreak)

/-- Where the chunk that starts at `first` ends. -/
def chunkEnd (content : Text) (maxBytes first last : Nat) : Nat :=
  let (stop, lastBreak) := advance content maxBytes last (last - first) first 0 first
  if stop < last ∧ first < lastBreak then lastBreak else stop

/-- The `(begin, stop)` pairs of one span. -/
def cuts (content : Text) (maxBytes last : Nat) : Nat → Nat → List (Nat × Nat)
  | 0, _ => []
  | fuel + 1, first =>
    if first < last then
      let stop := chunkEnd content maxBytes first last
      (first, stop) :: cuts content maxBytes last fuel stop
    else []

def chunkSource (sha256 : Text → Text) (content : Text) (symbols : List Symbol) (mode : String)
    (maxBytes : Nat) : Except Raised (List Chunk) :=
  if maxBytes < 4 then .error .other
  else
    let starts := lineStarts content
    match regions content starts symbols with
    | none => .error .other
    | some rs =>
      let pieces := (spans content.length 0 (rs.insertionSort regionLe)).flatMap fun (first, last, symbol) =>
        (cuts content maxBytes last (last - first) first).map fun (begin', stop) => (begin', stop, symbol)
      .ok (pieces.zipIdx.map fun ((begin', stop, symbol), ordinal) =>
        { ordinal := ordinal
          startOffset := begin'
          endOffset := stop
          startLine := bisectRight starts begin'
          endLine := bisectRight starts (stop - 1)
          symbolOrdinal := symbol
          kind := if symbol.isSome then "symbol" else mode
          content := slice content begin' stop
          contentHash := sha256 (slice content begin' stop) })

structure IndexedSource where
  symbols : List Symbol
  chunks : List Chunk
  diagnostic : Option Text

def indexSource (sha256 : Text → Text) (parsePython : Text → Parsed) (content : Text) (language : String) :
    Except Raised IndexedSource :=
  if 256 * 1024 < utf8Length content then
    .error (.importFailure "index_file_limit" "Source file exceeds the indexing size limit." false)
  else
    let parsed := if language = "python" then parsePython content else ⟨[], none⟩
    let mode :=
      if parsed.diagnostic.any (· ≠ []) then "fallback" else if language = "python" then "module" else "text"
    (chunkSource sha256 content parsed.symbols mode maxChunkBytes).map fun chunks =>
      ⟨parsed.symbols, chunks, parsed.diagnostic⟩

/-- A chunk is the slice of the file its offsets name. -/
def Exact (content : Text) (c : Chunk) : Prop := c.content = slice content c.startOffset c.endOffset

theorem exact_of_chunkSource {sha256 : Text → Text} {content : Text} {symbols : List Symbol} {mode : String}
    {maxBytes : Nat} {chunks : List Chunk}
    (h : chunkSource sha256 content symbols mode maxBytes = .ok chunks) : ∀ c ∈ chunks, Exact content c := by
  unfold chunkSource at h
  split at h
  · cases h
  · dsimp only at h
    split at h
    · cases h
    · cases h
      intro c hc
      obtain ⟨⟨⟨b, stop, symbol⟩, ordinal⟩, -, rfl⟩ := List.mem_map.1 hc
      exact rfl

theorem exact_of_indexSource {sha256 : Text → Text} {parsePython : Text → Parsed} {content : Text}
    {language : String} {result : IndexedSource}
    (h : indexSource sha256 parsePython content language = .ok result) :
    ∀ c ∈ result.chunks, Exact content c := by
  unfold indexSource at h
  split at h
  · cases h
  · dsimp only at h
    generalize hm : chunkSource _ _ _ _ _ = made at h
    cases made with
    | error e => cases h
    | ok chunks =>
      cases h
      exact exact_of_chunkSource hm

end Source
end RepoPilot
