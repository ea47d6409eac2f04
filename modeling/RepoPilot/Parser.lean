import RepoPilot.Source

/-! # Python symbols

`parsePython` walks the syntax tree of a source and lists its symbols, each with its lexical scope. The
tree itself, with the text of annotations and docstrings, comes from the standard library. -/

namespace RepoPilot
namespace Parser

def maxNodes : Nat := 40000

/-- What `ast.unparse` makes of the parts of a definition. -/
structure Unparsed where
  typeParams : List Text
  /-- The bases and keywords of a class. -/
  bases : List Text
  args : Text
  returns : Option Text

/-- An `ast.FunctionDef`, `ast.AsyncFunctionDef` or `ast.ClassDef`. -/
structure Definition where
  isClass : Bool
  isAsync : Bool
  name : Text
  lineno : Nat
  endLineno : Option Nat
  decorators : List Nat
  /-- `none` when unparsing exceeds the recursion limit. -/
  unparsed : Option Unparsed
  docstring : Option Text

/-- What the walk reads of a node. -/
inductive Shape
  | definition (d : Definition)
  | imports (names : List Text) (lineno : Nat) (endLineno : Option Nat)
  /-- An assignment with the names it stores, in the order of `ast.walk`. -/
  | assign (targets : List Text) (lineno : Nat) (endLineno : Option Nat)
  | other

inductive Node
  | mk (shape : Shape) (children : List Node)

def Node.shape : Node → Shape
  | .mk shape _ => shape

def Node.children : Node → List Node
  | .mk _ children => children

/-- The outcome of `ast.parse`. -/
inductive Tree
  | root (node : Node)
  | syntaxError
  | recursionError

/-- `node.end_lineno or node.lineno`. -/
def lastLine (lineno : Nat) : Option Nat → Nat
  | some (n + 1) => n + 1
  | _ => lineno

def Definition.startLine (d : Definition) : Nat := d.decorators.foldl min d.lineno

def Definition.endLine (d : Definition) : Nat := lastLine d.lineno d.endLineno

def commas (parts : List Text) : Text := ", ".toList.intercalate parts

/-- `signature`. -/
def signature (d : Definition) : Option Text :=
  d.unparsed.bind fun u =>
    let parameters := if u.typeParams = [] then [] else '[' :: commas u.typeParams ++ [']']
    let value :=
      if d.isClass then "class ".toList ++ d.name ++ parameters ++ '(' :: commas u.bases ++ [')']
      else
        let keyword := if d.isAsync then "async def".toList else "def".toList
        let returns := match u.returns with
          | some r => " -> ".toList ++ r
          | none => []
        keyword ++ ' ' :: d.name ++ parameters ++ '(' :: u.args ++ ')' :: returns
    if Source.utf8Length value ≤ 8192 then some value else none

/-- The enclosing symbol is a class. -/
def InClass (symbols : List Symbol) (parent : Option Nat) : Prop :=
  ∃ p s, parent = some p ∧ symbols[p]? = some s ∧ s.kind = "class"

instance (symbols : List Symbol) (parent : Option Nat) : Decidable (InClass symbols parent) :=
  decidable_of_iff ((parent.bind (symbols[·]?)).any (·.kind = "class") = true) (by
    cases parent with
    | none => simp [InClass]
    | some p => cases h : symbols[p]? <;> simp [InClass, h])

/-- The names a node declares, with their kinds. -/
def names (symbols : List Symbol) (parent : Option Nat) : Shape → List (Text × String)
  | .definition d =>
    [(d.name, if d.isClass then "class" else if InClass symbols parent then "method" else "function")]
  | .imports names _ _ => names.map (·, "import")
  | .assign targets _ _ =>
    if parent = none ∨ InClass symbols parent then targets.map (·, "variable") else []
  | .other => []

/-- The columns that do not depend on the name. -/
def blank (parent : Option Nat) : Shape → Symbol
  | .definition d => ⟨[], [], "", parent, d.startLine, d.endLine, signature d, d.docstring⟩
  | .imports _ lineno endLineno => ⟨[], [], "", parent, lineno, lastLine lineno endLineno, none, none⟩
  | .assign _ lineno endLineno => ⟨[], [], "", parent, lineno, lastLine lineno endLineno, none, none⟩
  | .other => ⟨[], [], "", parent, 0, 0, none, none⟩

/-- The qualified name of the scope, with a dot. -/
def scopePrefix (symbols : List Symbol) (parent : Option Nat) : Text :=
  match parent with
  | none => []
  | some p => ((symbols[p]?).map (·.qualifiedName)).getD [] ++ ['.']

/-- Append the symbols of one node; `none` when a name is too long. The second result is the scope of the
children. -/
def addNames (parent : Option Nat) (base : Symbol) :
    List (Text × String) → List Symbol → Option Nat → Option (List Symbol × Option Nat)
  | [], symbols, scope => some (symbols, scope)
  | (name, kind) :: rest, symbols, scope =>
    let qualified := scopePrefix symbols parent ++ name
    if 512 < name.length ∨ 2048 < qualified.length then none
    else
      addNames parent base rest (symbols ++ [{ base with name := name, qualifiedName := qualified, kind := kind }])
        (if kind = "class" ∨ kind = "function" ∨ kind = "method" then some symbols.length else scope)

/-- The traversal, with the number of nodes that may still be visited. -/
def walk : Nat → List (Node × Option Nat) → List Symbol → Parsed
  | _, [], symbols => ⟨symbols, none⟩
  | 0, _ :: _, _ => ⟨[], some "node_limit: AST exceeds 40000 nodes; using text chunks".toList⟩
  | n + 1, (node, parent) :: stack, symbols =>
    match addNames parent (blank parent node.shape) (names symbols parent node.shape) symbols parent with
    | none => ⟨[], some "symbol_limit: identifier or scope too long; using text chunks".toList⟩
    | some (symbols, scope) => walk n (node.children.map (·, scope) ++ stack) symbols

/-- `parse_python`; `parse` is `ast.parse` with `feature_version=(3, 12)`. -/
def parsePython (parse : Text → Tree) (content : Text) : Parsed :=
  match parse content with
  | .syntaxError => ⟨[], some "syntax_error: cannot parse as Python 3.12; using text chunks".toList⟩
  | .recursionError => ⟨[], some "parser_depth: syntax too deeply nested; using text chunks".toList⟩
  | .root node => walk maxNodes [(node, none)] []

/-! ### Places in the tree -/

/-- A node of a tree, by the indices of the children that lead to it. -/
abbrev Path := List Nat

def Node.at : Node → Path → Option Node
  | node, [] => some node
  | node, i :: path => (node.children[i]?).bind (·.at path)

/-- The definition at a place of the tree. -/
def Node.definitionAt (root : Node) (path : Path) : Option Definition :=
  (root.at path).bind fun node => match node.shape with
    | .definition d => some d
    | _ => none

end Parser
end RepoPilot
