import RepoPilot.Parser

/-! # Symbols and the syntax tree

`Walked`: the nodes still to visit lie beside each other and below no node visited, and the scope of each
is the innermost definition around it. The walk appends symbols and never looks back, so what is known of
a symbol stays known. -/

namespace RepoPilot
namespace Parser
open Source

/-! ### Places -/

/-- Neither place lies in the other. -/
def Apart (p q : Path) : Prop := ¬ p <+: q ∧ ¬ q <+: p

theorem Apart.symm {p q : Path} (h : Apart p q) : Apart q p := ⟨h.2, h.1⟩

/-- What is apart from a node is apart from its children. -/
theorem Apart.child {p q : Path} (h : Apart p q) (c : Nat) : Apart (p ++ [c]) q := by
  refine ⟨fun hpre => h.1 ((List.prefix_append p [c]).trans hpre), fun hpre => ?_⟩
  rcases List.prefix_concat_iff.1 hpre with rfl | hpre
  · exact h.1 (List.prefix_append p [c])
  · exact h.2 hpre

theorem apart_children (p : Path) {c d : Nat} (h : c ≠ d) : Apart (p ++ [c]) (p ++ [d]) := by
  have hne : ∀ {c d : Nat}, c ≠ d → ¬ p ++ [c] <+: p ++ [d] := by
    intro c d h hpre
    have := List.prefix_append_right_inj p |>.1 hpre
    exact h (by simpa using this)
  exact ⟨hne h, hne h.symm⟩

theorem Node.at_concat {root node : Node} {path : Path} (h : root.at path = some node) (c : Nat) :
    root.at (path ++ [c]) = node.children[c]? := by
  induction path generalizing root with
  | nil =>
    obtain rfl : root = node := Option.some.inj h
    show (root.children[c]?).bind (·.at []) = root.children[c]?
    cases root.children[c]? <;> rfl
  | cons i path ih =>
    obtain ⟨child, hchild, hat⟩ := Option.bind_eq_some_iff.1 (show (root.children[i]?).bind (·.at path) = _ from h)
    show (root.children[i]?).bind (·.at (path ++ [c])) = node.children[c]?
    rw [hchild]
    exact ih hat

/-- The lines of a node that makes symbols. -/
def Shape.lines : Shape → Option (Nat × Nat)
  | .definition d => some (d.startLine, d.endLine)
  | .imports _ lineno endLineno => some (lineno, lastLine lineno endLineno)
  | .assign _ lineno endLineno => some (lineno, lastLine lineno endLineno)
  | .other => none

theorem Node.definitionAt_eq {root node : Node} {path : Path} {d : Definition} (h : root.at path = some node)
    (hd : node.shape = .definition d) : root.definitionAt path = some d := by
  unfold Node.definitionAt
  rw [h]
  simp [hd]

theorem Node.definitionAt_some {root : Node} {path : Path} {d : Definition} (h : root.definitionAt path = some d) :
    ∃ node, root.at path = some node ∧ node.shape = .definition d := by
  obtain ⟨node, hat, hd⟩ := Option.bind_eq_some_iff.1 h
  refine ⟨node, hat, ?_⟩
  split at hd
  · rename_i e he
    rw [he, Option.some.inj hd]
  · cases hd

/-! ### Scopes -/

/-- Symbol `i` is the scope, or a scope around it. -/
inductive Encloses (symbols : List Symbol) : Option Nat → Nat → Prop
  | self (i : Nat) : Encloses symbols (some i) i
  | up {k i : Nat} {s : Symbol} (hs : symbols[k]? = some s) (h : Encloses symbols s.parent i) :
      Encloses symbols (some k) i

variable {symbols more : List Symbol}

theorem getElem?_append_some {α : Type} {xs ys : List α} {i : Nat} {x : α} (h : xs[i]? = some x) :
    (xs ++ ys)[i]? = some x := by
  rw [List.getElem?_append_left (List.getElem?_eq_some_iff.1 h).1, h]

theorem Encloses.append {scope : Option Nat} {i : Nat} (h : Encloses symbols scope i) :
    Encloses (symbols ++ more) scope i := by
  induction h with
  | self i => exact .self i
  | up hs _ ih => exact .up (getElem?_append_some hs) ih

/-- A scope holds some symbol directly, on the way to what it encloses. -/
theorem Encloses.direct {k i : Nat} {s : Symbol} (hs : symbols[k]? = some s) (h : Encloses symbols s.parent i) :
    ∃ j t, symbols[j]? = some t ∧ t.parent = some i ∧ (j = k ∨ Encloses symbols s.parent j) := by
  generalize hscope : s.parent = scope at h
  induction h generalizing k s with
  | self i => exact ⟨k, s, hs, hscope, .inl rfl⟩
  | @up l i u hu h ih =>
    obtain ⟨j, t, ht, hparent, h⟩ := ih hu rfl
    refine ⟨j, t, ht, hparent, .inr ?_⟩
    rcases h with rfl | h
    · exact .self _
    · exact .up hu h

/-- The scopes found going up are those that enclose. -/
theorem mem_ancestors (hbefore : ∀ (i : Nat) (s : Symbol) (p : Nat), symbols[i]? = some s → s.parent = some p → p < i)
    {a : Symbol} (fuel : Nat) (scope : Option Nat) (hscope : ∀ p, scope = some p → p < fuel) :
    a ∈ ancestors symbols fuel scope ↔ ∃ k, Encloses symbols scope k ∧ symbols[k]? = some a := by
  induction fuel generalizing scope with
  | zero =>
    match scope with
    | none => exact ⟨fun h => (List.not_mem_nil h).elim, fun ⟨k, h, _⟩ => nomatch h⟩
    | some p => exact (Nat.not_lt_zero p (hscope p rfl)).elim
  | succ fuel ih =>
    match scope with
    | none => exact ⟨fun h => (List.not_mem_nil h).elim, fun ⟨k, h, _⟩ => nomatch h⟩
    | some p =>
      cases hs : symbols[p]? with
      | none =>
        simp only [ancestors, hs]
        refine ⟨fun h => (List.not_mem_nil h).elim, ?_⟩
        rintro ⟨k, h, hk⟩
        cases h with
        | self => rw [hs] at hk; cases hk
        | up hs' _ => rw [hs] at hs'; cases hs'
      | some s =>
        have hp := hscope p rfl
        have hrec := ih s.parent fun q hq => by
          have := hbefore p s q hs hq
          omega
        simp only [ancestors, hs, List.mem_cons, hrec]
        constructor
        · rintro (rfl | ⟨k, h, hk⟩)
          · exact ⟨p, .self p, hs⟩
          · exact ⟨k, .up hs h, hk⟩
        · rintro ⟨k, h, hk⟩
          cases h with
          | self => exact .inl (Option.some.inj (hk.symm.trans hs))
          | up hs' h =>
            obtain rfl : s = _ := Option.some.inj (hs.symm.trans hs')
            exact .inr ⟨k, h, hk⟩

/-! ### The walk -/

/-- A symbol and the place of its node. -/
abbrev Placed := Symbol × Path

def symbolsOf (rows : List Placed) : List Symbol := rows.map Prod.fst

variable {root : Node} {rows : List Placed}

theorem symbolsOf_getElem? {k : Nat} {t : Symbol} (h : (symbolsOf rows)[k]? = some t) :
    ∃ p, rows[k]? = some (t, p) := by
  rw [symbolsOf, List.getElem?_map] at h
  obtain ⟨r, hr, rfl⟩ := Option.map_eq_some_iff.1 h
  exact ⟨r.2, hr⟩

/-- The definitions around a place are scopes around the scope. -/
def ScopeOf (rows : List Placed) (scope : Option Nat) (path : Path) : Prop :=
  ∀ k t p, rows[k]? = some (t, p) → isDefinition t = true → p <+: path → p ≠ path →
    Encloses (symbolsOf rows) scope k

/-- The scope is a definition. -/
def Held (rows : List Placed) (scope : Option Nat) : Prop :=
  ∀ p, scope = some p → ∃ t, (symbolsOf rows)[p]? = some t ∧ isDefinition t = true

/-- What the walk knows of a symbol and its place. -/
structure Made (root : Node) (rows : List Placed) (i : Nat) (s : Symbol) (path : Path) : Prop where
  scope : ScopeOf rows s.parent path
  before : ∀ p, s.parent = some p → p < i
  held : Held rows s.parent
  member : isDefinition s = true → InClass (symbolsOf rows) s.parent → s.kind = "class" ∨ s.kind = "method"
  lines : ∃ node, root.at path = some node ∧ node.shape.lines = some (s.startLine, s.endLine)
  definition : isDefinition s = true → ∃ d, root.definitionAt path = some d ∧ s.name = d.name

/-- What the walk knows of a node still to visit. -/
structure Pending (root : Node) (rows : List Placed) (item : Node × Option Nat) (path : Path) : Prop where
  at_ : root.at path = some item.1
  scope : ScopeOf rows item.2 path
  held : Held rows item.2

structure Walked (root : Node) (stack : List (Node × Option Nat)) (paths : List Path) (rows : List Placed) :
    Prop where
  pending : List.Forall₂ (Pending root rows) stack paths
  apart : paths.Pairwise Apart
  fresh : ∀ p ∈ paths, ∀ r ∈ rows, ¬ p <+: r.2
  made : ∀ (i : Nat) (s : Symbol) (p : Path), rows[i]? = some (s, p) → Made root rows i s p
  once : ∀ (i j : Nat) (s t : Symbol) (p : Path), rows[i]? = some (s, p) → rows[j]? = some (t, p) →
    isDefinition s = true → isDefinition t = true → i = j

theorem Walked.start (root : Node) : Walked root [(root, none)] [[]] [] where
  pending := .cons ⟨rfl, fun k t p h => by simp at h, fun p h => by cases h⟩ .nil
  apart := List.pairwise_singleton _ _
  fresh := fun p _ r hr => by cases hr
  made := fun i s p h => by simp at h
  once := fun i j s t p h => by simp at h

/-- What visiting a node adds, and the scope of its children. -/
structure Visit (node : Node) (symbols : List Symbol) (scope scope' : Option Nat) (new : List Symbol) : Prop where
  parent : ∀ s ∈ new, s.parent = scope
  lines : ∀ s ∈ new, node.shape.lines = some (s.startLine, s.endLine)
  scopes : (∃ s d, new = [s] ∧ isDefinition s = true ∧ node.shape = .definition d ∧ s.name = d.name ∧
      scope' = some symbols.length ∧ (InClass symbols scope → s.kind = "class" ∨ s.kind = "method")) ∨
    (∀ s ∈ new, isDefinition s = false) ∧ scope' = scope

theorem addNames_plain {parent scope scope' : Option Nat} {base : Symbol} {names : List (Text × String)}
    {symbols symbols' : List Symbol} (hplain : ∀ n ∈ names, n.2 = "import" ∨ n.2 = "variable")
    (h : addNames parent base names symbols scope = some (symbols', scope')) :
    scope' = scope ∧ ∃ new, symbols' = symbols ++ new ∧ ∀ s ∈ new, isDefinition s = false ∧
      s.parent = base.parent ∧ s.startLine = base.startLine ∧ s.endLine = base.endLine := by
  induction names generalizing symbols scope with
  | nil =>
    simp only [addNames, Option.some.injEq, Prod.mk.injEq] at h
    exact ⟨h.2.symm, [], by rw [h.1, List.append_nil], List.forall_mem_nil _⟩
  | cons n names ih =>
    obtain ⟨name, kind⟩ := n
    obtain ⟨hkind, hplain⟩ := List.forall_mem_cons.1 hplain
    simp only [addNames] at h
    split at h
    · cases h
    · have hscope : ¬ (kind = "class" ∨ kind = "function" ∨ kind = "method") := by
        rcases hkind with rfl | rfl <;> decide
      rw [if_neg hscope] at h
      obtain ⟨hs, new, rfl, hnew⟩ := ih hplain h
      refine ⟨hs, _ :: new, (List.append_assoc _ _ _), List.forall_mem_cons.2 ⟨⟨?_, rfl, rfl, rfl⟩, hnew⟩⟩
      rcases hkind with rfl | rfl <;> rfl

theorem visit_of_addNames {node : Node} {scope scope' : Option Nat} {symbols symbols' : List Symbol}
    (h : addNames scope (blank scope node.shape) (names symbols scope node.shape) symbols scope =
      some (symbols', scope')) : ∃ new, symbols' = symbols ++ new ∧ Visit node symbols scope scope' new := by
  cases hshape : node.shape with
  | definition d =>
    simp only [hshape, names, addNames] at h
    split at h
    · cases h
    · obtain ⟨rfl, rfl⟩ := Prod.mk.inj (Option.some.inj h)
      refine ⟨[_], rfl, List.forall_mem_singleton.2 rfl, List.forall_mem_singleton.2 (by rw [hshape]; rfl),
        .inl ⟨_, d, rfl, ?_, hshape, rfl, ?_, fun hin => ?_⟩⟩
      · simp only [isDefinition]
        grind
      · rw [if_pos (by grind)]
      · dsimp only
        rw [if_pos hin]
        grind
  | imports ns lineno endLineno =>
    rw [hshape] at h
    obtain ⟨hs, new, rfl, hnew⟩ := addNames_plain (fun n hn => by
      obtain ⟨m, -, rfl⟩ := List.mem_map.1 hn
      exact .inl rfl) h
    refine ⟨new, rfl, fun s hs' => (hnew s hs').2.1, fun s hs' => ?_, .inr ⟨fun s hs' => (hnew s hs').1, hs⟩⟩
    rw [hshape, (hnew s hs').2.2.1, (hnew s hs').2.2.2]
    rfl
  | assign targets lineno endLineno =>
    rw [hshape] at h
    obtain ⟨hs, new, rfl, hnew⟩ := addNames_plain (fun n hn => by
      simp only [names] at hn
      split at hn
      · obtain ⟨m, -, rfl⟩ := List.mem_map.1 hn
        exact .inr rfl
      · cases hn) h
    refine ⟨new, rfl, fun s hs' => (hnew s hs').2.1, fun s hs' => ?_, .inr ⟨fun s hs' => (hnew s hs').1, hs⟩⟩
    rw [hshape, (hnew s hs').2.2.1, (hnew s hs').2.2.2]
    rfl
  | other =>
    rw [hshape] at h
    simp only [names, addNames, Option.some.injEq, Prod.mk.injEq] at h
    exact ⟨[], by rw [h.1, List.append_nil], List.forall_mem_nil _, List.forall_mem_nil _,
      .inr ⟨List.forall_mem_nil _, h.2.symm⟩⟩

/-! ### One visit -/

/-- The rows with the symbols of the node at `path`. -/
def placedAt (rows : List Placed) (path : Path) (new : List Symbol) : List Placed := rows ++ new.map (·, path)

variable {path : Path} {new : List Symbol} {scope scope' : Option Nat}

theorem symbolsOf_placedAt : symbolsOf (placedAt rows path new) = symbolsOf rows ++ new := by
  simp [symbolsOf, placedAt, Function.comp_def]

theorem placedAt_getElem? {k : Nat} {t : Symbol} {p : Path} (h : (placedAt rows path new)[k]? = some (t, p)) :
    rows[k]? = some (t, p) ∨ new[k - rows.length]? = some t ∧ rows.length ≤ k ∧ p = path := by
  unfold placedAt at h
  rcases Nat.lt_or_ge k rows.length with hk | hk
  · rw [List.getElem?_append_left hk] at h
    exact .inl h
  · rw [List.getElem?_append_right hk, List.getElem?_map] at h
    obtain ⟨u, hu, he⟩ := Option.map_eq_some_iff.1 h
    obtain ⟨rfl, rfl⟩ := Prod.mk.inj he
    exact .inr ⟨hu, hk, rfl⟩

/-- New symbols change nothing for a place that is not below theirs. -/
theorem ScopeOf.placedAt {q : Path} (h : ScopeOf rows scope q) (hq : path <+: q → path = q) :
    ScopeOf (placedAt rows path new) scope q := by
  intro k t p hk ht hpre hne
  rw [symbolsOf_placedAt]
  rcases placedAt_getElem? hk with hk | ⟨-, -, rfl⟩
  · exact (h k t p hk ht hpre hne).append
  · exact (hne (hq hpre)).elim

theorem Held.placedAt (h : Held rows scope) : Held (placedAt rows path new) scope := by
  intro p hp
  obtain ⟨t, ht, hdef⟩ := h p hp
  exact ⟨t, by rw [symbolsOf_placedAt]; exact getElem?_append_some ht, hdef⟩

theorem inClass_placedAt (h : Held rows scope) (hin : InClass (symbolsOf (placedAt rows path new)) scope) :
    InClass (symbolsOf rows) scope := by
  obtain ⟨p, s, hp, hs, hkind⟩ := hin
  obtain ⟨t, ht, -⟩ := h p hp
  rw [symbolsOf_placedAt, getElem?_append_some ht] at hs
  exact ⟨p, s, hp, ht.trans hs, hkind⟩

theorem Made.placedAt {i : Nat} {s : Symbol} {q : Path} (h : Made root rows i s q) (hq : ¬ path <+: q) :
    Made root (placedAt rows path new) i s q where
  scope := h.scope.placedAt fun hpre => (hq hpre).elim
  before := h.before
  held := h.held.placedAt
  member := fun hdef hin => h.member hdef (inClass_placedAt h.held hin)
  lines := h.lines
  definition := h.definition

theorem Pending.placedAt {item : Node × Option Nat} {q : Path} (h : Pending root rows item q) (hq : ¬ path <+: q) :
    Pending root (placedAt rows path new) item q where
  at_ := h.at_
  scope := h.scope.placedAt fun hpre => (hq hpre).elim
  held := h.held.placedAt

variable {node : Node}

/-- The symbols of a node, at its place. -/
theorem Visit.made (hv : Visit node (symbolsOf rows) scope scope' new) (h : Pending root rows (node, scope) path)
    {k : Nat} {t : Symbol} (ht : new[k - rows.length]? = some t) (hk : rows.length ≤ k) :
    Made root (placedAt rows path new) k t path := by
  have hmem : t ∈ new := List.mem_of_getElem? ht
  have hparent : t.parent = scope := hv.parent t hmem
  have hheld : Held rows t.parent := hparent ▸ h.held
  refine ⟨?_, fun p hp => ?_, hheld.placedAt, fun hdef hin => ?_, ⟨node, h.at_, hv.lines t hmem⟩, fun hdef => ?_⟩
  · rw [hparent]
    exact h.scope.placedAt fun _ => rfl
  · obtain ⟨u, hu, -⟩ := hheld p hp
    have hlt := (List.getElem?_eq_some_iff.1 hu).1
    have hlen : (symbolsOf rows).length = rows.length := List.length_map _
    omega
  · rcases hv.scopes with ⟨s, d, rfl, -, -, -, -, hclass⟩ | ⟨hplain, -⟩
    · rw [List.mem_singleton.1 hmem] at hin ⊢
      rw [hv.parent s List.mem_cons_self] at hin
      exact hclass (inClass_placedAt h.held hin)
    · rw [hplain t hmem] at hdef
      cases hdef
  · rcases hv.scopes with ⟨s, d, rfl, -, hshape, hname, -⟩ | ⟨hplain, -⟩
    · exact ⟨d, Node.definitionAt_eq h.at_ hshape, List.mem_singleton.1 hmem ▸ hname⟩
    · rw [hplain t hmem] at hdef
      cases hdef

/-- A child of a node visited: the scope of the children is around it. -/
theorem Visit.pending (hv : Visit node (symbolsOf rows) scope scope' new)
    (h : Pending root rows (node, scope) path) (hfresh : ∀ r ∈ rows, ¬ path <+: r.2) {child : Node} {c : Nat}
    (hc : node.children[c]? = some child) :
    Pending root (placedAt rows path new) (child, scope') (path ++ [c]) := by
  have hlen : (symbolsOf rows).length = rows.length := List.length_map _
  -- what is around the child and was there before is around the node
  have hold : ∀ k t p, rows[k]? = some (t, p) → isDefinition t = true → p <+: path ++ [c] → p ≠ path ++ [c] →
      Encloses (symbolsOf rows) scope k := by
    intro k t p hk ht hpre hne
    refine h.scope k t p hk ht ((List.prefix_concat_iff.1 hpre).resolve_left hne) ?_
    rintro rfl
    exact hfresh _ (List.mem_of_getElem? hk) (List.prefix_refl _)
  refine ⟨(Node.at_concat h.at_ c).trans hc, fun k t p hk ht hpre hne => ?_, ?_⟩
  · rw [symbolsOf_placedAt]
    rcases hv.scopes with ⟨s, d, rfl, hdef, hshape, -, rfl, -⟩ | ⟨hplain, rfl⟩
    · rw [hlen]
      rcases placedAt_getElem? hk with hk | ⟨hnew, hle, -⟩
      · have hs : (symbolsOf rows ++ [s])[rows.length]? = some s := by rw [← hlen]; simp
        refine .up hs ?_
        rw [hv.parent s List.mem_cons_self]
        exact (hold k t p hk ht hpre hne).append
      · have hlt := (List.getElem?_eq_some_iff.1 hnew).1
        rw [List.length_singleton] at hlt
        obtain rfl : k = rows.length := by omega
        exact .self _
    · rcases placedAt_getElem? hk with hk | ⟨hnew, -, -⟩
      · exact (hold k t p hk ht hpre hne).append
      · rw [hplain t (List.mem_of_getElem? hnew)] at ht
        cases ht
  · rcases hv.scopes with ⟨s, d, rfl, hdef, -, -, rfl, -⟩ | ⟨-, rfl⟩
    · intro p hp
      obtain rfl := Option.some.inj hp
      exact ⟨s, by rw [symbolsOf_placedAt]; simp, hdef⟩
    · exact h.held.placedAt

/-- The places of the children of a node. -/
def childPaths (node : Node) (path : Path) : List Path := (List.range node.children.length).map (path ++ [·])

theorem Walked.visit {stack : List (Node × Option Nat)} {paths : List Path}
    (h : Walked root ((node, scope) :: stack) (path :: paths) rows)
    (hv : Visit node (symbolsOf rows) scope scope' new) :
    Walked root (node.children.map (·, scope') ++ stack) (childPaths node path ++ paths) (placedAt rows path new) := by
  obtain ⟨hhead, hpending⟩ := List.forall₂_cons.1 h.pending
  obtain ⟨hapart, hpairs⟩ := List.pairwise_cons.1 h.apart
  have hfresh := h.fresh path List.mem_cons_self
  have hnew : ∀ r ∈ placedAt rows path new, r ∈ rows ∨ r.2 = path := by
    intro r hr
    refine (List.mem_append.1 hr).imp_right fun hr => ?_
    obtain ⟨s, -, rfl⟩ := List.mem_map.1 hr
    rfl
  refine ⟨List.rel_append ?_ ?_, List.pairwise_append.2 ⟨?_, hpairs, ?_⟩, ?_, fun i s p hi => ?_,
    fun i j s t p hi hj hs ht => ?_⟩
  · refine List.forall₂_map_left_iff.2 (List.forall₂_map_right_iff.2 (List.forall₂_iff_get.2 ⟨by simp, ?_⟩))
    intro c hc hc'
    rw [List.get_eq_getElem, List.get_eq_getElem, List.getElem_range]
    exact hv.pending hhead hfresh (List.getElem?_eq_getElem hc)
  · refine List.forall₂_iff_get.2 ⟨hpending.length_eq, fun i hi hi' => ?_⟩
    exact (List.forall₂_iff_get.1 hpending).2 i hi hi' |>.placedAt (hapart _ (List.get_mem _ _)).1
  · refine List.pairwise_map.2 (List.pairwise_lt_range.imp fun hlt => apart_children path hlt.ne)
  · intro p hp q hq
    obtain ⟨c, -, rfl⟩ := List.mem_map.1 hp
    exact (hapart q hq).child c
  · intro p hp r hr hpre
    rcases List.mem_append.1 hp with hp | hp
    · obtain ⟨c, -, rfl⟩ := List.mem_map.1 hp
      have hpath : path <+: r.2 := (List.prefix_append path [c]).trans hpre
      rcases hnew r hr with hr | hr
      · exact hfresh r hr hpath
      · have := hpre.length_le
        rw [hr, List.length_append, List.length_singleton] at this
        omega
    · rcases hnew r hr with hr | hr
      · exact h.fresh p (List.mem_cons_of_mem _ hp) r hr hpre
      · exact (hapart p hp).2 (hr ▸ hpre)
  · rcases placedAt_getElem? hi with hold | ⟨hnew', hle, rfl⟩
    · exact (h.made i s p hold).placedAt (hfresh _ (List.mem_of_getElem? hold))
    · exact hv.made hhead hnew' hle
  · rcases placedAt_getElem? hi with hold | ⟨hnew', hle, rfl⟩
    · rcases placedAt_getElem? hj with hold' | ⟨-, -, rfl⟩
      · exact h.once i j s t p hold hold' hs ht
      · exact (hfresh _ (List.mem_of_getElem? hold) (List.prefix_refl _)).elim
    · rcases placedAt_getElem? hj with hold' | ⟨hnew'', hle', -⟩
      · exact (hfresh _ (List.mem_of_getElem? hold') (List.prefix_refl _)).elim
      · rcases hv.scopes with ⟨u, d, rfl, -⟩ | ⟨hplain, -⟩
        · have h1 := (List.getElem?_eq_some_iff.1 hnew').1
          have h2 := (List.getElem?_eq_some_iff.1 hnew'').1
          rw [List.length_singleton] at h1 h2
          omega
        · rw [hplain s (List.mem_of_getElem? hnew')] at hs
          cases hs

/-- The walk without a diagnostic has visited every node it saw. -/
theorem walk_walked {fuel : Nat} {stack : List (Node × Option Nat)} {symbols : List Symbol} {paths : List Path}
    {parsed : Parsed} (hsymbols : symbolsOf rows = symbols) (h : Walked root stack paths rows)
    (hwalk : walk fuel stack symbols = parsed) (hd : parsed.diagnostic = none) :
    ∃ rows', symbolsOf rows' = parsed.symbols ∧ Walked root [] [] rows' := by
  induction fuel generalizing stack symbols paths rows with
  | zero =>
    match stack with
    | [] =>
      obtain rfl := List.forall₂_nil_left_iff.1 h.pending
      rw [walk] at hwalk
      exact ⟨rows, hwalk ▸ hsymbols, h⟩
    | _ :: _ =>
      rw [← hwalk] at hd
      cases hd
  | succ fuel ih =>
    match stack with
    | [] =>
      obtain rfl := List.forall₂_nil_left_iff.1 h.pending
      rw [walk] at hwalk
      exact ⟨rows, hwalk ▸ hsymbols, h⟩
    | (node, scope) :: stack =>
      obtain ⟨path, paths, -, -, rfl⟩ := List.forall₂_cons_left_iff.1 h.pending
      simp only [walk] at hwalk
      split at hwalk
      · rw [← hwalk] at hd
        cases hd
      · rename_i symbols' scope' hadd
        obtain ⟨new, rfl, hv⟩ := visit_of_addNames hadd
        refine ih ?_ (h.visit (hsymbols ▸ hv)) hwalk
        rw [symbolsOf_placedAt, hsymbols]

end Parser
end RepoPilot
