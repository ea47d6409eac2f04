import RepoPilot.Scopes

/-! # The list of symbols

The walk visits the tree in pre-order, which is the lexicographic order of places. `Listed`: what is listed comes
before what is still to visit, a definition is listed or lies below a node still to visit, and a scope is the
definition nearest around its place. -/

namespace RepoPilot
namespace Parser
open Source

/-! ### Pre-order -/

theorem lt_child (p : Path) (c : Nat) : p < p ++ [c] := by
  have h : p ++ [] < p ++ [c] := List.append_left_lt (by simp)
  rwa [List.append_nil] at h

theorem child_lt_child (p : Path) {c d : Nat} (h : c < d) : p ++ [c] < p ++ [d] :=
  List.append_left_lt (List.Lex.rel h)

/-- What comes after a node and does not lie below it comes after all that does. -/
theorem below_lt {p q : Path} (h : p < q) (hpre : ¬ p <+: q) (s : Path) : p ++ s < q := by
  induction h with
  | nil => exact absurd (List.nil_prefix) hpre
  | rel hlt => exact List.Lex.rel hlt
  | cons _ ih =>
    rw [List.cons_prefix_cons] at hpre
    exact List.Lex.cons (ih fun h => hpre ⟨rfl, h⟩)

theorem Node.at_append (root : Node) (p q : Path) : root.at (p ++ q) = (root.at p).bind (·.at q) := by
  induction p generalizing root with
  | nil => rfl
  | cons i p ih =>
    show (root.children[i]?).bind (·.at (p ++ q)) = ((root.children[i]?).bind (·.at p)).bind (·.at q)
    cases root.children[i]? with
    | none => rfl
    | some child => exact ih child

/-- Below a node is the node, or what is below one of its children. -/
theorem Node.exists_child {root node other : Node} {p q : Path} (hp : root.at p = some node)
    (hq : root.at q = some other) (hpre : p <+: q) (hne : p ≠ q) :
    ∃ c, c < node.children.length ∧ p ++ [c] <+: q := by
  obtain ⟨s, rfl⟩ := hpre
  cases s with
  | nil => exact absurd (List.append_nil p).symm hne
  | cons c s =>
    refine ⟨c, ?_, s, by rw [List.append_assoc]; rfl⟩
    rw [Node.at_append, hp] at hq
    obtain ⟨child, hchild, -⟩ := Option.bind_eq_some_iff.1 (show (node.children[c]?).bind (·.at s) = _ from hq)
    exact (List.getElem?_eq_some_iff.1 hchild).1

/-! ### The number of nodes -/

mutual
/-- The number of nodes of a tree. -/
def Node.size : Node → Nat
  | .mk _ children => sizes children + 1

def sizes : List Node → Nat
  | [] => 0
  | node :: nodes => node.size + sizes nodes
end

theorem sizes_append (xs ys : List Node) : sizes (xs ++ ys) = sizes xs + sizes ys := by
  induction xs with
  | nil => exact (Nat.zero_add _).symm
  | cons x xs ih =>
    show x.size + sizes (xs ++ ys) = x.size + sizes xs + sizes ys
    rw [ih, Nat.add_assoc]

theorem Node.size_eq (node : Node) : node.size = sizes node.children + 1 := by
  cases node
  rfl

/-- A walk without a diagnostic had visits enough for every node. -/
theorem walk_size {fuel : Nat} {stack : List (Node × Option Nat)} {symbols : List Symbol}
    (h : (walk fuel stack symbols).diagnostic = none) : sizes (stack.map Prod.fst) ≤ fuel := by
  induction fuel generalizing stack symbols with
  | zero =>
    cases stack with
    | nil => exact Nat.le_refl 0
    | cons item stack => cases h
  | succ fuel ih =>
    cases stack with
    | nil => exact Nat.zero_le _
    | cons item stack =>
      obtain ⟨node, scope⟩ := item
      simp only [walk] at h
      split at h
      · cases h
      · rename_i symbols' scope' _
        have hrest := ih h
        have hchildren : (node.children.map (·, scope')).map Prod.fst = node.children := by simp [Function.comp_def]
        rw [List.map_append, hchildren, sizes_append] at hrest
        show node.size + sizes (stack.map Prod.fst) ≤ fuel + 1
        rw [Node.size_eq]
        omega

/-- With a diagnostic there are no symbols. -/
theorem walk_diagnostic {fuel : Nat} {stack : List (Node × Option Nat)} {symbols : List Symbol}
    (h : (walk fuel stack symbols).diagnostic ≠ none) : (walk fuel stack symbols).symbols = [] := by
  induction fuel generalizing stack symbols with
  | zero =>
    cases stack with
    | nil => exact absurd rfl h
    | cons item stack => rfl
  | succ fuel ih =>
    cases stack with
    | nil => exact absurd rfl h
    | cons item stack =>
      obtain ⟨node, scope⟩ := item
      simp only [walk] at h ⊢
      split at h
      · rfl
      · exact ih h

/-! ### What a visit lists -/

variable {symbols more new : List Symbol} {parent scope scope' : Option Nat} {node root : Node}

theorem inClass_append (h : ∀ p, parent = some p → p < symbols.length) :
    InClass (symbols ++ more) parent ↔ InClass symbols parent := by
  constructor
  · rintro ⟨p, s, hp, hs, hkind⟩
    rw [List.getElem?_append_left (h p hp)] at hs
    exact ⟨p, s, hp, hs, hkind⟩
  · rintro ⟨p, s, hp, hs, hkind⟩
    exact ⟨p, s, hp, getElem?_append_some hs, hkind⟩

theorem names_append (h : ∀ p, parent = some p → p < symbols.length) (shape : Shape) :
    names (symbols ++ more) parent shape = names symbols parent shape := by
  cases shape <;> simp only [names, inClass_append h]

theorem scopePrefix_append (h : ∀ p, parent = some p → p < symbols.length) :
    scopePrefix (symbols ++ more) parent = scopePrefix symbols parent := by
  cases parent with
  | none => rfl
  | some p =>
    unfold scopePrefix
    dsimp only
    rw [List.getElem?_append_left (h p rfl)]

/-- The symbols a visit adds are the names of the node, in order. -/
structure Entries (node : Node) (symbols : List Symbol) (scope : Option Nat) (new : List Symbol) : Prop where
  names : new.map (fun s => (s.name, s.kind)) = names symbols scope node.shape
  qualified : ∀ s ∈ new, s.qualifiedName = scopePrefix symbols scope ++ s.name
  short : ∀ s ∈ new, s.name.length ≤ 512 ∧ s.qualifiedName.length ≤ 2048

theorem addNames_entries {base : Symbol} {list : List (Text × String)} {symbols' : List Symbol}
    (hparent : ∀ p, parent = some p → p < symbols.length)
    (h : addNames parent base list symbols scope = some (symbols', scope')) :
    ∃ new, symbols' = symbols ++ new ∧ new.map (fun s => (s.name, s.kind)) = list ∧ ∀ s ∈ new,
      s.qualifiedName = scopePrefix symbols parent ++ s.name ∧ s.name.length ≤ 512 ∧ s.qualifiedName.length ≤ 2048 := by
  induction list generalizing symbols scope with
  | nil =>
    simp only [addNames, Option.some.injEq, Prod.mk.injEq] at h
    exact ⟨[], by rw [h.1, List.append_nil], rfl, List.forall_mem_nil _⟩
  | cons n list ih =>
    obtain ⟨name, kind⟩ := n
    simp only [addNames] at h
    split at h
    · cases h
    · rename_i hshort
      rw [not_or, Nat.not_lt, Nat.not_lt] at hshort
      have hparent' : ∀ (s : Symbol) (p : Nat), parent = some p → p < (symbols ++ [s]).length := fun s p hp => by
        rw [List.length_append]
        exact Nat.lt_add_right _ (hparent p hp)
      obtain ⟨new, rfl, hnames, hnew⟩ := ih (hparent' _) h
      refine ⟨_ :: new, List.append_assoc _ _ _, ?_, List.forall_mem_cons.2 ⟨⟨rfl, hshort⟩, fun s hs => ?_⟩⟩
      · rw [List.map_cons, hnames]
      · rw [← scopePrefix_append hparent]
        exact hnew s hs

theorem entries_of_addNames (hscope : ∀ p, scope = some p → p < symbols.length)
    (h : addNames scope (blank scope node.shape) (Parser.names symbols scope node.shape) symbols scope =
      some (symbols ++ new, scope')) : Entries node symbols scope new := by
  obtain ⟨new', happend, hnames, hnew⟩ := addNames_entries hscope h
  obtain rfl := List.append_cancel_left happend
  exact ⟨hnames, fun s hs => (hnew s hs).1, fun s hs => (hnew s hs).2⟩

/-! ### The nearest definition -/

/-- `q` is the place of the definition nearest around `path`. -/
structure Nearest (root : Node) (path q : Path) (d : Definition) : Prop where
  found : root.definitionAt q = some d
  around : q <+: path
  proper : q ≠ path
  innermost : ∀ q' d', root.definitionAt q' = some d' → q' <+: path → q' ≠ path → q' <+: q

/-- The scope is listed at the definition nearest around the place; without a scope there is none. -/
def Innermost (root : Node) (rows : List Placed) (path : Path) : Option Nat → Prop
  | none => ∀ q d, root.definitionAt q = some d → q <+: path → q = path
  | some k => ∃ t q d, rows[k]? = some (t, q) ∧ isDefinition t = true ∧ Nearest root path q d

/-- What is known of a symbol listed for the node at `path`. -/
structure Entry (root : Node) (rows : List Placed) (s : Symbol) (path : Path) : Prop where
  innermost : Innermost root rows path s.parent
  named : ∃ node, root.at path = some node ∧ (s.name, s.kind) ∈ names (symbolsOf rows) s.parent node.shape
  qualified : s.qualifiedName = scopePrefix (symbolsOf rows) s.parent ++ s.name
  short : s.name.length ≤ 512 ∧ s.qualifiedName.length ≤ 2048

variable {rows : List Placed} {path q q' : Path} {d d' : Definition} {s : Symbol}

theorem Nearest.unique (h : Nearest root path q d) (h' : Nearest root path q' d') : q = q' ∧ d = d' := by
  have hq := h'.innermost q d h.found h.around h.proper
  have hq' := h.innermost q' d' h'.found h'.around h'.proper
  obtain rfl := hq.eq_of_length_le hq'.length_le
  exact ⟨rfl, Option.some.inj (h.found.symm.trans h'.found)⟩

namespace Innermost

theorem lt (h : Innermost root rows path scope) : ∀ p, scope = some p → p < (symbolsOf rows).length := by
  rintro p rfl
  obtain ⟨t, q, d, hk, -⟩ := h
  rw [symbolsOf, List.length_map]
  exact (List.getElem?_eq_some_iff.1 hk).1

theorem placedAt {p : Path} (h : Innermost root rows p scope) : Innermost root (placedAt rows path new) p scope := by
  cases scope with
  | none => exact h
  | some k =>
    obtain ⟨t, q, d, hk, hrest⟩ := h
    exact ⟨t, q, d, getElem?_append_some hk, hrest⟩

/-- The children of what is not a definition have its scope. -/
theorem child (h : Innermost root rows path scope) (hnot : root.definitionAt path = none) (c : Nat) :
    Innermost root rows (path ++ [c]) scope := by
  have hproper : ∀ {q d}, root.definitionAt q = some d → q <+: path ++ [c] → q ≠ path ++ [c] → q <+: path ∧ q ≠ path := by
    intro q d hq hpre hne
    refine ⟨(List.prefix_concat_iff.1 hpre).resolve_left hne, ?_⟩
    rintro rfl
    rw [hnot] at hq
    cases hq
  cases scope with
  | none =>
    intro q d hq hpre
    by_contra hne
    obtain ⟨hpath, hpne⟩ := hproper hq hpre hne
    exact hpne (h q d hq hpath)
  | some k =>
    obtain ⟨t, q, d, hk, ht, hn⟩ := h
    refine ⟨t, q, d, hk, ht, hn.found, hn.around.trans (List.prefix_append _ _), ?_, fun q' d' hq' hpre hne => ?_⟩
    · rintro rfl
      have := hn.around.length_le
      rw [List.length_append, List.length_singleton] at this
      omega
    · obtain ⟨hpath, hpne⟩ := hproper hq' hpre hne
      exact hn.innermost q' d' hq' hpath hpne

end Innermost

/-- Around the children of a definition it is the nearest. -/
theorem nearest_child (h : root.definitionAt path = some d) (c : Nat) : Nearest root (path ++ [c]) path d where
  found := h
  around := List.prefix_append _ _
  proper := fun he => by
    have := congrArg List.length he
    rw [List.length_append, List.length_singleton] at this
    omega
  innermost := fun _ _ _ hpre hne => (List.prefix_concat_iff.1 hpre).resolve_left hne

theorem Entry.placedAt {p : Path} (h : Entry root rows s p) : Entry root (placedAt rows path new) s p where
  innermost := h.innermost.placedAt
  named := by
    obtain ⟨node, hat, hmem⟩ := h.named
    refine ⟨node, hat, ?_⟩
    rwa [symbolsOf_placedAt, names_append h.innermost.lt]
  qualified := by
    rw [symbolsOf_placedAt, scopePrefix_append h.innermost.lt]
    exact h.qualified
  short := h.short

theorem Entries.entry (he : Entries node (symbolsOf rows) scope new) (hat : root.at path = some node)
    (hscope : Innermost root rows path scope) (hs : s ∈ new) (hparent : s.parent = scope) :
    Entry root (placedAt rows path new) s path where
  innermost := hparent ▸ hscope.placedAt
  named := by
    refine ⟨node, hat, ?_⟩
    rw [hparent, symbolsOf_placedAt, names_append hscope.lt, ← he.names]
    exact List.mem_map_of_mem hs
  qualified := by
    rw [hparent, symbolsOf_placedAt, scopePrefix_append hscope.lt]
    exact he.qualified s hs
  short := he.short s hs

/-- A definition is listed as one and is the scope of its children; other nodes keep the scope. -/
theorem Visit.cases (hv : Visit node (symbolsOf rows) scope scope' new) (he : Entries node (symbolsOf rows) scope new) :
    (∃ s d, new = [s] ∧ isDefinition s = true ∧ node.shape = .definition d ∧ scope' = some (symbolsOf rows).length) ∨
      (∀ d, node.shape ≠ .definition d) ∧ scope' = scope := by
  rcases hv.scopes with ⟨s, d, hnew, hdef, hshape, -, hscope, -⟩ | ⟨hplain, hscope⟩
  · exact .inl ⟨s, d, hnew, hdef, hshape, hscope⟩
  · refine .inr ⟨fun d hshape => ?_, hscope⟩
    have hnames := he.names
    rw [hshape] at hnames
    obtain ⟨s, rest, rfl, hs, -⟩ := List.map_eq_cons_iff.1 hnames
    have hkind := (Prod.mk.inj hs).2
    have hnot := hplain s List.mem_cons_self
    simp only [isDefinition, decide_eq_false_iff_not] at hnot
    grind

/-! ### The walk -/

/-- What the walk has listed, and what it has still to visit. -/
structure Listed (root : Node) (stack : List (Node × Option Nat)) (paths : List Path) (rows : List Placed) :
    Prop where
  walked : Walked root stack paths rows
  order : rows.Pairwise fun a b => a.2 ≤ b.2
  ahead : ∀ r ∈ rows, ∀ p ∈ paths, r.2 < p
  sorted : paths.Pairwise (· < ·)
  found : ∀ path d, root.definitionAt path = some d → (∃ s, (s, path) ∈ rows) ∨ ∃ q ∈ paths, q <+: path
  scopes : List.Forall₂ (fun item path => Innermost root rows path item.2) stack paths
  entries : ∀ s path, (s, path) ∈ rows → Entry root rows s path

namespace Listed
variable {stack : List (Node × Option Nat)} {paths : List Path}

theorem start (root : Node) : Listed root [(root, none)] [[]] [] where
  walked := .start root
  order := .nil
  ahead := nofun
  sorted := List.pairwise_singleton _ _
  found := fun _ _ _ => .inr ⟨[], List.mem_singleton_self _, List.nil_prefix⟩
  scopes := .cons (fun _ _ _ hpre => List.prefix_nil.1 hpre) .nil
  entries := nofun

theorem visit (h : Listed root ((node, scope) :: stack) (path :: paths) rows)
    (hv : Visit node (symbolsOf rows) scope scope' new) (he : Entries node (symbolsOf rows) scope new) :
    Listed root (node.children.map (·, scope') ++ stack) (childPaths node path ++ paths) (placedAt rows path new) := by
  obtain ⟨hscope, hscopes⟩ := List.forall₂_cons.1 h.scopes
  obtain ⟨hfirst, hsorted⟩ := List.pairwise_cons.1 h.sorted
  have hapart := (List.pairwise_cons.1 h.walked.apart).1
  have hat : root.at path = some node := (List.forall₂_cons.1 h.walked.pending).1.at_
  have hbefore : ∀ r ∈ rows, r.2 < path := fun r hr => h.ahead r hr path List.mem_cons_self
  have hnew : ∀ s p, (s, p) ∈ placedAt rows path new → (s, p) ∈ rows ∨ s ∈ new ∧ p = path := by
    intro s p hr
    refine (List.mem_append.1 hr).imp_right fun hr => ?_
    obtain ⟨t, ht, hst⟩ := List.mem_map.1 hr
    obtain ⟨rfl, rfl⟩ := Prod.mk.inj hst
    exact ⟨ht, rfl⟩
  have hle : ∀ r ∈ placedAt rows path new, r.2 ≤ path := by
    rintro ⟨s, p⟩ hr
    rcases hnew s p hr with hr | ⟨-, rfl⟩
    · exact le_of_lt (hbefore _ hr)
    · exact le_refl _
  have hchild : ∀ p ∈ childPaths node path, ∃ c, c < node.children.length ∧ p = path ++ [c] := by
    intro p hp
    obtain ⟨c, hc, rfl⟩ := List.mem_map.1 hp
    exact ⟨c, List.mem_range.1 hc, rfl⟩
  refine ⟨h.walked.visit hv, ?_, ?_, ?_, ?_, ?_, ?_⟩
  · refine List.pairwise_append.2 ⟨h.order, List.pairwise_map.2 (List.pairwise_of_forall fun _ _ => le_refl path), ?_⟩
    intro a ha b hb
    obtain ⟨t, -, rfl⟩ := List.mem_map.1 hb
    exact le_of_lt (hbefore a ha)
  · intro r hr p hp
    refine lt_of_le_of_lt (hle r hr) ?_
    rcases List.mem_append.1 hp with hp | hp
    · obtain ⟨c, -, rfl⟩ := hchild p hp
      exact lt_child path c
    · exact hfirst p hp
  · refine List.pairwise_append.2 ⟨List.pairwise_map.2 (List.pairwise_lt_range.imp (child_lt_child path)), hsorted, ?_⟩
    intro p hp q hq
    obtain ⟨c, -, rfl⟩ := hchild p hp
    exact below_lt (hfirst q hq) (hapart q hq).1 [c]
  · intro p d hd
    rcases h.found p d hd with ⟨s, hs⟩ | ⟨q, hq, hpre⟩
    · exact .inl ⟨s, List.mem_append_left _ hs⟩
    · rcases List.mem_cons.1 hq with rfl | hq
      · obtain ⟨other, hother, hshape⟩ := Node.definitionAt_some hd
        by_cases hpath : q = p
        · subst hpath
          obtain rfl : node = other := Option.some.inj (hat.symm.trans hother)
          rcases hv.cases he with ⟨s, -, rfl, -⟩ | ⟨hnot, -⟩
          · exact .inl ⟨s, List.mem_append_right _ (List.mem_singleton_self _)⟩
          · exact absurd hshape (hnot d)
        · obtain ⟨c, hc, hbelow⟩ := Node.exists_child hat hother hpre hpath
          exact .inr ⟨q ++ [c], List.mem_append_left _ (List.mem_map.2 ⟨c, List.mem_range.2 hc, rfl⟩), hbelow⟩
      · exact .inr ⟨q, List.mem_append_right _ hq, hpre⟩
  · refine List.rel_append ?_ (hscopes.imp fun _ _ h => h.placedAt)
    refine List.forall₂_map_left_iff.2 (List.forall₂_map_right_iff.2 (List.forall₂_iff_get.2 ⟨by simp, ?_⟩))
    intro c hc hc'
    rw [List.get_eq_getElem, List.get_eq_getElem, List.getElem_range]
    rcases hv.cases he with ⟨s, d, rfl, hdef, hshape, rfl⟩ | ⟨hnot, rfl⟩
    · have hrow : (placedAt rows path [s])[(symbolsOf rows).length]? = some (s, path) := by
        rw [symbolsOf, List.length_map]
        exact List.getElem?_concat_length
      exact ⟨s, path, d, hrow, hdef, nearest_child (Node.definitionAt_eq hat hshape) c⟩
    · refine Innermost.placedAt (hscope.child ?_ c)
      by_contra hsome
      obtain ⟨d, hd⟩ := Option.ne_none_iff_exists'.1 hsome
      obtain ⟨other, hother, hshape⟩ := Node.definitionAt_some hd
      obtain rfl : node = other := Option.some.inj (hat.symm.trans hother)
      exact hnot d hshape
  · intro s p hr
    rcases hnew s p hr with hr | ⟨hs, rfl⟩
    · exact (h.entries s p hr).placedAt
    · exact he.entry hat hscope hs (hv.parent s hs)

end Listed

/-! ### The catalogue -/

theorem walk_listed {fuel : Nat} {stack : List (Node × Option Nat)} {paths : List Path}
    (h : Listed root stack paths rows) (hd : (walk fuel stack (symbolsOf rows)).diagnostic = none) :
    ∃ rows', symbolsOf rows' = (walk fuel stack (symbolsOf rows)).symbols ∧ Listed root [] [] rows' := by
  induction fuel generalizing stack paths rows with
  | zero =>
    cases stack with
    | nil =>
      obtain rfl := List.forall₂_nil_left_iff.1 h.scopes
      exact ⟨rows, by rw [walk], h⟩
    | cons item stack => cases hd
  | succ fuel ih =>
    cases stack with
    | nil =>
      obtain rfl := List.forall₂_nil_left_iff.1 h.scopes
      exact ⟨rows, by rw [walk], h⟩
    | cons item stack =>
      obtain ⟨node, scope⟩ := item
      obtain ⟨path, paths, hscope, -, rfl⟩ := List.forall₂_cons_left_iff.1 h.scopes
      simp only [walk] at hd ⊢
      split at hd
      · cases hd
      · rename_i symbols' scope' hadd
        obtain ⟨new, rfl, hv⟩ := visit_of_addNames hadd
        have he := entries_of_addNames hscope.lt hadd
        have happend : symbolsOf (placedAt rows path new) = symbolsOf rows ++ new := symbolsOf_placedAt
        rw [← happend] at hd ⊢
        exact ih (h.visit hv he) hd

/-- The symbols of a tree: `rows` are the symbols with the places of their nodes. -/
structure Catalogue (root : Node) (rows : List Placed) : Prop where
  /-- Pre-order. -/
  order : rows.Pairwise fun a b => a.2 ≤ b.2
  once : ∀ path d, root.definitionAt path = some d → ∃ (i : Nat) (s : Symbol), rows[i]? = some (s, path) ∧
    isDefinition s = true ∧ s.name = d.name ∧ ∀ (j : Nat) (t : Symbol), rows[j]? = some (t, path) → j = i
  definitions : ∀ s path, (s, path) ∈ rows → isDefinition s = true → ∃ d, root.definitionAt path = some d
  parents : ∀ (i : Nat) (s : Symbol) (path : Path) (k : Nat), rows[i]? = some (s, path) → s.parent = some k → k < i ∧
    ∃ (t : Symbol) (q : Path) (d : Definition), rows[k]? = some (t, q) ∧ isDefinition t = true ∧ Nearest root path q d ∧
      s.qualifiedName = t.qualifiedName ++ '.' :: s.name
  outermost : ∀ s path, (s, path) ∈ rows → s.parent = none → s.qualifiedName = s.name ∧ ∀ q d, ¬ Nearest root path q d
  kinds : ∀ s path d, (s, path) ∈ rows → root.definitionAt path = some d →
    (s.kind = "class" ↔ d.isClass = true) ∧
      (s.kind = "method" ↔ d.isClass = false ∧ ∃ q e, Nearest root path q e ∧ e.isClass = true)
  assigned : ∀ s path, (s, path) ∈ rows → s.kind = "variable" → ∀ q d, Nearest root path q d → d.isClass = true
  short : ∀ s path, (s, path) ∈ rows → s.name.length ≤ 512 ∧ s.qualifiedName.length ≤ 2048

namespace Entry

/-- The symbol of a definition. -/
theorem kind_of_definition (h : Entry root rows s path) (hd : root.definitionAt path = some d) :
    s.name = d.name ∧ s.kind = if d.isClass then "class" else
      if InClass (symbolsOf rows) s.parent then "method" else "function" := by
  obtain ⟨node, hat, hshape⟩ := Node.definitionAt_some hd
  obtain ⟨other, hother, hmem⟩ := h.named
  obtain rfl : node = other := Option.some.inj (hat.symm.trans hother)
  rw [hshape] at hmem
  exact Prod.mk.inj (List.mem_singleton.1 hmem)

theorem class_iff (h : Entry root rows s path) (hd : root.definitionAt path = some d) :
    s.kind = "class" ↔ d.isClass = true := by
  rw [(h.kind_of_definition hd).2]
  by_cases hclass : d.isClass = true
  · simp [hclass]
  · rw [if_neg hclass]
    split <;> simp [hclass]

/-- The scope of a symbol is a class exactly if the nearest definition is one. -/
theorem inClass_iff (hentries : ∀ s path, (s, path) ∈ rows → Entry root rows s path) (h : Entry root rows s path) :
    InClass (symbolsOf rows) s.parent ↔ ∃ q e, Nearest root path q e ∧ e.isClass = true := by
  have hscope := h.innermost
  cases hparent : s.parent with
  | none =>
    rw [hparent] at hscope
    constructor
    · rintro ⟨p, t, hp, -⟩
      cases hp
    · rintro ⟨q, e, hn, -⟩
      exact absurd (hscope q e hn.found hn.around) hn.proper
  | some k =>
    rw [hparent] at hscope
    obtain ⟨t, q, e, hk, -, hn⟩ := hscope
    have hclass := (hentries t q (List.mem_of_getElem? hk)).class_iff hn.found
    have hsymbol : (symbolsOf rows)[k]? = some t := by
      rw [symbolsOf, List.getElem?_map, hk]
      rfl
    constructor
    · rintro ⟨p, u, hp, hu, hkind⟩
      obtain rfl := Option.some.inj hp
      obtain rfl : t = u := Option.some.inj (hsymbol.symm.trans hu)
      exact ⟨q, e, hn, hclass.1 hkind⟩
    · rintro ⟨q', e', hn', he'⟩
      obtain ⟨-, rfl⟩ := hn.unique hn'
      exact ⟨k, t, rfl, hsymbol, hclass.2 he'⟩

end Entry

theorem Listed.catalogue (h : Listed root [] [] rows) : Catalogue root rows where
  order := h.order
  once := by
    intro path d hd
    rcases h.found path d hd with ⟨s, hs⟩ | ⟨q, hq, -⟩
    · obtain ⟨i, hi⟩ := List.mem_iff_getElem?.1 hs
      have hdefinition : ∀ t, (t, path) ∈ rows → isDefinition t = true := fun t ht => by
        have hkind := ((h.entries t path ht).kind_of_definition hd).2
        simp only [isDefinition, decide_eq_true_eq]
        grind
      refine ⟨i, s, hi, hdefinition s hs, ((h.entries s path hs).kind_of_definition hd).1, fun j t hj => ?_⟩
      exact h.walked.once j i t s path hj hi (hdefinition t (List.mem_of_getElem? hj)) (hdefinition s hs)
    · cases hq
  definitions := by
    intro s path hs hdef
    obtain ⟨i, hi⟩ := List.mem_iff_getElem?.1 hs
    obtain ⟨d, hd, -⟩ := (h.walked.made i s path hi).definition hdef
    exact ⟨d, hd⟩
  parents := by
    intro i s path k hi hparent
    have hentry := h.entries s path (List.mem_of_getElem? hi)
    have hscope := hentry.innermost
    have hqualified := hentry.qualified
    rw [hparent] at hscope hqualified
    obtain ⟨t, q, d, hk, ht, hn⟩ := hscope
    refine ⟨(h.walked.made i s path hi).before k hparent, t, q, d, hk, ht, hn, ?_⟩
    have hsymbol : (symbolsOf rows)[k]? = some t := by
      rw [symbolsOf, List.getElem?_map, hk]
      rfl
    rw [hqualified, scopePrefix, hsymbol, List.append_assoc]
    rfl
  outermost := by
    intro s path hs hparent
    have hentry := h.entries s path hs
    have hscope := hentry.innermost
    have hqualified := hentry.qualified
    rw [hparent] at hscope hqualified
    exact ⟨hqualified, fun q d hn => hn.proper (hscope q d hn.found hn.around)⟩
  kinds := by
    intro s path d hs hd
    have hentry := h.entries s path hs
    refine ⟨hentry.class_iff hd, ?_⟩
    rw [← hentry.inClass_iff h.entries, (hentry.kind_of_definition hd).2]
    grind
  assigned := by
    intro s path hs hkind q d hn
    have hentry := h.entries s path hs
    obtain ⟨node, -, hmem⟩ := hentry.named
    have hclass : s.parent = none ∨ InClass (symbolsOf rows) s.parent := by
      rw [hkind] at hmem
      cases hshape : node.shape with
      | definition d =>
        rw [hshape] at hmem
        have := (Prod.mk.inj (List.mem_singleton.1 hmem)).2
        grind
      | imports ns lineno endLineno =>
        rw [hshape] at hmem
        obtain ⟨n, -, hn⟩ := List.mem_map.1 hmem
        exact absurd (Prod.mk.inj hn).2 (by decide)
      | assign targets lineno endLineno =>
        rw [hshape] at hmem
        simp only [names] at hmem
        by_contra hnot
        rw [if_neg hnot] at hmem
        cases hmem
      | other =>
        rw [hshape] at hmem
        cases hmem
    rcases hclass with hnone | hclass
    · have hscope := hentry.innermost
      rw [hnone] at hscope
      exact absurd (hscope q d hn.found hn.around) hn.proper
    · obtain ⟨q', e, hn', he⟩ := (hentry.inClass_iff h.entries).1 hclass
      obtain ⟨-, rfl⟩ := hn.unique hn'
      exact he
  short := fun s path hs => (h.entries s path hs).short

theorem catalogue_of_walk {fuel : Nat} (h : (walk fuel [(root, none)] []).diagnostic = none) :
    ∃ rows, symbolsOf rows = (walk fuel [(root, none)] []).symbols ∧ Catalogue root rows := by
  obtain ⟨rows, hrows, hlisted⟩ := walk_listed (Listed.start root) h
  exact ⟨rows, hrows, hlisted.catalogue⟩

/-- For every tree: there is a diagnostic and no symbol, or the tree has at most 40000 nodes and the symbols are those
of its nodes in pre-order. -/
theorem parsePython_catalogue (parse : Text → Tree) (content : Text) :
    (∃ diagnostic, parsePython parse content = ⟨[], some diagnostic⟩) ∨
      ∃ root rows, parse content = .root root ∧ (parsePython parse content).diagnostic = none ∧ root.size ≤ maxNodes ∧
        (parsePython parse content).symbols = symbolsOf rows ∧ Catalogue root rows := by
  unfold parsePython
  cases parse content with
  | syntaxError => exact .inl ⟨_, rfl⟩
  | recursionError => exact .inl ⟨_, rfl⟩
  | root node =>
    dsimp only
    cases hd : (walk maxNodes [(node, none)] []).diagnostic with
    | none =>
      obtain ⟨rows, hrows, hcatalogue⟩ := catalogue_of_walk hd
      exact .inr ⟨node, rows, rfl, rfl, walk_size hd, hrows.symm, hcatalogue⟩
    | some diagnostic =>
      refine .inl ⟨diagnostic, ?_⟩
      have hsymbols := walk_diagnostic (hd ▸ Option.some_ne_none diagnostic)
      show (⟨(walk maxNodes [(node, none)] []).symbols, (walk maxNodes [(node, none)] []).diagnostic⟩ : Parsed) = _
      rw [hsymbols, hd]

/-! ### A class in a class -/

/-- `class A: class B: pass`. -/
def classInClass : Node :=
  let definition := fun name lineno => Shape.definition ⟨true, false, [name], lineno, some 3, [], none, none⟩
  .mk .other [.mk (definition 'A' 1) [.mk (definition 'B' 2) [.mk .other []]]]

/-- The nearest definition around a class may be a class, and the class is no method. -/
theorem not_method_of_class : ∃ rows, (parsePython (fun _ => .root classInClass) []).diagnostic = none ∧
    (parsePython (fun _ => .root classInClass) []).symbols = symbolsOf rows ∧ Catalogue classInClass rows ∧
      ∃ s path d, (s, path) ∈ rows ∧ classInClass.definitionAt path = some d ∧
        ¬ (s.kind = "method" ↔ ∃ q e, Nearest classInClass path q e ∧ e.isClass = true) := by
  have hd : (parsePython (fun _ => .root classInClass) []).diagnostic = none := rfl
  obtain ⟨rows, hrows, hcatalogue⟩ := catalogue_of_walk hd
  obtain ⟨i, s, hi, -⟩ := hcatalogue.once [0, 0] _ rfl
  have hs := List.mem_of_getElem? hi
  refine ⟨rows, hd, hrows.symm, hcatalogue, s, [0, 0], _, hs, rfl, fun hmethod => ?_⟩
  have hclass := (hcatalogue.kinds s [0, 0] _ hs rfl).1.2 rfl
  rw [hclass] at hmethod
  have houter : classInClass.definitionAt [0] = some _ := rfl
  exact absurd (hmethod.2 ⟨[0], _, nearest_child houter 0, rfl⟩) (by decide)

end Parser
end RepoPilot
