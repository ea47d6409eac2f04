import RepoPilot.Chunking
import RepoPilot.Scopes

/-! # The chunks of definitions

A definition that is not inside a function, and not a class made of definitions, owns its lines: its
chunks are exactly these, and what no definition owns is in chunks without a symbol. Two owners lie
beside each other in the syntax tree, so their regions never overlap and none is skipped. -/

namespace RepoPilot
namespace Source
open Tiling RepoPilot.Parser

variable {content : Text} {symbols : List Symbol}

/-! ### Lines and offsets -/

theorem lt_takeWhile_length {xs : List Nat} (h : xs.Pairwise (· < ·)) {k x : Nat} :
    k < (xs.takeWhile (· ≤ x)).length ↔ ∃ y, xs[k]? = some y ∧ y ≤ x := by
  induction h generalizing k with
  | nil => simp
  | @cons z zs hz hs ih =>
    by_cases hzx : z ≤ x
    · rw [List.takeWhile_cons_of_pos (by simpa using hzx)]
      match k with
      | 0 => simp [hzx]
      | k + 1 => simpa using ih
    · rw [List.takeWhile_cons_of_neg (by simpa using hzx)]
      match k with
      | 0 => simpa using hzx
      | k + 1 =>
        simp only [List.length_nil, Nat.not_lt_zero, List.getElem?_cons_succ, false_iff]
        rintro ⟨y, hy, hyx⟩
        have := hz y (List.mem_of_getElem? hy)
        omega

/-- A character is on line `n` or a later one if it is not before the start of line `n`. -/
theorem le_lineAt_iff {o n : Nat} (ho : o < content.length) (hn : 1 ≤ n) :
    n ≤ lineAt content o ↔ lineOffset content n ≤ o := by
  have hlt : n ≤ lineAt content o ↔ n - 1 < ((lineStarts content).takeWhile (· ≤ o)).length := by
    rw [← bisectRight_lineStarts]
    show n ≤ ((lineStarts content).takeWhile (· ≤ o)).length ↔ _
    omega
  rw [hlt, lt_takeWhile_length (lineStarts_sorted content)]
  unfold lineOffset
  rcases Nat.lt_or_ge (n - 1) (lineStarts content).length with h | h
  · simp [List.getElem?_eq_getElem h]
  · simp only [List.getElem?_eq_none h, List.getD_eq_default _ _ h]
    constructor
    · rintro ⟨_, hy, -⟩
      cases hy
    · omega

theorem lineAt_le (o : Nat) : lineAt content o ≤ (lineStarts content).length := by
  unfold lineAt lineStarts
  rw [List.length_cons, Nat.add_comm]
  exact Nat.succ_le_succ (List.length_filter_le _ _)

/-- Some character is on line `n`. -/
def LineOf (content : Text) (n : Nat) : Prop := ∃ o < content.length, lineAt content o = n

theorem LineOf.pos {n : Nat} (h : LineOf content n) : 1 ≤ n := by
  obtain ⟨o, -, rfl⟩ := h
  exact Nat.le_add_right _ _

theorem LineOf.le {n : Nat} (h : LineOf content n) : n ≤ (lineStarts content).length := by
  obtain ⟨o, -, rfl⟩ := h
  exact lineAt_le o

/-- Lines with a character on the first of them are not empty. -/
theorem LineOf.lineOffset_lt {m n : Nat} (h : LineOf content m) (hmn : m ≤ n) :
    lineOffset content m < lineOffset content (n + 1) := by
  have hm := h.pos
  obtain ⟨o, ho, rfl⟩ := h
  have hstart := (le_lineAt_iff ho hm).1 le_rfl
  have hend := mt (le_lineAt_iff (n := n + 1) ho (by omega)).2 (by omega)
  omega

/-! ### Owners -/

/-- A definition with no function around it that, if it is a class, holds no definition. -/
structure Owner (symbols : List Symbol) (i : Nat) (s : Symbol) : Prop where
  here : symbols[i]? = some s
  definition : isDefinition s = true
  outermost : ∀ k t, Encloses symbols s.parent k → symbols[k]? = some t → t.kind ≠ "function" ∧ t.kind ≠ "method"
  leaf : s.kind = "class" → ∀ (k : Nat) (t : Symbol), symbols[k]? = some t → isDefinition t = true →
    ¬ Encloses symbols t.parent i

/-- What the walk says of the symbols alone. -/
structure Nested (symbols : List Symbol) : Prop where
  before : ∀ (i : Nat) (s : Symbol) (p : Nat), symbols[i]? = some s → s.parent = some p → p < i
  held : ∀ (i : Nat) (s : Symbol) (p : Nat), symbols[i]? = some s → s.parent = some p →
    ∃ t, symbols[p]? = some t ∧ isDefinition t = true
  member : ∀ (i : Nat) (s : Symbol), symbols[i]? = some s → isDefinition s = true → InClass symbols s.parent →
    s.kind = "class" ∨ s.kind = "method"

theorem isDefinition_iff {s : Symbol} :
    isDefinition s = true ↔ s.kind = "function" ∨ s.kind = "method" ∨ s.kind = "class" := by
  simp [isDefinition]

/-- On the way from a definition to a scope around it, the outermost step is a definition. -/
theorem Nested.step (h : Nested symbols) {k i : Nat} {s : Symbol} (hs : symbols[k]? = some s)
    (hdef : isDefinition s = true) (he : Encloses symbols s.parent i) :
    ∃ (j : Nat) (t : Symbol), symbols[j]? = some t ∧ t.parent = some i ∧ isDefinition t = true := by
  obtain ⟨j, t, ht, hparent, hj⟩ := he.direct hs
  refine ⟨j, t, ht, hparent, ?_⟩
  rcases hj with rfl | hj
  · obtain rfl : s = t := Option.some.inj (hs.symm.trans ht)
    exact hdef
  · -- every scope is a definition
    clear hparent
    generalize hscope : s.parent = scope at hj
    have hheld : ∀ p, scope = some p → ∃ u, symbols[p]? = some u ∧ isDefinition u = true :=
      fun p hp => h.held k s p hs (hscope.trans hp)
    clear hscope he hs
    induction hj with
    | self j =>
      obtain ⟨u, hu, hdef⟩ := hheld j rfl
      exact Option.some.inj (hu.symm.trans ht) ▸ hdef
    | up hu _ ih => exact ih ht fun p hp => h.held _ _ p hu hp

theorem owner_iff (h : Nested symbols) {i : Nat} {s : Symbol} :
    Owner symbols i s ↔ symbols[i]? = some s ∧ hasRegion symbols s i = true := by
  have hancestors : symbols[i]? = some s → ∀ a, a ∈ ancestors symbols symbols.length s.parent ↔
      ∃ k, Encloses symbols s.parent k ∧ symbols[k]? = some a := by
    intro hs a
    refine mem_ancestors h.before symbols.length s.parent fun p hp => ?_
    have h1 := h.before i s p hs hp
    have h2 := (List.getElem?_eq_some_iff.1 hs).1
    omega
  simp only [hasRegion, decide_eq_true_eq, List.any_eq_true]
  constructor
  · intro ho
    refine ⟨ho.here, ho.definition, ?_, ?_⟩
    · rintro ⟨a, ha, hkind⟩
      obtain ⟨k, hk, hak⟩ := (hancestors ho.here a).1 ha
      have := ho.outermost k a hk hak
      exact hkind.elim this.1 this.2
    · rintro ⟨hclass, t, ht, hkind, hparent⟩
      obtain ⟨k, hk⟩ := List.mem_iff_getElem?.1 ht
      exact ho.leaf hclass k t hk (isDefinition_iff.2 (by tauto)) (hparent ▸ .self i)
  · rintro ⟨hs, hdef, hout, hleaf⟩
    refine ⟨hs, hdef, fun k t hk ht => ?_, fun hclass k t ht hdef' he => ?_⟩
    · refine ⟨fun hkind => hout ⟨t, (hancestors hs t).2 ⟨k, hk, ht⟩, .inl hkind⟩,
        fun hkind => hout ⟨t, (hancestors hs t).2 ⟨k, hk, ht⟩, .inr hkind⟩⟩
    · obtain ⟨j, u, hu, hparent, hdef''⟩ := h.step ht hdef' he
      exact hleaf ⟨hclass, u, List.mem_of_getElem? hu, h.member j u hu hdef'' ⟨i, s, hparent, hs, hclass⟩, hparent⟩

/-- Two owners lie beside each other in the tree. -/
theorem Owner.apart {root : Node} {rows : List Placed} (h : Walked root [] [] rows) {i j : Nat} {s t : Symbol}
    {p q : Path} (hs : Owner (symbolsOf rows) i s) (ht : Owner (symbolsOf rows) j t) (hi : rows[i]? = some (s, p))
    (hj : rows[j]? = some (t, q)) (hne : i ≠ j) : Apart p q := by
  have hnot : ∀ {i j : Nat} {s t : Symbol} {p q : Path}, Owner (symbolsOf rows) i s → Owner (symbolsOf rows) j t →
      rows[i]? = some (s, p) → rows[j]? = some (t, q) → i ≠ j → ¬ p <+: q := by
    intro i j s t p q hs ht hi hj hne hpre
    have hpq : p ≠ q := by
      rintro rfl
      exact hne (h.once i j s t p hi hj hs.definition ht.definition)
    have he := (h.made j t q hj).scope i s p hi hs.definition hpre hpq
    rcases isDefinition_iff.1 hs.definition with hkind | hkind | hkind
    · exact (ht.outermost i s he hs.here).1 hkind
    · exact (ht.outermost i s he hs.here).2 hkind
    · exact hs.leaf hkind j t ht.here ht.definition he
  exact ⟨hnot hs ht hi hj hne, hnot ht hs hj hi hne.symm⟩

theorem nested_of_walked {root : Node} {rows : List Placed} (h : Walked root [] [] rows) : Nested (symbolsOf rows) := by
  have hmade : ∀ (i : Nat) (s : Symbol), (symbolsOf rows)[i]? = some s → ∃ p, Made root rows i s p := by
    intro i s hs
    obtain ⟨p, hp⟩ := symbolsOf_getElem? hs
    exact ⟨p, h.made i s p hp⟩
  refine ⟨fun i s p hs => ?_, fun i s p hs => ?_, fun i s hs => ?_⟩
  · obtain ⟨_, hm⟩ := hmade i s hs
    exact hm.before p
  · obtain ⟨_, hm⟩ := hmade i s hs
    exact hm.held p
  · obtain ⟨_, hm⟩ := hmade i s hs
    exact hm.member

/-! ### What the syntax tree promises -/

/-- The lines of a syntax tree: nodes are on lines of the text, and definitions beside each other share no
line. -/
structure Ranged (content : Text) (root : Node) : Prop where
  lines : ∀ path node first last, root.at path = some node → node.shape.lines = some (first, last) →
    first ≤ last ∧ LineOf content first ∧ LineOf content last
  disjoint : ∀ p q d e, Apart p q → root.definitionAt p = some d → root.definitionAt q = some e →
    d.endLine < e.startLine ∨ e.endLine < d.startLine

variable {root : Node} {rows : List Placed}

theorem lines_of_walked (hr : Ranged content root) (h : Walked root [] [] rows) {s : Symbol}
    (hs : s ∈ symbolsOf rows) : s.startLine ≤ s.endLine ∧ LineOf content s.startLine ∧ LineOf content s.endLine := by
  obtain ⟨i, hi⟩ := List.mem_iff_getElem?.1 hs
  obtain ⟨p, hp⟩ := symbolsOf_getElem? hi
  obtain ⟨node, hat, hlines⟩ := (h.made i s p hp).lines
  exact hr.lines p node _ _ hat hlines

theorem outline_of_walked (hr : Ranged content root) (h : Walked root [] [] rows) :
    Outline content (symbolsOf rows) where
  parents := (nested_of_walked h).before
  first := fun _ hs => (lines_of_walked hr h hs).2.1.pos
  order := fun _ hs => (lines_of_walked hr h hs).1
  last := fun _ hs => (lines_of_walked hr h hs).2.2.le

/-- An owner has the name and the lines of a definition of the tree. -/
theorem Owner.definitionAt (h : Walked root [] [] rows) {i : Nat} {s : Symbol} {p : Path}
    (ho : Owner (symbolsOf rows) i s) (hi : rows[i]? = some (s, p)) :
    ∃ d, root.definitionAt p = some d ∧ s.name = d.name ∧ s.startLine = d.startLine ∧ s.endLine = d.endLine := by
  have hm := h.made i s p hi
  obtain ⟨d, hd, hname⟩ := hm.definition ho.definition
  obtain ⟨node, hat, hlines⟩ := hm.lines
  obtain ⟨node', hat', hshape⟩ := Node.definitionAt_some hd
  obtain rfl : node = node' := Option.some.inj (hat.symm.trans hat')
  rw [hshape] at hlines
  obtain ⟨hstart, hend⟩ := Prod.mk.inj (Option.some.inj hlines)
  exact ⟨d, hd, hname, hstart.symm, hend.symm⟩

/-- The regions of two owners do not overlap. -/
theorem owner_regions_apart (hr : Ranged content root) (h : Walked root [] [] rows) {i j : Nat} {s t : Symbol}
    (hs : Owner (symbolsOf rows) i s) (ht : Owner (symbolsOf rows) j t) (hne : i ≠ j) :
    (regionOf content (s, i)).2.1 ≤ (regionOf content (t, j)).1 ∨
      (regionOf content (t, j)).2.1 ≤ (regionOf content (s, i)).1 := by
  obtain ⟨p, hp⟩ := symbolsOf_getElem? hs.here
  obtain ⟨q, hq⟩ := symbolsOf_getElem? ht.here
  obtain ⟨d, hd, -, hd1, hd2⟩ := hs.definitionAt h hp
  obtain ⟨e, he, -, he1, he2⟩ := ht.definitionAt h hq
  refine (hr.disjoint p q d e (Owner.apart h hs ht hp hq hne) hd he).imp (fun hlt => ?_) fun hlt => ?_
  · exact lineOffset_mono (show s.endLine + 1 ≤ t.startLine by omega)
  · exact lineOffset_mono (show t.endLine + 1 ≤ s.startLine by omega)

/-! ### Spans of separated regions -/

/-- Sorted regions that do not overlap. -/
def Separated (rs : List (Nat × Nat × Nat)) : Prop := rs.Pairwise fun r q => r.2.1 ≤ q.1

/-- None of the regions is skipped. -/
theorem spans_label {rs : List (Nat × Nat × Nat)} (hs : Separated rs) {length cursor : Nat}
    (hc : ∀ r ∈ rs, cursor ≤ r.1) (i : Nat) :
    (spans length cursor rs).filter (·.2.2 = some i) =
      (rs.filter (·.2.2 = i)).map fun r => (r.1, r.2.1, some r.2.2) := by
  induction rs generalizing cursor with
  | nil =>
    simp only [spans]
    split <;> simp
  | cons r rs ih =>
    obtain ⟨first, last, k⟩ := r
    obtain ⟨hr, hs⟩ := List.pairwise_cons.1 hs
    obtain ⟨hfirst, -⟩ := List.forall_mem_cons.1 hc
    have hgap :
        (if cursor < first then [(cursor, first, (none : Option Nat))] else []).filter (·.2.2 = some i) = [] := by
      split <;> simp
    simp only [spans]
    rw [if_neg (Nat.not_lt.2 hfirst), List.filter_append, hgap, List.nil_append]
    by_cases hk : k = i
    · rw [List.filter_cons_of_pos (by simpa using hk), List.filter_cons_of_pos (by simpa using hk), List.map_cons,
        ih hs hr]
    · rw [List.filter_cons_of_neg (by simpa using hk), List.filter_cons_of_neg (by simpa using hk), ih hs hr]

/-- A span with a label is a region. -/
theorem mem_of_mem_spans {rs : List (Nat × Nat × Nat)} {length cursor first last i : Nat}
    (h : (first, last, some i) ∈ spans length cursor rs) : (first, last, i) ∈ rs := by
  induction rs generalizing cursor with
  | nil =>
    simp only [spans] at h
    split at h <;> simp at h
  | cons r rs ih =>
    obtain ⟨first', last', k⟩ := r
    simp only [spans] at h
    split at h
    · exact List.mem_cons_of_mem _ (ih h)
    · rcases List.mem_append.1 h with h | h
      · split at h <;> simp at h
      · rcases List.mem_cons.1 h with h | h
        · obtain ⟨rfl, rfl, hk⟩ := h
          exact List.mem_cons_self
        · exact List.mem_cons_of_mem _ (ih h)

theorem filter_eq_singleton {β : Type} [DecidableEq β] {α : Type} {f : α → β} {xs : List α} (h : (xs.map f).Nodup)
    {x : α} (hx : x ∈ xs) : xs.filter (f · = f x) = [x] := by
  induction xs with
  | nil => cases hx
  | cons y ys ih =>
    obtain ⟨hy, hys⟩ := List.nodup_cons.1 h
    rcases List.mem_cons.1 hx with rfl | hx
    · rw [List.filter_cons_of_pos (by simp)]
      refine congrArg _ (List.filter_eq_nil_iff.2 fun z hz => ?_)
      simp only [decide_eq_true_eq]
      exact fun he => hy (he ▸ List.mem_map_of_mem hz)
    · have hne : f y ≠ f x := fun he => hy (he ▸ List.mem_map_of_mem hx)
      rw [List.filter_cons_of_neg (by simpa using hne), ih hys hx]

theorem regionSymbols_nodup : ((regionSymbols symbols).map Prod.snd).Nodup := by
  have hsub : ((regionSymbols symbols).map Prod.snd).Sublist (symbols.zipIdx.map Prod.snd) :=
    List.filter_sublist.map _
  rw [List.zipIdx_map_snd] at hsub
  exact hsub.nodup (List.nodup_range')

/-- The regions in the order they are laid out. -/
def laidOut (content : Text) (symbols : List Symbol) : List (Nat × Nat × Nat) :=
  ((regionSymbols symbols).map (regionOf content)).insertionSort regionLe

theorem mem_laidOut {r : Nat × Nat × Nat} :
    r ∈ laidOut content symbols ↔ ∃ p ∈ regionSymbols symbols, regionOf content p = r := by
  rw [laidOut, (List.perm_insertionSort _ _).mem_iff, List.mem_map]

theorem laidOut_nodup : ((laidOut content symbols).map (·.2.2)).Nodup := by
  have hperm : ((laidOut content symbols).map (·.2.2)).Perm ((regionSymbols symbols).map Prod.snd) := by
    have := (List.perm_insertionSort regionLe ((regionSymbols symbols).map (regionOf content))).map (·.2.2)
    rwa [List.map_map] at this
  exact hperm.nodup_iff.2 regionSymbols_nodup

instance : Std.Total regionLe := ⟨fun a b => by unfold regionLe; omega⟩

instance : IsTrans (Nat × Nat × Nat) regionLe := ⟨fun a b c => by unfold regionLe; omega⟩

theorem region_nonempty (hr : Ranged content root) (h : Walked root [] [] rows) {i : Nat} {s : Symbol}
    (hs : (symbolsOf rows)[i]? = some s) : (regionOf content (s, i)).1 < (regionOf content (s, i)).2.1 :=
  have hlines := lines_of_walked hr h (List.mem_of_getElem? hs)
  hlines.2.1.lineOffset_lt hlines.1

theorem laidOut_separated (hr : Ranged content root) (h : Walked root [] [] rows) :
    Separated (laidOut content (symbolsOf rows)) := by
  have hsorted := List.pairwise_insertionSort regionLe ((regionSymbols (symbolsOf rows)).map (regionOf content))
  have hnodup : ((laidOut content (symbolsOf rows)).map (·.2.2)).Nodup := laidOut_nodup
  have hlabels := List.pairwise_map.1 hnodup
  refine (List.pairwise_and_iff.2 ⟨hsorted, hlabels⟩).imp_of_mem fun {a b} ha hb hab => ?_
  obtain ⟨⟨s, i⟩, hs, rfl⟩ := mem_laidOut.1 ha
  obtain ⟨⟨t, j⟩, ht, rfl⟩ := mem_laidOut.1 hb
  obtain ⟨hle, hne⟩ := hab
  have hs' := (owner_iff (nested_of_walked h)).2 (mem_regionSymbols.1 hs)
  have ht' := (owner_iff (nested_of_walked h)).2 (mem_regionSymbols.1 ht)
  rcases owner_regions_apart hr h hs' ht' hne with hap | hap
  · exact hap
  · -- the later one is not empty, so it cannot end before the earlier one starts
    have hlt := region_nonempty hr h ht'.here
    unfold regionLe at hle
    dsimp only at hap hlt hle ⊢
    omega

/-- The span of an owner is its region. -/
theorem sourceSpans_label (hr : Ranged content root) (h : Walked root [] [] rows) {i : Nat} {s : Symbol}
    (hs : Owner (symbolsOf rows) i s) :
    (sourceSpans content (symbolsOf rows)).filter (·.2.2 = some i) =
      [(lineOffset content s.startLine, lineOffset content (s.endLine + 1), some i)] := by
  have hmem : regionOf content (s, i) ∈ laidOut content (symbolsOf rows) :=
    mem_laidOut.2 ⟨(s, i), mem_regionSymbols.2 ((owner_iff (nested_of_walked h)).1 hs), rfl⟩
  have hone : (laidOut content (symbolsOf rows)).filter (·.2.2 = i) = [regionOf content (s, i)] :=
    filter_eq_singleton laidOut_nodup hmem
  show (spans content.length 0 (laidOut content (symbolsOf rows))).filter (·.2.2 = some i) = _
  rw [spans_label (laidOut_separated hr h) (fun r _ => Nat.zero_le _), hone]
  rfl

/-! ### Pieces of spans -/

theorem filter_flatMap_label {α β γ : Type} [DecidableEq γ] {f : α → List β} {l : α → γ} {l' : β → γ} (k : γ)
    (h : ∀ x, ∀ y ∈ f x, l' y = l x) (xs : List α) :
    (xs.flatMap f).filter (l' · = k) = (xs.filter (l · = k)).flatMap f := by
  induction xs with
  | nil => rfl
  | cons x xs ih =>
    rw [List.flatMap_cons, List.filter_append, ih]
    by_cases hx : l x = k
    · rw [List.filter_cons_of_pos (by simpa using hx), List.flatMap_cons]
      refine congrArg (· ++ _) (List.filter_eq_self.2 fun y hy => ?_)
      simpa using (h x y hy).trans hx
    · rw [List.filter_cons_of_neg (by simpa using hx)]
      have hnone : (f x).filter (l' · = k) = [] := by
        refine List.filter_eq_nil_iff.2 fun y hy => ?_
        simpa using fun he => hx ((h x y hy).symm.trans he)
      rw [hnone, List.nil_append]

/-- The pieces of an owner are the cuts of its region. -/
theorem sourcePieces_label (hr : Ranged content root) (h : Walked root [] [] rows) {i : Nat} {s : Symbol}
    (hs : Owner (symbolsOf rows) i s) (maxBytes : Nat) :
    (sourcePieces content (symbolsOf rows) maxBytes).filter (·.2.2 = some i) =
      (cuts content maxBytes (lineOffset content (s.endLine + 1))
        (lineOffset content (s.endLine + 1) - lineOffset content s.startLine) (lineOffset content s.startLine)).map
        fun q => (q.1, q.2, some i) := by
  unfold sourcePieces
  rw [filter_flatMap_label (l := (·.2.2)) (some i) (fun p q hq => by
    obtain ⟨c, -, rfl⟩ := List.mem_map.1 hq
    rfl), sourceSpans_label hr h hs]
  simp

/-- A piece lies in a span with its label. -/
theorem span_of_mem_sourcePieces {maxBytes : Nat} (hr : Ranged content root) (h : Walked root [] [] rows)
    (hm : 4 ≤ maxBytes) {p : Nat × Nat × Option Nat} (hp : p ∈ sourcePieces content (symbolsOf rows) maxBytes) :
    ∃ q ∈ sourceSpans content (symbolsOf rows), q.1 ≤ p.1 ∧ p.2.1 ≤ q.2.1 ∧ q.2.2 = p.2.2 := by
  obtain ⟨q, hq, hp⟩ := List.mem_flatMap.1 hp
  have hspan := (sourceSpans_tiles (outline_of_walked hr h)).mem hq
  have hmem := (cuts_tiles hm hspan.2.2 q.2.2 (q.2.1 - q.1) q.1 hspan.2.1 le_rfl).1.mem hp
  obtain ⟨c, -, rfl⟩ := List.mem_map.1 hp
  exact ⟨q, hq, hmem.1, hmem.2.2, rfl⟩

theorem chunkEnd_of_fits {maxBytes first last : Nat} (hl : last ≤ content.length) (hf : first < last)
    (hsize : utf8Length (slice content first last) ≤ maxBytes) : chunkEnd content maxBytes first last = last := by
  obtain ⟨size, hread, hend⟩ := advance_reading hl (last - first) first 0 first le_rfl (Reading.start hf.le)
  unfold chunkEnd
  generalize advance content maxBytes last (last - first) first 0 first = r at hread hend
  obtain ⟨stop, lastBreak⟩ := r
  dsimp only at hread hend ⊢
  have hstop : stop = last := by
    rcases hend with hend | hover
    · exact hend
    · refine Nat.le_antisymm hread.le_last (Nat.le_of_not_lt fun hlt => ?_)
      have hnext := utf8Length_slice_succ hread.first_le (show stop < content.length by omega)
      have hmono : utf8Length (slice content first (stop + 1)) ≤ utf8Length (slice content first last) :=
        utf8Length_slice_mono (by have := hread.first_le; omega) hlt
      rw [← hread.size_eq] at hnext
      omega
  rw [if_neg (by omega), hstop]

/-- What fits is not cut. -/
theorem cuts_of_fits {maxBytes first last fuel : Nat} (hl : last ≤ content.length) (hf : first < last)
    (hsize : utf8Length (slice content first last) ≤ maxBytes) :
    cuts content maxBytes last (fuel + 1) first = [(first, last)] := by
  simp only [cuts]
  rw [if_pos hf, chunkEnd_of_fits hl hf hsize]
  cases fuel with
  | zero => rfl
  | succ fuel =>
    simp only [cuts]
    rw [if_neg (Nat.lt_irrefl _)]

/-! ### The chunks of a Python source -/

/-- The lines from `first` to `last`. -/
def linesOf (content : Text) (first last : Nat) : Text :=
  slice content (lineOffset content first) (lineOffset content (last + 1))

/-- The chunks that carry ordinal `i`. -/
def chunksOf (chunks : List Chunk) (i : Nat) : List Chunk := chunks.filter (·.symbolOrdinal = some i)

/-- The chunks of owners are their lines, decorators included, and what no owner has is in chunks without a
symbol. -/
structure Charted (content : Text) (root : Node) (result : IndexedSource) : Prop where
  definition : ∀ i s, Owner result.symbols i s → ∃ path d, root.definitionAt path = some d ∧ s.name = d.name ∧
    s.startLine = d.startLine ∧ s.endLine = d.endLine
  lines : ∀ i s, Owner result.symbols i s →
    ((chunksOf result.chunks i).map (·.content)).flatten = linesOf content s.startLine s.endLine
  single : ∀ i s, Owner result.symbols i s → utf8Length (linesOf content s.startLine s.endLine) ≤ 8192 →
    ∃ c, chunksOf result.chunks i = [c]
  rest : ∀ o < content.length,
    (∀ i s, Owner result.symbols i s → ¬ (s.startLine ≤ lineAt content o ∧ lineAt content o ≤ s.endLine)) →
    ∃ c ∈ result.chunks, c.startOffset ≤ o ∧ o < c.endOffset ∧ c.symbolOrdinal = none

theorem chunks_labels {sha256 : Text → Text} {mode : String} (ps : List (Nat × Nat × Option Nat)) :
    (ps.zipIdx.map (chunkOf sha256 content mode)).map (fun c => (c.startOffset, c.endOffset, c.symbolOrdinal)) = ps := by
  rw [List.map_map]
  exact List.zipIdx_map_fst 0 ps

theorem chunksOf_eq {sha256 : Text → Text} {mode : String} (ps : List (Nat × Nat × Option Nat)) (i : Nat) :
    (chunksOf (ps.zipIdx.map (chunkOf sha256 content mode)) i).map
      (fun c => (c.startOffset, c.endOffset, c.symbolOrdinal)) = ps.filter (·.2.2 = some i) := by
  conv_rhs => rw [← @chunks_labels content sha256 mode ps, List.filter_map]
  rfl

/-- The chunks of a walked tree. -/
theorem charted_of_walked {sha256 : Text → Text} {mode : String} {diagnostic : Option Text}
    (hr : Ranged content root) (h : Walked root [] [] rows) :
    Charted content root ⟨symbolsOf rows,
      (sourcePieces content (symbolsOf rows) maxChunkBytes).zipIdx.map (chunkOf sha256 content mode), diagnostic⟩ := by
  have hm : 4 ≤ maxChunkBytes := by decide
  have houtline := outline_of_walked hr h
  have hregion : ∀ i s, Owner (symbolsOf rows) i s →
      lineOffset content s.startLine < lineOffset content (s.endLine + 1) ∧
        lineOffset content (s.endLine + 1) ≤ content.length :=
    fun i s hs => ⟨region_nonempty hr h hs.here, (lineOffset_boundary _).le⟩
  have hcontents : ∀ cs : List Chunk, (∀ c ∈ cs, Exact content c) → cs.map (·.content) =
      (cs.map fun c => (c.startOffset, c.endOffset, c.symbolOrdinal)).map fun p => piece content p.1 p.2.1 := by
    intro cs hexact
    rw [List.map_map]
    exact List.map_congr_left fun c hc => hexact c hc
  have hexact : ∀ c ∈ (sourcePieces content (symbolsOf rows) maxChunkBytes).zipIdx.map (chunkOf sha256 content mode),
      Exact content c := by
    intro c hc
    obtain ⟨p, -, rfl⟩ := List.mem_map.1 hc
    exact rfl
  refine ⟨fun i s hs => ?_, fun i s hs => ?_, fun i s hs hsize => ?_, fun o ho hout => ?_⟩
  · obtain ⟨p, hp⟩ := symbolsOf_getElem? hs.here
    obtain ⟨d, hd⟩ := hs.definitionAt h hp
    exact ⟨p, d, hd⟩
  · obtain ⟨hlt, hle⟩ := hregion i s hs
    have htiles := (cuts_tiles hm hle (some i) _ _ hlt.le le_rfl).1
    have hof : ∀ c ∈ chunksOf ((sourcePieces content (symbolsOf rows) maxChunkBytes).zipIdx.map
        (chunkOf sha256 content mode)) i, Exact content c := fun c hc => hexact c (List.mem_of_mem_filter hc)
    dsimp only
    rw [hcontents _ hof, chunksOf_eq, sourcePieces_label hr h hs, htiles.flatten content]
    rfl
  · obtain ⟨hlt, hle⟩ := hregion i s hs
    have hlength := congrArg List.length (@chunksOf_eq content sha256 mode
      (sourcePieces content (symbolsOf rows) maxChunkBytes) i)
    obtain ⟨fuel, hfuel⟩ := Nat.exists_eq_succ_of_ne_zero (Nat.sub_ne_zero_of_lt hlt)
    have hcuts : cuts content maxChunkBytes (lineOffset content (s.endLine + 1)) (fuel + 1) _ = _ :=
      cuts_of_fits hle hlt hsize
    rw [sourcePieces_label hr h hs, hfuel, hcuts, List.length_map] at hlength
    exact List.length_eq_one_iff.1 hlength
  · obtain ⟨p, hp, h1, h2⟩ := (sourcePieces_tiles houtline hm).1.covers (Nat.zero_le o) ho
    have hnone : p.2.2 = none := by
      obtain ⟨q, hq, hq1, hq2, hlabel⟩ := span_of_mem_sourcePieces hr h hm hp
      rcases hlast : p.2.2 with _ | i
      · rfl
      · obtain ⟨⟨s, k⟩, hs, hregion⟩ := mem_laidOut.1 (mem_of_mem_spans
          (show (q.1, q.2.1, some i) ∈ spans content.length 0 (laidOut content (symbolsOf rows)) by
            rw [← hlast, ← hlabel]
            exact hq))
        obtain ⟨hfirst, hend, rfl⟩ := Prod.mk.inj hregion |>.imp_right Prod.mk.inj
        have howner : Owner (symbolsOf rows) k s := (owner_iff (nested_of_walked h)).2 (mem_regionSymbols.1 hs)
        have hlines : s.startLine ≤ s.endLine ∧ LineOf content s.startLine ∧ LineOf content s.endLine :=
          lines_of_walked hr h (List.mem_of_getElem? howner.here)
        have hstart := hlines.2.1.pos
        dsimp only at hfirst hend
        refine (hout k s howner ⟨(le_lineAt_iff ho hstart).2 (by omega), ?_⟩).elim
        exact Nat.lt_succ_iff.1 (Nat.lt_of_not_le fun hle => by
          have := (le_lineAt_iff (n := s.endLine + 1) ho (by omega)).1 hle
          omega)
    have hlabels := @chunks_labels content sha256 mode
      (sourcePieces content (symbolsOf rows) maxChunkBytes)
    rw [← hlabels] at hp
    obtain ⟨c, hc, rfl⟩ := List.mem_map.1 hp
    exact ⟨c, hc, h1, h2, hnone⟩

/-- What is indexed of a Python source that parses: its definitions, each in chunks of its own. -/
theorem indexSource_charted (sha256 : Text → Text) (parse : Text → Tree) (content : Text) (root : Node)
    (result : IndexedSource) (hparse : parse content = .root root) (hr : Ranged content root)
    (h : indexSource sha256 (parsePython parse) content "python" = .ok result) (hd : result.diagnostic = none) :
    Charted content root result := by
  unfold indexSource at h
  split at h
  · cases h
  · dsimp only at h
    rw [if_pos rfl] at h
    generalize hmode : (if (parsePython parse content).diagnostic.any (· ≠ []) then "fallback"
      else if "python" = "python" then "module" else "text") = mode at h
    have hwalk : walk maxNodes [(root, none)] [] = parsePython parse content := by
      rw [parsePython, hparse]
    generalize parsePython parse content = parsed at h hwalk
    generalize hmade : chunkSource _ _ _ _ _ = made at h
    match made with
    | .error _ => cases h
    | .ok chunks =>
      cases h
      obtain ⟨rows, hrows, hwalked⟩ := walk_walked rfl (Walked.start root) hwalk hd
      rw [← hrows, chunkSource_eq (outline_of_walked hr hwalked) (by decide)] at hmade
      cases hmade
      dsimp only
      rw [← hrows]
      exact charted_of_walked hr hwalked

/-! A class with a decorated method, and a line that no definition owns. -/

def charted : Text := "class A:\n @d\n def f(s): 1\nA()".toList

def chartedRoot : Node :=
  .mk .other [.mk (.definition ⟨true, false, "A".toList, 1, some 3, [], some ⟨[], [], [], none⟩, none⟩)
    [.mk (.definition ⟨false, false, "f".toList, 3, some 3, [2], some ⟨[], [], "s".toList, none⟩, none⟩) []], .mk .other []]

def chartedParse (_ : Text) : Tree := .root chartedRoot

def chartedResult : IndexedSource where
  symbols := [⟨"A".toList, "A".toList, "class", none, 1, 3, some "class A()".toList, none⟩,
    ⟨"f".toList, "A.f".toList, "method", some 0, 2, 3, some "def f(s)".toList, none⟩]
  chunks := [⟨0, 0, 9, 1, 1, none, "module", "class A:\n".toList, "class A:\n".toList⟩,
    ⟨1, 9, 26, 2, 3, some 1, "symbol", " @d\n def f(s): 1\n".toList, " @d\n def f(s): 1\n".toList⟩,
    ⟨2, 26, 29, 4, 4, none, "module", "A()".toList, "A()".toList⟩]
  diagnostic := none

theorem chartedRoot_at {p : Path} {node : Node} (h : chartedRoot.at p = some node) :
    p = [] ∨ p = [0] ∨ p = [0, 0] ∨ p = [1] := by
  match p, h with
  | [], _ | [0], _ | [0, 0], _ | [1], _ => simp
  | 0 :: 0 :: _ :: _, h | 0 :: (n + 1) :: _, h | 1 :: _ :: _, h | (n + 2) :: _, h => cases h

theorem charted_ranged : Ranged charted chartedRoot := by
  refine ⟨fun p node first last hat hlines => ?_, fun p q d e hap hd he => ?_⟩
  · rcases chartedRoot_at hat with rfl | rfl | rfl | rfl <;> cases hat <;> cases hlines
    · exact ⟨by decide, ⟨0, by decide⟩, ⟨20, by decide⟩⟩
    · exact ⟨by decide, ⟨10, by decide⟩, ⟨20, by decide⟩⟩
  · obtain ⟨node, hat, hshape⟩ := Node.definitionAt_some hd
    obtain ⟨node', hat', hshape'⟩ := Node.definitionAt_some he
    rcases chartedRoot_at hat with rfl | rfl | rfl | rfl <;> cases hat <;> cases hshape <;>
      rcases chartedRoot_at hat' with rfl | rfl | rfl | rfl <;> cases hat' <;> cases hshape' <;>
        exact absurd hap (by unfold Apart; decide)

theorem indexSource_charted_sample : Charted charted chartedRoot chartedResult :=
  indexSource_charted id chartedParse charted chartedRoot chartedResult rfl charted_ranged (by rfl) rfl

end Source
end RepoPilot
