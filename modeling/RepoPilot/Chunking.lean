import RepoPilot.Source
import RepoPilot.Tiling

/-! # The chunks of a source

`chunkSource` tiles the text: gaps and regions tile it, and every span is cut into pieces that fit, at the
last line break read or, where none was read, in the middle of a line. -/

namespace RepoPilot
namespace Source
open Tiling

/-! ### Lines -/

/-- The character at `k` is the last one of a line break of `cs`. -/
def BreakAt (cs : Text) (k : Nat) : Prop :=
  cs[k]? = some '\n' ∨ cs[k]? = some '\r' ∧ cs[k + 1]? ≠ some '\n'

theorem lt_of_mem_breakEnds {o p : Nat} {cs : Text} (h : p ∈ breakEnds o cs) : o < p := by
  fun_induction breakEnds o cs with
  | case1 => cases h
  | case2 o cs ih =>
    rcases List.mem_cons.1 h with rfl | h
    · omega
    · have := ih h
      omega
  | case3 o cs hne ih =>
    rcases List.mem_cons.1 h with rfl | h
    · omega
    · have := ih h
      omega
  | case4 o cs ih =>
    rcases List.mem_cons.1 h with rfl | h
    · omega
    · have := ih h
      omega
  | case5 o c cs h1 h2 h3 ih =>
    have := ih h
    omega

theorem mem_breakEnds {o : Nat} {cs : Text} (k : Nat) : o + k + 1 ∈ breakEnds o cs ↔ BreakAt cs k := by
  have hself : ∀ {o : Nat} {cs : Text}, o ∉ breakEnds o cs := fun h => Nat.lt_irrefl _ (lt_of_mem_breakEnds h)
  unfold BreakAt
  fun_induction breakEnds o cs generalizing k with
  | case1 => simp
  | case2 o cs ih =>
    match k with
    | 0 =>
      have hno : o + 1 ∉ breakEnds (o + 2) cs := fun h => by
        have := lt_of_mem_breakEnds h
        omega
      simp [hno]
    | 1 => simp
    | k + 2 =>
      have hk : o + (k + 2) + 1 = o + 2 + k + 1 := by omega
      rw [hk, List.mem_cons]
      exact (or_iff_right (by omega)).trans ((ih k).trans (by simp))
  | case3 o cs hne ih =>
    match k with
    | 0 =>
      have hhead : cs[0]? ≠ some '\n' := by
        intro h
        match cs, h with
        | _ :: cs, h => exact hne cs (by simp at h; rw [h])
      simp [hhead]
    | k + 1 =>
      have hk : o + (k + 1) + 1 = o + 1 + k + 1 := by omega
      rw [hk, List.mem_cons]
      exact (or_iff_right (by omega)).trans ((ih k).trans (by simp))
  | case4 o cs ih =>
    match k with
    | 0 => simp
    | k + 1 =>
      have hk : o + (k + 1) + 1 = o + 1 + k + 1 := by omega
      rw [hk, List.mem_cons]
      exact (or_iff_right (by omega)).trans ((ih k).trans (by simp))
  | case5 o c cs h1 h2 h3 ih =>
    match k with
    | 0 =>
      have hno : o + 0 + 1 ∉ breakEnds (o + 1) cs := hself
      have hn : c ≠ '\n' := fun h => h3 h
      have hr : c ≠ '\r' := fun h => h2 h
      simp [hno, hn, hr]
    | k + 1 =>
      have hk : o + (k + 1) + 1 = o + 1 + k + 1 := by omega
      rw [hk]
      exact (ih k).trans (by simp)

theorem breakEnds_sorted (o : Nat) (cs : Text) : (breakEnds o cs).Pairwise (· < ·) := by
  fun_induction breakEnds o cs with
  | case1 => exact .nil
  | case2 o cs ih => exact .cons (fun _ hp => lt_of_mem_breakEnds hp) ih
  | case3 o cs hne ih => exact .cons (fun _ hp => lt_of_mem_breakEnds hp) ih
  | case4 o cs ih => exact .cons (fun _ hp => lt_of_mem_breakEnds hp) ih
  | case5 o c cs h1 h2 h3 ih => exact ih

variable {content : Text}

theorem lineStarts_sorted (content : Text) : (lineStarts content).Pairwise (· < ·) :=
  .cons (fun _ hp => lt_of_mem_breakEnds hp) (breakEnds_sorted 0 content)

theorem mem_lineStarts (k : Nat) : k + 1 ∈ lineStarts content ↔ BreakAt content k := by
  have h : 0 + k + 1 ∈ breakEnds 0 content ↔ BreakAt content k := mem_breakEnds k
  rw [Nat.zero_add] at h
  unfold lineStarts
  rw [List.mem_cons, ← h]
  exact or_iff_right (Nat.succ_ne_zero k)

theorem BreakAt.lt {k : Nat} (h : BreakAt content k) : k < content.length := by
  rcases h with h | ⟨h, -⟩ <;> exact (List.getElem?_eq_some_iff.1 h).1

theorem le_of_mem_lineStarts {p : Nat} (h : p ∈ lineStarts content) : p ≤ content.length := by
  match p, h with
  | 0, _ => exact Nat.zero_le _
  | k + 1, h => exact ((mem_lineStarts k).1 h).lt

/-- The 1-based line of the character at `o`: one more than the line breaks that end before it. -/
def lineAt (content : Text) (o : Nat) : Nat := 1 + ((breakEnds 0 content).filter (· ≤ o)).length

theorem takeWhile_eq_filter {xs : List Nat} (h : xs.Pairwise (· < ·)) (x : Nat) :
    xs.takeWhile (· ≤ x) = xs.filter (· ≤ x) := by
  induction h with
  | nil => rfl
  | @cons y ys hy hs ih =>
    by_cases hyx : y ≤ x
    · rw [List.takeWhile_cons_of_pos (by simpa using hyx), List.filter_cons_of_pos (by simpa using hyx), ih]
    · have hnone : ys.filter (· ≤ x) = [] := by
        refine List.filter_eq_nil_iff.2 fun z hz => ?_
        have := hy z hz
        simp only [decide_eq_true_eq]
        omega
      rw [List.takeWhile_cons_of_neg (by simpa using hyx), List.filter_cons_of_neg (by simpa using hyx), hnone]

theorem bisectRight_lineStarts (o : Nat) : bisectRight (lineStarts content) o = lineAt content o := by
  unfold bisectRight
  rw [takeWhile_eq_filter (lineStarts_sorted content), lineStarts, List.filter_cons_of_pos (by simp),
    List.length_cons, Nat.add_comm]
  rfl

/-- Inside a span, the end of a line is the start of the next. -/
theorem endsLine_iff {last p : Nat} (hp : 0 < p) (hl : p < last) :
    endsLine content last p = true ↔ p ∈ lineStarts content := by
  obtain ⟨k, rfl⟩ := Nat.exists_eq_succ_of_ne_zero hp.ne'
  rw [Nat.succ_eq_add_one, mem_lineStarts]
  unfold endsLine BreakAt
  have hne : k + 1 ≠ last := hl.ne
  simp [hne]

/-! ### Bytes -/

theorem slice_eq_piece (i j : Nat) : slice content i j = piece content i j := rfl

theorem utf8Length_append (s t : Text) : utf8Length (s ++ t) = utf8Length s + utf8Length t := by
  simp [utf8Length]

theorem utf8Length_slice_succ {i j : Nat} (hij : i ≤ j) (hj : j < content.length) :
    utf8Length (slice content i (j + 1)) = utf8Length (slice content i j) + (content.getD j ' ').utf8Size := by
  rw [slice_eq_piece, piece_succ content hij hj, utf8Length_append, List.getD_eq_getElem _ _ hj]
  simp [utf8Length, slice_eq_piece]

theorem utf8Length_slice_mono {i j k : Nat} (hij : i ≤ j) (hjk : j ≤ k) :
    utf8Length (slice content i j) ≤ utf8Length (slice content i k) := by
  rw [slice_eq_piece, slice_eq_piece, ← piece_append content hij hjk, utf8Length_append]
  exact Nat.le_add_right _ _

/-! ### Cutting a span -/

/-- What reading from `first` knows after it read up to `stop`. -/
structure Reading (content : Text) (maxBytes last first stop size lastBreak : Nat) : Prop where
  first_le : first ≤ stop
  le_last : stop ≤ last
  size_eq : size = utf8Length (slice content first stop)
  fits : size ≤ maxBytes
  break_le : lastBreak ≤ stop
  le_break : first ≤ lastBreak
  break_line : lastBreak = first ∨ endsLine content last lastBreak = true
  latest : ∀ p, first < p → p ≤ stop → endsLine content last p = true → p ≤ lastBreak

theorem Reading.start {maxBytes last first : Nat} (h : first ≤ last) :
    Reading content maxBytes last first first 0 first :=
  ⟨le_rfl, h, by simp [slice, utf8Length], Nat.zero_le _, le_rfl, le_rfl, .inl rfl, fun p h1 h2 _ => by omega⟩

theorem Reading.step {maxBytes last first stop size lastBreak : Nat}
    (h : Reading content maxBytes last first stop size lastBreak) (hl : last ≤ content.length) (hs : stop < last)
    (hw : size + (content.getD stop ' ').utf8Size ≤ maxBytes) :
    Reading content maxBytes last first (stop + 1) (size + (content.getD stop ' ').utf8Size)
      (if endsLine content last (stop + 1) then stop + 1 else lastBreak) := by
  have hfirst := h.first_le
  have hbreak := h.break_le
  have hstart := h.le_break
  refine ⟨by omega, hs, ?_, hw, ?_, ?_, ?_, fun p h1 h2 h3 => ?_⟩
  · rw [utf8Length_slice_succ h.first_le (by omega), h.size_eq]
  · split <;> omega
  · split <;> omega
  · split
    · exact .inr ‹_›
    · exact h.break_line
  · rcases Nat.lt_or_ge stop p with hp | hp
    · obtain rfl : p = stop + 1 := by omega
      rw [if_pos h3]
    · have := h.latest p h1 hp h3
      split <;> omega

/-- Reading goes on as long as the span and the limit allow. -/
theorem advance_reading {maxBytes last first : Nat} (hl : last ≤ content.length) (fuel stop size lastBreak : Nat)
    (hfuel : last - stop ≤ fuel) (h : Reading content maxBytes last first stop size lastBreak) :
    ∃ size', Reading content maxBytes last first (advance content maxBytes last fuel stop size lastBreak).1 size'
        (advance content maxBytes last fuel stop size lastBreak).2 ∧
      ((advance content maxBytes last fuel stop size lastBreak).1 = last ∨
        maxBytes < size' +
          (content.getD (advance content maxBytes last fuel stop size lastBreak).1 ' ').utf8Size) := by
  induction fuel generalizing stop size lastBreak with
  | zero =>
    have := h.le_last
    exact ⟨size, h, .inl (show stop = last by omega)⟩
  | succ fuel ih =>
    simp only [advance]
    split
    · rename_i hs
      split
      · exact ⟨size, h, .inr ‹_›⟩
      · rename_i hw
        exact ih _ _ _ (by omega) (h.step hl hs (Nat.le_of_not_lt hw))
    · rename_i hs
      have := h.le_last
      exact ⟨size, h, .inl (show stop = last by omega)⟩

/-- A piece fits into the limit, and ends in the middle of a line only if it has no line break. -/
structure Fits (content : Text) (maxBytes last first stop : Nat) : Prop where
  lt : first < stop
  le : stop ≤ last
  size : utf8Length (slice content first stop) ≤ maxBytes
  line : stop = last ∨ stop ∈ lineStarts content ∨ ∀ p ∈ lineStarts content, first < p → stop < p

theorem chunkEnd_fits {maxBytes last first : Nat} (hm : 4 ≤ maxBytes) (hl : last ≤ content.length)
    (hf : first < last) : Fits content maxBytes last first (chunkEnd content maxBytes first last) := by
  obtain ⟨size, hr, hend⟩ := advance_reading hl (last - first) first 0 first le_rfl (Reading.start hf.le)
  unfold chunkEnd
  generalize advance content maxBytes last (last - first) first 0 first = r at hr hend
  obtain ⟨stop, lastBreak⟩ := r
  dsimp only at hr hend ⊢
  have hlt : first < stop := by
    rcases hend with rfl | hover
    · exact hf
    · rcases Nat.lt_or_eq_of_le hr.first_le with h | h
      · exact h
      · -- the first character always fits
        have hsize : size = 0 := by rw [hr.size_eq, ← h]; simp [slice, utf8Length]
        have hwidth : (content.getD stop ' ').utf8Size ≤ 4 := Char.utf8Size_le_four _
        omega
  have hsize : utf8Length (slice content first stop) ≤ maxBytes := hr.size_eq ▸ hr.fits
  have hstop := hr.le_last
  have hbreak := hr.break_le
  split
  · rename_i h
    obtain ⟨hs, hb⟩ := h
    refine ⟨hb, by omega, (utf8Length_slice_mono hb.le hbreak).trans hsize, .inr (.inl ?_)⟩
    exact (endsLine_iff (by omega) (by omega)).1 (hr.break_line.resolve_left hb.ne')
  · rename_i h
    refine ⟨hlt, hstop, hsize, ?_⟩
    rcases Nat.lt_or_eq_of_le hstop with hs | hs
    · refine .inr (.inr fun p hp hfp => Nat.lt_of_not_le fun hps => ?_)
      have hle := hr.latest p hfp hps ((endsLine_iff (by omega) (by omega)).2 hp)
      omega
    · exact .inl hs

/-- A span is cut into pieces that fit. -/
theorem cuts_tiles {γ : Type} {maxBytes last : Nat} (hm : 4 ≤ maxBytes) (hl : last ≤ content.length) (label : γ)
    (fuel first : Nat) (hf : first ≤ last) (hfuel : last - first ≤ fuel) :
    Tiles first last ((cuts content maxBytes last fuel first).map fun p => (p.1, p.2, label)) ∧
      ∀ p ∈ cuts content maxBytes last fuel first, Fits content maxBytes last p.1 p.2 := by
  induction fuel generalizing first with
  | zero => exact ⟨show first = last by omega, List.forall_mem_nil _⟩
  | succ fuel ih =>
    simp only [cuts]
    split
    · rename_i hlt
      have hfit := chunkEnd_fits hm hl hlt
      have hstop := hfit.lt
      obtain ⟨htiles, hfits⟩ := ih (chunkEnd content maxBytes first last) hfit.le (by omega)
      exact ⟨⟨rfl, hstop.le, htiles⟩, List.forall_mem_cons.2 ⟨hfit, hfits⟩⟩
    · exact ⟨show first = last by omega, List.forall_mem_nil _⟩

/-! ### Regions and gaps -/

/-- The symbols of a source: parents come before their children, and lines are lines of the text. -/
structure Outline (content : Text) (symbols : List Symbol) : Prop where
  parents : ∀ (i : Nat) (s : Symbol) (p : Nat), symbols[i]? = some s → s.parent = some p → p < i
  first : ∀ s ∈ symbols, 1 ≤ s.startLine
  order : ∀ s ∈ symbols, s.startLine ≤ s.endLine
  last : ∀ s ∈ symbols, s.endLine ≤ (lineStarts content).length

/-- The offset at which line `n` starts; the end of the text behind the last line. -/
def lineOffset (content : Text) (n : Nat) : Nat := (lineStarts content).getD (n - 1) content.length

/-- The region of symbol `i`. -/
def regionOf (content : Text) (p : Symbol × Nat) : Nat × Nat × Nat :=
  (lineOffset content p.1.startLine, lineOffset content (p.1.endLine + 1), p.2)

/-- An offset at which a line starts, or the end of the text. -/
def Boundary (content : Text) (o : Nat) : Prop := o = content.length ∨ o ∈ lineStarts content

theorem Boundary.le {o : Nat} (h : Boundary content o) : o ≤ content.length := by
  rcases h with rfl | h
  · exact le_rfl
  · exact le_of_mem_lineStarts h

theorem lineOffset_boundary (n : Nat) : Boundary content (lineOffset content n) := by
  unfold lineOffset
  by_cases h : n - 1 < (lineStarts content).length
  · rw [List.getD_eq_getElem _ _ h]
    exact .inr (List.getElem_mem h)
  · rw [List.getD_eq_default _ _ (Nat.le_of_not_lt h)]
    exact .inl rfl

theorem lineOffset_mono {m n : Nat} (h : m ≤ n) : lineOffset content m ≤ lineOffset content n := by
  unfold lineOffset
  by_cases hn : n - 1 < (lineStarts content).length
  · have hm : m - 1 < (lineStarts content).length := by omega
    rw [List.getD_eq_getElem _ _ hn, List.getD_eq_getElem _ _ hm]
    rcases Nat.lt_or_eq_of_le (show m - 1 ≤ n - 1 by omega) with hlt | heq
    · exact (List.pairwise_iff_getElem.1 (lineStarts_sorted content) _ _ hm hn hlt).le
    · simp only [heq, le_refl]
  · rw [List.getD_eq_default _ _ (Nat.le_of_not_lt hn)]
    exact (lineOffset_boundary m).le

theorem region_eq {symbols : List Symbol} (h : Outline content symbols) {s : Symbol} (hs : s ∈ symbols) (i : Nat) :
    region content (lineStarts content) s i = some (regionOf content (s, i)) := by
  have hfirst := h.first s hs
  have hlt : s.startLine - 1 < (lineStarts content).length := by
    have h1 := h.order s hs
    have h2 := h.last s hs
    omega
  unfold region regionOf lineOffset
  rw [if_neg (by omega), List.getElem?_eq_getElem hlt, List.getD_eq_getElem _ _ hlt, Nat.add_sub_cancel]
  rfl

theorem mapM_eq_map {β γ : Type} {f : β → Option γ} {g : β → γ} {l : List β} (h : ∀ x ∈ l, f x = some (g x)) :
    l.mapM f = some (l.map g) := by
  induction l with
  | nil => rfl
  | cons x l ih =>
    rw [List.mapM_cons, h x List.mem_cons_self, ih fun y hy => h y (List.mem_cons_of_mem _ hy)]
    rfl

theorem exists_of_mem_mapM {β γ : Type} {f : β → Option γ} {l : List β} {rs : List γ} (h : l.mapM f = some rs) {r : γ}
    (hr : r ∈ rs) : ∃ x ∈ l, f x = some r := by
  induction l generalizing rs with
  | nil =>
    cases h
    cases hr
  | cons x l ih =>
    rw [List.mapM_cons] at h
    obtain ⟨y, hy, h⟩ := Option.bind_eq_some_iff.1 h
    obtain ⟨rest, hrest, h⟩ := Option.bind_eq_some_iff.1 h
    cases h
    rcases List.mem_cons.1 hr with rfl | hr
    · exact ⟨x, List.mem_cons_self, hy⟩
    · obtain ⟨z, hz, hzr⟩ := ih hrest hr
      exact ⟨z, List.mem_cons_of_mem _ hz, hzr⟩

/-- The symbols with regions, and where they are in the list. -/
def regionSymbols (symbols : List Symbol) : List (Symbol × Nat) :=
  symbols.zipIdx.filter fun p => hasRegion symbols p.1 p.2

theorem mem_regionSymbols {symbols : List Symbol} {p : Symbol × Nat} :
    p ∈ regionSymbols symbols ↔ symbols[p.2]? = some p.1 ∧ hasRegion symbols p.1 p.2 = true := by
  unfold regionSymbols
  rw [List.mem_filter, List.mem_zipIdx_iff_getElem?]

theorem regions_eq {symbols : List Symbol} (h : Outline content symbols) :
    regions content (lineStarts content) symbols = some ((regionSymbols symbols).map (regionOf content)) :=
  mapM_eq_map fun p hp => region_eq h (List.mem_of_getElem? (mem_regionSymbols.1 hp).1) p.2

/-- Regions between boundaries of lines. -/
def Bounded (content : Text) (rs : List (Nat × Nat × Nat)) : Prop :=
  ∀ r ∈ rs, Boundary content r.1 ∧ Boundary content r.2.1 ∧ r.1 ≤ r.2.1

theorem bounded_regions {symbols : List Symbol} (h : Outline content symbols) :
    Bounded content ((regionSymbols symbols).map (regionOf content)) := by
  intro r hr
  obtain ⟨p, hp, rfl⟩ := List.mem_map.1 hr
  refine ⟨lineOffset_boundary _, lineOffset_boundary _, lineOffset_mono ?_⟩
  have := h.order p.1 (List.mem_of_getElem? (mem_regionSymbols.1 hp).1)
  omega

/-- Regions and gaps tile the text from the cursor on. -/
theorem spans_tiles {rs : List (Nat × Nat × Nat)} (h : Bounded content rs) {cursor : Nat}
    (hc : cursor ≤ content.length) : Tiles cursor content.length (spans content.length cursor rs) := by
  induction rs generalizing cursor with
  | nil =>
    simp only [spans]
    split
    · exact .singleton hc
    · exact Nat.le_antisymm hc (Nat.le_of_not_lt ‹_›)
  | cons r rs ih =>
    obtain ⟨first, last, i⟩ := r
    obtain ⟨⟨hfirst, hlast, hle⟩, hrs⟩ := List.forall_mem_cons.1 h
    simp only [spans]
    split
    · exact ih hrs hc
    · rename_i hcursor
      have hspan : Tiles first content.length ((first, last, some i) :: spans content.length last rs) :=
        ⟨rfl, hle, ih hrs hlast.le⟩
      split
      · exact (Tiles.singleton (Nat.le_of_not_lt hcursor)).append hspan
      · obtain rfl : cursor = first := by omega
        exact hspan

theorem spans_boundary {rs : List (Nat × Nat × Nat)} (h : Bounded content rs) {cursor : Nat}
    {p : Nat × Nat × Option Nat} (hp : p ∈ spans content.length cursor rs) : Boundary content p.2.1 := by
  induction rs generalizing cursor with
  | nil =>
    simp only [spans] at hp
    split at hp
    · rw [List.mem_singleton.1 hp]
      exact .inl rfl
    · cases hp
  | cons r rs ih =>
    obtain ⟨first, last, i⟩ := r
    obtain ⟨⟨hfirst, hlast, -⟩, hrs⟩ := List.forall_mem_cons.1 h
    simp only [spans] at hp
    split at hp
    · exact ih hrs hp
    · rcases List.mem_append.1 hp with hp | hp
      · split at hp
        · rw [List.mem_singleton.1 hp]
          exact hfirst
        · cases hp
      · rcases List.mem_cons.1 hp with rfl | hp
        · exact hlast
        · exact ih hrs hp

/-! ### The chunks -/

/-- The spans of a source. -/
def sourceSpans (content : Text) (symbols : List Symbol) : List (Nat × Nat × Option Nat) :=
  spans content.length 0 (((regionSymbols symbols).map (regionOf content)).insertionSort regionLe)

/-- The pieces of a source, with the symbols they belong to. -/
def sourcePieces (content : Text) (symbols : List Symbol) (maxBytes : Nat) : List (Nat × Nat × Option Nat) :=
  (sourceSpans content symbols).flatMap fun p =>
    (cuts content maxBytes p.2.1 (p.2.1 - p.1) p.1).map fun q => (q.1, q.2, p.2.2)

/-- The chunk made of a piece. -/
def chunkOf (sha256 : Text → Text) (content : Text) (mode : String) (p : (Nat × Nat × Option Nat) × Nat) : Chunk where
  ordinal := p.2
  startOffset := p.1.1
  endOffset := p.1.2.1
  startLine := bisectRight (lineStarts content) p.1.1
  endLine := bisectRight (lineStarts content) (p.1.2.1 - 1)
  symbolOrdinal := p.1.2.2
  kind := if p.1.2.2.isSome then "symbol" else mode
  content := slice content p.1.1 p.1.2.1
  contentHash := sha256 (slice content p.1.1 p.1.2.1)

theorem chunkSource_eq {sha256 : Text → Text} {symbols : List Symbol} {mode : String} {maxBytes : Nat}
    (h : Outline content symbols) (hm : 4 ≤ maxBytes) :
    chunkSource sha256 content symbols mode maxBytes =
      .ok ((sourcePieces content symbols maxBytes).zipIdx.map (chunkOf sha256 content mode)) := by
  unfold chunkSource
  rw [if_neg (Nat.not_lt.2 hm)]
  dsimp only
  rw [regions_eq h]
  rfl

theorem bounded_sorted {symbols : List Symbol} (h : Outline content symbols) :
    Bounded content (((regionSymbols symbols).map (regionOf content)).insertionSort regionLe) :=
  fun r hr => bounded_regions h r ((List.perm_insertionSort _ _).mem_iff.1 hr)

theorem sourceSpans_tiles {symbols : List Symbol} (h : Outline content symbols) :
    Tiles 0 content.length (sourceSpans content symbols) :=
  spans_tiles (bounded_sorted h) (Nat.zero_le _)

/-- A piece that fits, at the ends of lines or in the middle of a line that does not. -/
structure Piece (content : Text) (maxBytes first stop : Nat) : Prop where
  lt : first < stop
  size : utf8Length (slice content first stop) ≤ maxBytes
  line : Boundary content stop ∨ ∀ p ∈ lineStarts content, first < p → stop < p

theorem sourcePieces_tiles {symbols : List Symbol} {maxBytes : Nat} (h : Outline content symbols)
    (hm : 4 ≤ maxBytes) : Tiles 0 content.length (sourcePieces content symbols maxBytes) ∧
      ∀ p ∈ sourcePieces content symbols maxBytes, Piece content maxBytes p.1 p.2.1 := by
  have hspans := sourceSpans_tiles h
  have hcut : ∀ p ∈ sourceSpans content symbols, _ := fun p hp =>
    cuts_tiles hm (hspans.mem hp).2.2 p.2.2 (p.2.1 - p.1) p.1 (hspans.mem hp).2.1 le_rfl
  refine ⟨hspans.flatMap fun p hp => (hcut p hp).1, fun q hq => ?_⟩
  obtain ⟨p, hp, hq⟩ := List.mem_flatMap.1 hq
  obtain ⟨c, hc, rfl⟩ := List.mem_map.1 hq
  have hfit := (hcut p hp).2 c hc
  refine ⟨hfit.lt, hfit.size, ?_⟩
  rcases hfit.line with hl | hl | hl
  · left
    have hb : Boundary content p.2.1 := spans_boundary (bounded_sorted h) hp
    rwa [← hl] at hb
  · exact .inl (.inr hl)
  · exact .inr hl

/-- The chunks cover the text exactly: numbered consecutive slices, none empty and none too long, with
the lines of their first and last characters; one ends in the middle of a line only if it has no line
break. -/
structure Covers (content : Text) (maxBytes : Nat) (chunks : List Chunk) : Prop where
  ordinals : chunks.map (·.ordinal) = List.range chunks.length
  contiguous : Tiles 0 content.length (chunks.map fun c => (c.startOffset, c.endOffset, c.symbolOrdinal))
  exact : ∀ c ∈ chunks, Exact content c
  whole : (chunks.map (·.content)).flatten = content
  nonempty : ∀ c ∈ chunks, c.startOffset < c.endOffset ∧ c.content ≠ []
  size : ∀ c ∈ chunks, utf8Length c.content ≤ maxBytes
  startLine : ∀ c ∈ chunks, c.startLine = lineAt content c.startOffset
  endLine : ∀ c ∈ chunks, c.endLine = lineAt content (c.endOffset - 1)
  line : ∀ c ∈ chunks, c.endOffset = content.length ∨ c.endOffset ∈ lineStarts content ∨
    ∀ p ∈ lineStarts content, c.startOffset < p → c.endOffset < p

/-- Every source is chunked, and its chunks cover it. -/
theorem chunkSource_covers (sha256 : Text → Text) (content : Text) (symbols : List Symbol) (mode : String)
    (maxBytes : Nat) (h : Outline content symbols) (hm : 4 ≤ maxBytes) :
    ∃ chunks, chunkSource sha256 content symbols mode maxBytes = .ok chunks ∧ Covers content maxBytes chunks := by
  refine ⟨_, chunkSource_eq h hm, ?_⟩
  obtain ⟨htiles, hpieces⟩ := sourcePieces_tiles h hm
  generalize sourcePieces content symbols maxBytes = ps at htiles hpieces
  have hmem : ∀ c ∈ ps.zipIdx.map (chunkOf sha256 content mode), ∃ p ∈ ps, ∃ i,
    c = chunkOf sha256 content mode (p, i) := by
    intro c hc
    obtain ⟨⟨p, i⟩, hp, rfl⟩ := List.mem_map.1 hc
    exact ⟨p, List.fst_mem_of_mem_zipIdx hp, i, rfl⟩
  have hlabels : (ps.zipIdx.map (chunkOf sha256 content mode)).map
      (fun c => (c.startOffset, c.endOffset, c.symbolOrdinal)) = ps := by
    rw [List.map_map]
    exact List.zipIdx_map_fst 0 ps
  constructor
  · rw [List.map_map, List.length_map, List.length_zipIdx]
    exact (List.zipIdx_map_snd 0 ps).trans (List.range_eq_range' ▸ rfl)
  · rw [hlabels]
    exact htiles
  · intro c hc
    obtain ⟨p, -, i, rfl⟩ := hmem c hc
    exact rfl
  · have hcontents : (ps.zipIdx.map (chunkOf sha256 content mode)).map (·.content) =
        ps.map fun p => piece content p.1 p.2.1 := by
      conv_rhs => rw [← hlabels]
      rw [List.map_map, List.map_map, List.map_map]
      rfl
    rw [hcontents, htiles.flatten content, piece_all]
  · intro c hc
    obtain ⟨p, hp, i, rfl⟩ := hmem c hc
    refine ⟨(hpieces p hp).lt, fun he => ?_⟩
    have hlen := length_piece (i := p.1) content (htiles.mem hp).2.2
    have := (hpieces p hp).lt
    have hzero : (slice content p.1 p.2.1).length = 0 := congrArg List.length he
    rw [slice_eq_piece] at hzero
    omega
  · intro c hc
    obtain ⟨p, hp, i, rfl⟩ := hmem c hc
    exact (hpieces p hp).size
  · intro c hc
    obtain ⟨p, hp, i, rfl⟩ := hmem c hc
    exact bisectRight_lineStarts _
  · intro c hc
    obtain ⟨p, hp, i, rfl⟩ := hmem c hc
    exact bisectRight_lineStarts _
  · intro c hc
    obtain ⟨p, hp, i, rfl⟩ := hmem c hc
    rcases (hpieces p hp).line with (hl | hl) | hl
    · exact .inl hl
    · exact .inr (.inl hl)
    · exact .inr (.inr hl)

/-! ### Sizes -/

theorem cuts_size {maxBytes last : Nat} (hm : 4 ≤ maxBytes) (hl : last ≤ content.length) (fuel first : Nat) :
    ∀ p ∈ cuts content maxBytes last fuel first, utf8Length (slice content p.1 p.2) ≤ maxBytes := by
  induction fuel generalizing first with
  | zero => exact List.forall_mem_nil _
  | succ fuel ih =>
    simp only [cuts]
    split
    · exact List.forall_mem_cons.2 ⟨(chunkEnd_fits hm hl ‹_›).size, ih _⟩
    · exact List.forall_mem_nil _

theorem spans_last {n cursor : Nat} {rs : List (Nat × Nat × Nat)} (h : ∀ r ∈ rs, r.1 ≤ n ∧ r.2.1 ≤ n) :
    ∀ p ∈ spans n cursor rs, p.2.1 ≤ n := by
  induction rs generalizing cursor with
  | nil =>
    unfold spans
    split
    · exact List.forall_mem_singleton.2 le_rfl
    · exact List.forall_mem_nil _
  | cons r rs ih =>
    obtain ⟨first, last, i⟩ := r
    obtain ⟨⟨hfirst, hlast⟩, hrs⟩ := List.forall_mem_cons.1 h
    unfold spans
    split
    · exact ih hrs
    · refine List.forall_mem_append.2 ⟨?_, List.forall_mem_cons.2 ⟨hlast, ih hrs⟩⟩
      split
      · exact List.forall_mem_singleton.2 hfirst
      · exact List.forall_mem_nil _

/-- Regions lie in the text, whatever the lines of the symbols. -/
theorem regions_le {symbols : List Symbol} {rs : List (Nat × Nat × Nat)}
    (h : regions content (lineStarts content) symbols = some rs) :
    ∀ r ∈ rs, r.1 ≤ content.length ∧ r.2.1 ≤ content.length := by
  intro r hr
  obtain ⟨p, -, hp⟩ := exists_of_mem_mapM h hr
  have hat : ∃ first ∈ lineStarts content, r = (first, (lineStarts content).getD p.1.endLine content.length, p.2) := by
    unfold region at hp
    dsimp only at hp
    split at hp
    · obtain ⟨first, hfirst, hp⟩ := Option.bind_eq_some_iff.1 hp
      exact ⟨first, List.mem_of_getLast? hfirst, (Option.some.inj hp).symm⟩
    · obtain ⟨first, hfirst, hp⟩ := Option.bind_eq_some_iff.1 hp
      exact ⟨first, List.mem_of_getElem? hfirst, (Option.some.inj hp).symm⟩
  obtain ⟨first, hfirst, rfl⟩ := hat
  refine ⟨le_of_mem_lineStarts hfirst, ?_⟩
  dsimp only
  rw [List.getD_eq_getElem?_getD]
  cases hlast : (lineStarts content)[p.1.endLine]? with
  | none => exact le_rfl
  | some o => exact le_of_mem_lineStarts (List.mem_of_getElem? hlast)

/-- No chunk is too long. -/
theorem size_of_chunkSource {sha256 : Text → Text} {symbols : List Symbol} {mode : String} {maxBytes : Nat}
    {chunks : List Chunk} (hm : 4 ≤ maxBytes) (h : chunkSource sha256 content symbols mode maxBytes = .ok chunks) :
    ∀ c ∈ chunks, utf8Length c.content ≤ maxBytes := by
  unfold chunkSource at h
  rw [if_neg (Nat.not_lt.2 hm)] at h
  dsimp only at h
  split at h
  · cases h
  · rename_i rs hrs
    cases h
    intro c hc
    obtain ⟨⟨⟨first, stop, symbol⟩, ordinal⟩, hp, rfl⟩ := List.mem_map.1 hc
    obtain ⟨span, hspan, hp⟩ := List.mem_flatMap.1 (List.fst_mem_of_mem_zipIdx hp)
    obtain ⟨q, hq, he⟩ := List.mem_map.1 hp
    cases he
    refine cuts_size hm (spans_last (fun r hr => ?_) span hspan) _ _ q hq
    exact regions_le hrs r ((List.perm_insertionSort _ _).mem_iff.1 hr)

/-- Two lines, the first of which is a definition. -/
def sample : Text × List Symbol :=
  ("def f(): 1\r\nf()".toList, [⟨"f".toList, "f".toList, "function", none, 1, 1, none, none⟩])

theorem sample_outline : Outline sample.1 sample.2 := by
  refine ⟨fun i s p hs hp => ?_, by decide, by decide, by decide⟩
  rw [List.mem_singleton.1 (List.mem_of_getElem? hs)] at hp
  cases hp

theorem chunkSource_covers_sample :
    ∃ chunks, chunkSource id sample.1 sample.2 "module" 4 = .ok chunks ∧ Covers sample.1 4 chunks :=
  chunkSource_covers id sample.1 sample.2 "module" 4 sample_outline (by decide)

end Source
end RepoPilot
