import RepoPilot.Answers

/-! # The preview of a streamed answer

`PreviewWriter` shows what has been streamed so far: at most one write in a quarter of a second, never the same
text twice, and only text that its column can store. -/

namespace RepoPilot
open Generation Answers

/-! ### Text that a column can store -/

namespace PreviewText

/-- A character of a string; it may be an unpaired surrogate. -/
abbrev CodePoint := Fin 0x110000

def Surrogate (c : CodePoint) : Prop := 0xD800 ≤ c.val ∧ c.val ≤ 0xDFFF

instance : DecidablePred Surrogate := fun c => inferInstanceAs (Decidable (0xD800 ≤ c.val ∧ c.val ≤ 0xDFFF))

def ofChar (c : Char) : CodePoint := ⟨c.toNat, by
  rcases c.valid with h | h
  · exact h.trans (by decide)
  · exact h.2⟩

/-- A character of `.encode("utf-8", errors="replace").decode()`. -/
def recode (c : CodePoint) : Char := if Surrogate c then '?' else Char.ofNat c.val

/-- What the parser finds in a partial object. -/
inductive Value
  | str (s : List CodePoint)
  | arr (xs : List Value)
  | obj (kvs : List (List CodePoint × Value))
  | other

def member (kvs : List (List CodePoint × Value)) (key : String) : Option Value :=
  kvs.reverse.lookup (key.toList.map ofChar)

def claimText : Value → Option (List CodePoint)
  | .obj kvs =>
    match member kvs "text" with
    | some (.str s) => some (s.take 1800)
    | _ => none
  | _ => none

def claimTexts (data : List (List CodePoint × Value)) : List (List CodePoint) :=
  match member data "claims" with
  | some (.arr xs) => (xs.take 8).filterMap claimText
  | _ => []

def limitationText (data : List (List CodePoint × Value)) : List (List CodePoint) :=
  match member data "limitation" with
  | some (.str s) => [s.take 1200]
  | _ => []

/-- `preview_text` after the parse; nothing is parsed from what does not begin an object. -/
def previewText : Option (List (List CodePoint × Value)) → Text
  | none => []
  | some data =>
    (((("\n\n".toList.map ofChar).intercalate ((claimTexts data ++ limitationText data).filter (· ≠ []))).take 8000).filter
      (· ≠ 0)).map recode

/-- At most 8000 characters, none of them NUL or a surrogate. -/
def Storable (text : Text) : Prop :=
  text.length ≤ 8000 ∧ ∀ c ∈ text, c.toNat ≠ 0 ∧ ¬ (0xD800 ≤ c.toNat ∧ c.toNat ≤ 0xDFFF)

theorem not_surrogate_ofChar (c : Char) : ¬ Surrogate (ofChar c) := by
  rintro ⟨h, h'⟩
  change 0xD800 ≤ c.toNat at h
  change c.toNat ≤ 0xDFFF at h'
  rcases c.valid with hv | hv
  · exact absurd hv (Nat.not_lt.2 h)
  · exact absurd hv.1 (Nat.not_lt.2 h')

theorem recode_ofChar (c : Char) : recode (ofChar c) = c := by
  unfold recode
  rw [if_neg (not_surrogate_ofChar c)]
  exact Char.ofNat_toNat c

theorem ofChar_injective : Function.Injective ofChar := Function.LeftInverse.injective recode_ofChar

theorem toNat_recode {c : CodePoint} (h : ¬ Surrogate c) : (recode c).toNat = c.val := by
  unfold recode
  rw [if_neg h, Char.toNat_ofNat, if_pos]
  unfold Surrogate at h
  have hc := c.isLt
  show c.val < 0xD800 ∨ 0xDFFF < c.val ∧ c.val < 0x110000
  omega

theorem recode_ne_zero {c : CodePoint} (h : c ≠ 0) : (recode c).toNat ≠ 0 := by
  by_cases hs : Surrogate c
  · unfold recode
    rw [if_pos hs]
    decide
  · rw [toNat_recode hs]
    exact fun he => h (Fin.ext he)

/-- Whatever the parser finds, the preview can be stored. -/
theorem previewText_storable (data : Option (List (List CodePoint × Value))) : Storable (previewText data) := by
  cases data with
  | none => exact ⟨Nat.zero_le _, nofun⟩
  | some data =>
    refine ⟨?_, fun c hc => ?_⟩
    · unfold previewText
      rw [List.length_map]
      exact (List.length_filter_le _ _).trans (List.length_take_le _ _)
    · obtain ⟨p, hp, rfl⟩ := List.mem_map.1 hc
      have hne : p ≠ 0 := of_decide_eq_true (List.mem_filter.1 hp).2
      refine ⟨recode_ne_zero hne, fun hs => ?_⟩
      rcases (recode p).valid with hv | hv
      · exact absurd hv (Nat.not_lt.2 hs.1)
      · exact absurd hv.1 (Nat.not_lt.2 hs.2)

/-! ### Text without surrogates -/

def ofJson : Json → Value
  | .str s => .str (s.map ofChar)
  | .arr xs => .arr (xs.map ofJson)
  | .obj kvs => .obj (kvs.map fun p => (p.1.map ofChar, ofJson p.2))
  | _ => .other
decreasing_by
  · have hx := List.sizeOf_lt_of_mem ‹_ ∈ xs›
    simp only [Json.arr.sizeOf_spec]
    omega
  · obtain ⟨key, value⟩ := p
    have hp := List.sizeOf_lt_of_mem ‹_ ∈ kvs›
    simp only [Prod.mk.sizeOf_spec, Json.obj.sizeOf_spec] at hp ⊢
    omega

def members (kvs : List (Text × Json)) : List (List CodePoint × Value) := kvs.map fun p => (p.1.map ofChar, ofJson p.2)

theorem lookup_map_key {β γ : Type} (f : β → γ) (key : Text) (kvs : List (Text × β)) :
    (kvs.map fun p => (p.1.map ofChar, f p.2)).lookup (key.map ofChar) = (kvs.lookup key).map f := by
  induction kvs with
  | nil => rfl
  | cons p kvs ih =>
    have hkey : (key.map ofChar == p.1.map ofChar) = (key == p.1) := by
      by_cases he : key = p.1
      · rw [he, BEq.rfl, BEq.rfl]
      · rw [beq_false_of_ne he, beq_false_of_ne fun h => he (List.map_injective_iff.2 ofChar_injective h)]
    rw [List.map_cons, List.lookup_cons, List.lookup_cons, hkey, ih]
    cases key == p.1 <;> rfl

theorem member_members (kvs : List (Text × Json)) (key : String) :
    member (members kvs) key = (Generation.member kvs key).map ofJson := by
  unfold member members Generation.member
  rw [← List.map_reverse]
  exact lookup_map_key ofJson key.toList kvs.reverse

theorem claimText_ofJson (x : Json) : claimText (ofJson x) = (Generation.claimText x).map (·.map ofChar) := by
  cases x with
  | obj kvs =>
    have hm := member_members kvs "text"
    unfold members at hm
    unfold claimText Generation.claimText
    rw [ofJson]
    dsimp only
    rw [hm]
    cases Generation.member kvs "text" with
    | none => rfl
    | some v =>
      cases v with
      | str s =>
        rw [Option.map_some, ofJson]
        exact congrArg some (List.map_take ..).symm
      | _ => simp [ofJson]
  | _ => simp [ofJson, claimText, Generation.claimText]

theorem claimTexts_members (kvs : List (Text × Json)) :
    claimTexts (members kvs) = (Generation.claimTexts kvs).map (·.map ofChar) := by
  unfold claimTexts Generation.claimTexts
  rw [member_members]
  cases Generation.member kvs "claims" with
  | none => rfl
  | some v =>
    cases v with
    | arr xs =>
      rw [Option.map_some, ofJson]
      dsimp only
      rw [← List.map_take, List.filterMap_map, List.map_filterMap]
      exact List.filterMap_congr fun x _ => claimText_ofJson x
    | _ => simp [ofJson]

theorem limitationText_members (kvs : List (Text × Json)) :
    limitationText (members kvs) = (Generation.limitationText kvs).map (·.map ofChar) := by
  unfold limitationText Generation.limitationText
  rw [member_members]
  cases Generation.member kvs "limitation" with
  | none => rfl
  | some v =>
    cases v with
    | str s =>
      rw [Option.map_some, ofJson]
      exact congrArg (fun l => [l]) (List.map_take ..).symm
    | _ => simp [ofJson]

theorem map_intercalate {α β : Type} (f : α → β) (sep : List α) (xs : List (List α)) :
    (sep.intercalate xs).map f = (sep.map f).intercalate (xs.map (·.map f)) := by
  induction xs with
  | nil => rfl
  | cons x xs ih =>
    cases xs with
    | nil => rw [List.intercalate_singleton, List.map_singleton, List.intercalate_singleton]
    | cons y ys =>
      rw [List.intercalate_cons_cons, List.map_append, List.map_append, ih]
      exact List.intercalate_cons_cons.symm

/-- The preview of text without surrogates is the one that the answer pipeline writes. -/
theorem previewText_members (env : Env) (raw : Text) :
    Generation.previewText env raw = previewText
      (match env.partialObject raw with
        | some (.obj kvs) => some (members kvs)
        | _ => none) := by
  unfold Generation.previewText
  cases env.partialObject raw with
  | none => rfl
  | some v =>
    cases v with
    | obj kvs =>
      have hne : ((fun t : List CodePoint => decide (t ≠ [])) ∘ fun t : Text => t.map ofChar) = fun t => decide (t ≠ []) :=
        funext fun t => decide_eq_decide.2 (not_congr List.map_eq_nil_iff)
      have hzero : ((fun c : CodePoint => decide (c ≠ 0)) ∘ ofChar) = fun c => decide (c ≠ Char.ofNat 0) :=
        funext fun c => decide_eq_decide.2 (not_congr ⟨fun h => ofChar_injective h, fun h => h ▸ rfl⟩)
      have hback : recode ∘ ofChar = id := funext recode_ofChar
      dsimp only
      unfold previewText
      dsimp only
      rw [claimTexts_members, limitationText_members, ← List.map_append, List.filter_map, hne, ← map_intercalate,
        ← List.map_take, List.filter_map, hzero, List.map_map, hback, List.map_id]
    | _ => rfl

theorem storable (env : Env) (raw : Text) : Storable (Generation.previewText env raw) := by
  rw [previewText_members]
  exact previewText_storable _

end PreviewText

/-! ### What goes through one writer -/

/-- A preview that was stored, and the reading of the clock. -/
structure Write where
  clock : Time
  text : Text

/-- What was streamed to a writer, when, and what it stored. -/
structure Stream where
  output : Text
  readings : List Time
  writes : List Write

namespace Stream
variable {env : Env} {now : Time} {runId token : Uuid} {value : Text} {clock : Time} {p p' : Preview} {t t' : Tables}
  {g : Stream}

def empty : Stream := ⟨[], [], []⟩

/-- One more delta. -/
def delivered (g : Stream) (value : Text) (clock : Time) (written : Option Text) : Stream :=
  ⟨g.output ++ value, g.readings ++ [clock], g.writes ++ written.toList.map (⟨clock, ·⟩)⟩

/-- The fields of the writer. -/
structure Matches (g : Stream) (p : Preview) : Prop where
  raw : p.raw = g.output
  previous : p.previous = (g.writes.getLast?.map (·.text)).getD []
  writtenAt : p.writtenAt = g.writes.getLast?.map (·.clock)

/-- Writes are a quarter of a second apart, change the text, and show a prefix of the output. -/
structure Paced (env : Env) (g : Stream) : Prop where
  apart : g.writes.IsChain fun a b => a.clock + 250000 ≤ b.clock ∧ a.text ≠ b.text
  shown : ∀ w ∈ g.writes, ∃ raw, raw <+: g.output ∧ w.text = previewText env raw
  read : ∀ w ∈ g.writes, w.clock ∈ g.readings

/-- No two readings are more than a minute apart, as when they do not go back and end in time. -/
def Within (readings : List Time) : Prop := ∀ a ∈ readings, ∀ b ∈ readings, b ≤ a + seconds 60

theorem matches_empty : Matches empty .empty := ⟨rfl, rfl, rfl⟩

theorem paced_empty : Paced env empty := ⟨.nil, nofun, nofun⟩

/-- What the writer of a run raises that no longer accepts previews. -/
def stopped : AppError := ⟨"answer_stopped", "The answer run no longer accepts streamed output.", 409⟩

/-- What `delta` does: it skips, writes, or raises. -/
theorem delta_cases (env : Env) (now : Time) (runId token : Uuid) (value : Text) (clock : Time) (p : Preview)
    (t : Tables) :
    delta env now runId token value clock p t =
        .error ⟨"model_invalid", "Model output exceeds the stream limit.", 502⟩ ∨
      delta env now runId token value clock p t = .ok ({ p with raw := p.raw ++ value }, t) ∨
      delta env now runId token value clock p t = .error stopped ∧
        (¬ ∃ run ∈ t.runs, AcceptsPreview now runId token run) ∨
      (delta env now runId token value clock p t = .ok (⟨p.raw ++ value, previewText env (p.raw ++ value), some clock⟩,
          { t with runs :=
            Table.update (AcceptsPreview now runId token) (previewed (previewText env (p.raw ++ value))) t.runs }) ∧
        (∃ run ∈ t.runs, AcceptsPreview now runId token run) ∧ (∀ w ∈ p.writtenAt, w + 250000 ≤ clock) ∧
        previewText env (p.raw ++ value) ≠ p.previous) := by
  unfold delta
  dsimp only
  split
  · exact .inl rfl
  split
  · exact .inr (.inl rfl)
  rename_i hwait
  split
  · exact .inr (.inl rfl)
  rename_i hnew
  split
  · rename_i hrun
    refine .inr (.inr (.inr ⟨rfl, hrun, fun w hw => ?_, hnew⟩))
    have hle : ¬ clock - w < 250000 := fun h => hwait ⟨w, hw, h⟩
    linarith
  · exact .inr (.inr (.inl ⟨rfl, ‹_›⟩))

/-- A skipped delta only grows the output. -/
theorem Matches.skipped (h : g.Matches p) :
    (g.delivered value clock none).Matches { p with raw := p.raw ++ value } := by
  refine ⟨congrArg (· ++ value) h.raw, ?_, ?_⟩
  · exact h.previous.trans (by simp [delivered])
  · exact h.writtenAt.trans (by simp [delivered])

theorem Matches.written (h : g.Matches p) (text : Text) :
    (g.delivered value clock (some text)).Matches ⟨p.raw ++ value, text, some clock⟩ :=
  ⟨congrArg (· ++ value) h.raw, by simp [delivered], by simp [delivered]⟩

theorem Paced.skipped (h : g.Paced env) : (g.delivered value clock none).Paced env := by
  unfold delivered
  simp only [Option.toList_none, List.map_nil, List.append_nil]
  refine ⟨h.apart, fun w hw => ?_, fun w hw => List.mem_append_left _ (h.read w hw)⟩
  obtain ⟨raw, hraw, ht⟩ := h.shown w hw
  exact ⟨raw, hraw.trans (List.prefix_append _ _), ht⟩

theorem Paced.written (h : g.Paced env) (hm : g.Matches p) (hwait : ∀ w ∈ p.writtenAt, w + 250000 ≤ clock)
    (hnew : previewText env (p.raw ++ value) ≠ p.previous) :
    (g.delivered value clock (some (previewText env (p.raw ++ value)))).Paced env := by
  unfold delivered
  simp only [Option.toList_some, List.map_cons, List.map_nil]
  refine ⟨?_, fun w hw => ?_, fun w hw => ?_⟩
  · refine h.apart.append (.singleton _) fun a ha b hb => ?_
    rw [List.head?_cons, Option.mem_some_iff] at hb
    subst hb
    rw [Option.mem_def] at ha
    refine ⟨hwait a.clock ?_, fun he => hnew ?_⟩
    · rw [hm.writtenAt, ha]
      rfl
    · rw [hm.previous, ha]
      exact he.symm
  · rcases List.mem_append.1 hw with hw | hw
    · obtain ⟨raw, hraw, ht⟩ := h.shown w hw
      exact ⟨raw, hraw.trans (List.prefix_append _ _), ht⟩
    · rw [List.mem_singleton.1 hw]
      exact ⟨_, hm.raw ▸ List.prefix_refl _, rfl⟩
  · rcases List.mem_append.1 hw with hw | hw
    · exact List.mem_append_left _ (h.read w hw)
    · rw [List.mem_singleton.1 hw]
      exact List.mem_append_right _ (List.mem_singleton_self _)

/-- `n` writes take `n - 1` quarters of a second. -/
theorem elapsed_of_chain {w : Write} {ws : List Write}
    (h : (w :: ws).IsChain fun a b => a.clock + 250000 ≤ b.clock ∧ a.text ≠ b.text) :
    ∃ last ∈ w :: ws, w.clock + 250000 * ws.length ≤ last.clock := by
  induction ws generalizing w with
  | nil => exact ⟨w, List.mem_singleton_self _, by simp⟩
  | cons x ws ih =>
    obtain ⟨hx, h⟩ := List.isChain_cons_cons.1 h
    obtain ⟨last, hl, hle⟩ := ih h
    refine ⟨last, List.mem_cons_of_mem _ hl, ?_⟩
    have hstep := hx.1
    rw [List.length_cons]
    push_cast
    linarith

/-- Within the deadline there are at most 241 writes, fewer than a run accepts. -/
theorem Paced.length_le (h : g.Paced env) (hw : Within g.readings) : g.writes.length ≤ 241 := by
  have hapart := h.apart
  have hread := h.read
  cases hws : g.writes with
  | nil => exact Nat.zero_le _
  | cons w ws =>
    rw [hws] at hapart hread
    obtain ⟨last, hl, hle⟩ := elapsed_of_chain hapart
    have hspan := hw _ (hread w List.mem_cons_self) _ (hread last hl)
    have hsixty : seconds 60 = 60000000 := rfl
    have hquarters : (250000 : Int) * ws.length ≤ 60000000 := by linarith
    rw [List.length_cons]
    omega

end Stream
end RepoPilot
