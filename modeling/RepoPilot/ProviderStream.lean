import RepoPilot.Json
import RepoPilot.Source
import RepoPilot.Framing

/-! # The event stream of the model provider

`frames` reads network blocks: it decodes, normalises line ends, cuts at blank lines and checks sizes, all
of it for each block. Blocks cannot be told apart in what it yields exactly if what has arrived of an event
never exceeds the limit and no event precedes a byte that is not UTF-8, provided that nothing arrives behind a
`\r\r\n`: then the second normalisation of what is left of a block finds line breaks that were not there. -/

namespace RepoPilot
namespace ProviderStream
open Framing Source

/-- `ε` is what `json.loads` raises. -/
inductive Ending (ε : Type)
  | incomplete
  | streamBudget
  | eventBudget
  | notText
  | notJson (e : ε)
  | notObject

def maxStream : Nat := 2 * 1024 * 1024

def maxEvent : Nat := 256 * 1024

/-- `removeprefix(" ")`. -/
def dropBlank : Text → Text
  | ' ' :: cs => cs
  | cs => cs

/-- The `data:` lines of a frame. -/
def dataOf (frame : Text) : Text :=
  ['\n'].intercalate ((frame.splitOn '\n').filterMap fun line =>
    if "data:".toList.isPrefixOf line then some (dropBlank (line.drop 5)) else none)

variable {ε β : Type} (loads : Text → Except ε (Option β))

/-- The event of a frame, if it has data. `loads` is `json.loads`, with `none` for what is not an object. -/
def eventOf (frame : Text) : Except (Ending ε) (Option β) :=
  if dataOf frame = [] then .ok none
  else
    match loads (dataOf frame) with
    | .error e => .error (.notJson e)
    | .ok none => .error .notObject
    | .ok (some value) => .ok (some value)

/-- The frames of the buffer, as many as the fuel allows; the result is what was yielded, and what is left. -/
def takeFrames : Nat → Text → List β × Except (Ending ε) Text
  | 0, buffer => ([], .ok buffer)
  | n + 1, buffer =>
    match splitBlank buffer with
    | none => ([], .ok buffer)
    | some (frame, rest) =>
      if maxEvent < utf8Length frame then ([], .error .eventBudget)
      else
        match eventOf loads frame with
        | .error e => ([], .error e)
        | .ok event => (event.toList ++ (takeFrames n rest).1, (takeFrames n rest).2)

/-- The bytes the decoder holds back, the buffer and the number of bytes read. -/
structure Reader where
  pending : List UInt8
  buffer : Text
  total : Nat

/-- One block. -/
def Reader.feed (r : Reader) (block : List UInt8) : List β × Except (Ending ε) Reader :=
  if maxStream < r.total + block.length then ([], .error .streamBudget)
  else
    match decode r.pending block with
    | (_, none) => ([], .error .notText)
    | (text, some pending) =>
      let buffer := normalise (r.buffer ++ text)
      match takeFrames loads buffer.length buffer with
      | (yielded, .error e) => (yielded, .error e)
      | (yielded, .ok rest) =>
        if maxEvent < utf8Length rest then (yielded, .error .eventBudget)
        else (yielded, .ok ⟨pending, rest, r.total + block.length⟩)

def Reader.frames (r : Reader) : List (List UInt8) → List β × Ending ε
  | [] => ([], .incomplete)
  | block :: blocks =>
    match r.feed loads block with
    | (yielded, .error e) => (yielded, e)
    | (yielded, .ok r') => (yielded ++ (r'.frames blocks).1, (r'.frames blocks).2)

/-- `frames`: the events yielded, and how the stream ends. -/
def frames (blocks : List (List UInt8)) : List β × Ending ε := Reader.frames loads ⟨[], [], 0⟩ blocks

/-! ### The stream as a whole -/

/-- What is yielded of consecutive frames, and what ends it. -/
def consume : List Text → List β × Option (Ending ε)
  | [] => ([], none)
  | frame :: fs =>
    if maxEvent < utf8Length frame then ([], some .eventBudget)
    else
      match eventOf loads frame with
      | .error e => ([], some e)
      | .ok event => (event.toList ++ (consume fs).1, (consume fs).2)

variable {loads}

variable (loads) in
theorem takeFrames_eq {n : Nat} {s r : Text} {fs : List Text} (h : Cut s fs r) (hn : fs.length ≤ n) :
    takeFrames loads n s = ((consume loads fs).1,
      match (consume loads fs).2 with
      | some e => .error e
      | none => .ok r) := by
  induction h generalizing n with
  | rest hnone =>
    match n with
    | 0 => rfl
    | n + 1 =>
      simp only [takeFrames, hnone]
      rfl
  | part hsome hs ih =>
    match n, hn with
    | n + 1, hn =>
      simp only [takeFrames, hsome, consume]
      split
      · rfl
      · split
        · rfl
        · rw [ih (Nat.le_of_succ_le_succ hn)]

theorem consume_append {fs gs : List Text} (h : (consume loads fs).2 = none) :
    consume loads (fs ++ gs) = ((consume loads fs).1 ++ (consume loads gs).1, (consume loads gs).2) := by
  induction fs with
  | nil => rfl
  | cons f fs ih =>
    simp only [consume, List.cons_append] at h ⊢
    split
    · rw [if_pos ‹_›] at h
      cases h
    · rw [if_neg ‹_›] at h
      split at h
      · cases h
      · rw [ih h, List.append_assoc]

theorem consume_append_error {fs gs : List Text} {e : Ending ε} (h : (consume loads fs).2 = some e) :
    consume loads (fs ++ gs) = consume loads fs := by
  induction fs with
  | nil => cases h
  | cons f fs ih =>
    simp only [consume, List.cons_append] at h ⊢
    split
    · rfl
    · rw [if_neg ‹_›] at h
      split at h
      · rfl
      · rw [ih h]

/-- The data of the frame is not an object. -/
def Rejected (loads : Text → Except ε (Option β)) (frame : Text) : Prop :=
  dataOf frame ≠ [] ∧ ∀ value, loads (dataOf frame) ≠ .ok (some value)

theorem eventOf_ok_iff {frame : Text} : (∃ event, eventOf loads frame = .ok event) ↔ ¬ Rejected loads frame := by
  unfold eventOf Rejected
  split
  · simp_all
  · split <;> simp_all

/-- Frames that fit are consumed up to the first that is rejected. -/
theorem consume_none_iff {fs : List Text} (hfit : ∀ f ∈ fs, utf8Length f ≤ maxEvent) :
    (consume loads fs).2 = none ↔ ∀ f ∈ fs, ¬ Rejected loads f := by
  induction fs with
  | nil => simp [consume]
  | cons f fs ih =>
    obtain ⟨hf, hfs⟩ := List.forall_mem_cons.1 hfit
    rw [List.forall_mem_cons, ← ih hfs, ← eventOf_ok_iff]
    simp only [consume]
    rw [if_neg (Nat.not_lt.2 hf)]
    split <;> simp_all

variable (loads) in
/-- Frames without data yield nothing. -/
theorem consume_silent {fs : List Text} (hfit : ∀ f ∈ fs, utf8Length f ≤ maxEvent) (h : ∀ f ∈ fs, dataOf f = []) :
    consume loads fs = ([], none) := by
  induction fs with
  | nil => rfl
  | cons f fs ih =>
    obtain ⟨hf, hfs⟩ := List.forall_mem_cons.1 hfit
    obtain ⟨hd, hds⟩ := List.forall_mem_cons.1 h
    simp only [consume, eventOf]
    rw [if_neg (Nat.not_lt.2 hf), if_pos hd, ih hfs hds]
    rfl

theorem eventOf_error {frame : Text} {e : Ending ε} (h : eventOf loads frame = .error e) :
    e = .notObject ∨ ∃ x, e = .notJson x := by
  unfold eventOf at h
  split at h
  · cases h
  · split at h <;> cases h
    · exact .inr ⟨_, rfl⟩
    · exact .inl rfl

theorem consume_error {fs : List Text} (hfit : ∀ f ∈ fs, utf8Length f ≤ maxEvent) {e : Ending ε}
    (h : (consume loads fs).2 = some e) : e = .notObject ∨ ∃ x, e = .notJson x := by
  induction fs with
  | nil => cases h
  | cons f fs ih =>
    obtain ⟨hf, hfs⟩ := List.forall_mem_cons.1 hfit
    simp only [consume] at h
    rw [if_neg (Nat.not_lt.2 hf)] at h
    split at h
    · rename_i he
      obtain rfl := Option.some.inj h
      exact eventOf_error he
    · exact ih hfs h

/-- Frames with data yield something, or are rejected. -/
theorem consume_loud {fs : List Text} {f : Text} (hf : f ∈ fs) (hd : dataOf f ≠ [])
    (h : (consume loads fs).2 = none) : (consume loads fs).1 ≠ [] := by
  induction fs with
  | nil => cases hf
  | cons g fs ih =>
    simp only [consume] at h ⊢
    split at h
    · cases h
    · rw [if_neg ‹_›]
      split at h
      · cases h
      · rename_i event he
        rcases List.mem_cons.1 hf with rfl | hf
        · unfold eventOf at he
          rw [if_neg hd] at he
          split at he <;> cases he
          simp
        · exact List.append_ne_nil_of_right_ne_nil _ (ih hf h)

/-! ### Network blocks -/

/-- The text of a stream, up to the first byte that is not UTF-8. -/
def textOf (bytes : List UInt8) : Text := (decode [] bytes).1

/-- Some byte of the stream is not UTF-8. -/
def Broken (bytes : List UInt8) : Prop := (decode [] bytes).2 = none

/-- The stream and each of its events are within the budgets. -/
structure Within (bytes : List UInt8) : Prop where
  stream : bytes.length ≤ maxStream
  event : ∀ f ∈ events (textOf bytes), utf8Length f ≤ maxEvent
  tail : utf8Length (tail (textOf bytes)) ≤ maxEvent

/-- The blocks of a stream, none of them empty. -/
def Blocks (bytes : List UInt8) (blocks : List (List UInt8)) : Prop := blocks.flatten = bytes ∧ ∀ b ∈ blocks, b ≠ []

/-- It does not show in the events, nor in the end of the stream, how it was cut into blocks. -/
def Seamless (loads : Text → Except ε (Option β)) (bytes : List UInt8) : Prop :=
  ∀ blocks blocks', Blocks bytes blocks → Blocks bytes blocks' → frames loads blocks = frames loads blocks'

/-- As long as no event is rejected, what has arrived of the next one fits, with the line ends of its blank
line; and a byte that is not UTF-8 comes before all events with data. -/
structure Steady (loads : Text → Except ε (Option β)) (bytes : List UInt8) : Prop where
  fits : ∀ t, t <+: textOf bytes → (∀ f ∈ events t, ¬ Rejected loads f) → utf8Length (tail t) ≤ maxEvent
  silent : Broken bytes → ∀ f ∈ events (textOf bytes), dataOf f = []

/-- A byte arrives behind a `\r\r\n`, before an event is rejected: the block that begins with it normalises the
line end a second time. -/
def Renewed (loads : Text → Except ε (Option β)) (bytes : List UInt8) : Prop :=
  ∃ a x, a ++ [x] <+: bytes ∧ ¬ Broken (a ++ [x]) ∧ Doubled (textOf a) ∧ ∀ f ∈ events (textOf a), ¬ Rejected loads f

/-- What a stream yields, and how it ends, if blocks do not matter. -/
def outcome (loads : Text → Except ε (Option β)) (bytes : List UInt8) : List β × Ending ε :=
  match (decode [] bytes).2 with
  | none => ([], .notText)
  | some _ => ((consume loads (events (textOf bytes))).1, ((consume loads (events (textOf bytes))).2).getD .incomplete)

variable {bytes : List UInt8}

/-- The stream read so far, of a stream that goes on. -/
theorem textOf_append {a b : List UInt8} {t : Text} {q : List UInt8} (h : decode [] a = (t, some q)) :
    textOf (a ++ b) = t ++ (decode q b).1 := by
  unfold textOf
  rw [decode_append h]

theorem events_of_prefix {t : Text} (ht : t <+: textOf bytes) : ∃ ps, events (textOf bytes) = events t ++ ps := by
  obtain ⟨u, hu⟩ := ht
  rw [← hu]
  exact events_append t u

variable (loads) in
/-- One block, behind the text `t`. -/
theorem feed_eq {t u : Text} {q q' block : List UInt8} {n : Nat} (hd : ¬ Doubled t)
    (hblock : decode q block = (u, some q')) (htotal : n + block.length ≤ maxStream) :
    ∃ fs, events (t ++ u) = events t ++ fs ∧
      Reader.feed loads ⟨q, tail t, n⟩ block = ((consume loads fs).1,
        match (consume loads fs).2 with
        | some e => .error e
        | none =>
          if maxEvent < utf8Length (tail (t ++ u)) then .error .eventBudget
          else .ok ⟨q', tail (t ++ u), n + block.length⟩) := by
  have hpieces := cut_pieces (s := normalise (tail t ++ u)) le_rfl
  obtain ⟨hcut, htail⟩ := Cut.append hd hpieces
  have htake := takeFrames_eq loads hpieces hpieces.length_le
  refine ⟨_, hcut, ?_⟩
  simp only [Reader.feed]
  rw [if_neg (Nat.not_lt.2 htotal), hblock]
  dsimp only
  rw [htake, htail]
  generalize (pieces (normalise (tail t ++ u)).length (normalise (tail t ++ u))).1 = fs
  cases (consume loads fs).2 with
  | some e => rfl
  | none =>
    dsimp only
    split <;> rfl

/-- One block after another, the reader comes to the outcome. -/
theorem frames_steady (hd : ¬ Renewed loads bytes) (hw : Within bytes) (hs : Steady loads bytes)
    {blocks : List (List UInt8)} {read : List UInt8} (hbytes : bytes = read ++ blocks.flatten)
    (hblocks : ∀ b ∈ blocks, b ≠ []) {t : Text} {q : List UInt8} (ht : decode [] read = (t, some q))
    (hsound : (consume loads (events t)).2 = none) :
    ((consume loads (events t)).1 ++ (Reader.frames loads ⟨q, tail t, read.length⟩ blocks).1,
      (Reader.frames loads ⟨q, tail t, read.length⟩ blocks).2) = outcome loads bytes := by
  induction blocks generalizing read t q with
  | nil =>
    obtain rfl : bytes = read := by simpa using hbytes
    have htext : textOf bytes = t := congrArg Prod.fst ht
    unfold outcome
    rw [ht, htext]
    simp [Reader.frames, hsound]
  | cons block blocks ih =>
    rw [List.flatten_cons, ← List.append_assoc] at hbytes
    have htotal : read.length + block.length ≤ maxStream := by
      have hlen := congrArg List.length hbytes
      simp only [List.length_append] at hlen
      have := hw.stream
      omega
    have htext : textOf bytes = t ++ (decode q (block ++ blocks.flatten)).1 := by
      rw [hbytes, List.append_assoc]
      exact textOf_append ht
    obtain ⟨more, hmore⟩ := events_of_prefix ⟨_, htext.symm⟩
    have hmem : ∀ f ∈ events t, f ∈ events (textOf bytes) := fun f hf => hmore ▸ List.mem_append_left _ hf
    simp only [Reader.frames]
    rcases hblock : decode q block with ⟨u, _ | q'⟩
    · -- the block holds the first byte that is not UTF-8
      have hbroken : Broken bytes := by
        unfold Broken
        rw [hbytes, List.append_assoc, decode_append ht,
          decode_append_bad (show (decode q block).2 = none by rw [hblock]), hblock]
      have hsilent := consume_silent loads (fun f hf => hw.event f (hmem f hf))
        fun f hf => hs.silent hbroken f (hmem f hf)
      have hnone : (decode [] bytes).2 = none := hbroken
      simp only [Reader.feed]
      rw [if_neg (Nat.not_lt.2 htotal), hblock]
      unfold outcome
      rw [hsilent, hnone]
      rfl
    · have hread : decode [] (read ++ block) = (t ++ u, some q') := by rw [decode_append ht, hblock]
      have hprefix : t ++ u <+: textOf bytes := by
        rw [htext, decode_append hblock, ← List.append_assoc]
        exact List.prefix_append _ _
      have hplain : ¬ Doubled t := by
        obtain ⟨x, rest, rfl⟩ := List.exists_cons_of_ne_nil (hblocks block List.mem_cons_self)
        intro hdoubled
        have hsound' := (consume_none_iff fun f hf => hw.event f (hmem f hf)).1 hsound
        have htext' : textOf read = t := congrArg Prod.fst ht
        refine hd ⟨read, x, ⟨rest ++ blocks.flatten, by rw [hbytes]; simp⟩, fun hbad => ?_, htext' ▸ hdoubled,
          htext' ▸ hsound'⟩
        have hbad' : (decode [] (read ++ x :: rest)).2 = none := by
          rw [show read ++ x :: rest = read ++ [x] ++ rest by simp, decode_append_bad hbad]
          exact hbad
        rw [hread] at hbad'
        cases hbad'
      obtain ⟨more, hmore⟩ := events_of_prefix hprefix
      obtain ⟨fs, hfs, hfeed⟩ := feed_eq loads hplain hblock htotal
      have hconsumed : consume loads (events (t ++ u)) =
          ((consume loads (events t)).1 ++ (consume loads fs).1, (consume loads fs).2) := by
        rw [hfs, consume_append hsound]
      have hfit : ∀ f ∈ events (t ++ u), utf8Length f ≤ maxEvent :=
        fun f hf => hw.event f (hmore ▸ List.mem_append_left _ hf)
      rw [hfeed]
      cases hnew : (consume loads fs).2 with
      | some e =>
        -- a frame is rejected: what comes after it does not matter
        have herror : (consume loads (events (t ++ u))).2 = some e := by rw [hconsumed, hnew]
        have hall : consume loads (events (textOf bytes)) = consume loads (events (t ++ u)) := by
          rw [hmore, consume_append_error herror]
        unfold outcome
        cases hdec : (decode [] bytes).2 with
        | none =>
          have hsilent := consume_silent loads hw.event (hs.silent hdec)
          rw [hall] at hsilent
          rw [hsilent] at herror
          cases herror
        | some _ =>
          dsimp only
          rw [hall, hconsumed, hnew]
          rfl
      | none =>
        have hnone : (consume loads (events (t ++ u))).2 = none := by rw [hconsumed, hnew]
        have htailfit := hs.fits (t ++ u) hprefix ((consume_none_iff hfit).1 hnone)
        dsimp only
        rw [if_neg (Nat.not_lt.2 htailfit)]
        have hnext := ih hbytes (fun b hb => hblocks b (List.mem_cons_of_mem _ hb)) hread hnone
        rw [hconsumed, List.length_append] at hnext
        rw [← hnext, List.append_assoc]

/-- The blocks of a steady stream do not show. -/
theorem seamless_of_steady (hd : ¬ Renewed loads bytes) (hw : Within bytes) (hs : Steady loads bytes) :
    Seamless loads bytes := by
  have houtcome : ∀ blocks, Blocks bytes blocks → frames loads blocks = outcome loads bytes := by
    intro blocks hblocks
    have h := frames_steady hd hw hs (show bytes = [] ++ blocks.flatten by rw [hblocks.1]; rfl) hblocks.2 rfl rfl
    exact h
  intro blocks blocks' h h'
  rw [houtcome blocks h, houtcome blocks' h']

/-- What the first block makes of a stream. -/
theorem frames_cons {a : List UInt8} {t : Text} {q : List UInt8} {blocks : List (List UInt8)}
    (ha : decode [] a = (t, some q)) (htotal : a.length ≤ maxStream) :
    frames loads (a :: blocks) =
      match (consume loads (events t)).2 with
      | some e => ((consume loads (events t)).1, e)
      | none =>
        if maxEvent < utf8Length (tail t) then ((consume loads (events t)).1, .eventBudget)
        else ((consume loads (events t)).1 ++ (Reader.frames loads ⟨q, tail t, a.length⟩ blocks).1,
          (Reader.frames loads ⟨q, tail t, a.length⟩ blocks).2) := by
  obtain ⟨fs, hfs, hfeed⟩ := feed_eq loads (show ¬ Doubled [] by decide) ha
    (show 0 + a.length ≤ maxStream by omega)
  rw [List.nil_append] at hfs hfeed
  obtain rfl : events t = fs := hfs
  have hfeed' : Reader.feed loads ⟨[], [], 0⟩ a = _ := hfeed
  unfold frames
  simp only [Reader.frames, hfeed', Nat.zero_add]
  cases (consume loads (events t)).2 with
  | some e => rfl
  | none =>
    by_cases hlong : maxEvent < utf8Length (tail t)
    · simp only [if_pos hlong]
    · simp only [if_neg hlong]

/-- A broken stream in one block. -/
theorem frames_broken (hw : Within bytes) (h : Broken bytes) : frames loads [bytes] = ([], .notText) := by
  have hnone : (decode [] bytes).2 = none := h
  unfold frames
  simp only [Reader.frames, Reader.feed]
  rw [if_neg (by rw [Nat.zero_add]; exact Nat.not_lt.2 hw.stream)]
  rcases hdec : decode [] bytes with ⟨t, _ | q⟩
  · rfl
  · rw [hdec] at hnone
    cases hnone

/-- In one block, a stream within its budgets never exceeds one. -/
theorem frames_one_ne (hw : Within bytes) : (frames loads [bytes]).2 ≠ .eventBudget := by
  rcases hdec : decode [] bytes with ⟨t, _ | q⟩
  · rw [frames_broken hw (show (decode [] bytes).2 = none by rw [hdec])]
    nofun
  · obtain rfl : textOf bytes = t := congrArg Prod.fst hdec
    rw [frames_cons hdec hw.stream]
    cases he : (consume loads (events (textOf bytes))).2 with
    | some e =>
      rcases consume_error hw.event he with rfl | ⟨x, rfl⟩ <;> nofun
    | none =>
      dsimp only
      rw [if_neg (Nat.not_lt.2 hw.tail)]
      nofun

theorem steady_of_seamless (hw : Within bytes) (h : Seamless loads bytes) : Steady loads bytes := by
  have htwo : ∀ {a b : List UInt8}, bytes = a ++ b → a ≠ [] → b ≠ [] → frames loads [a, b] = frames loads [bytes] := by
    rintro a b rfl ha hb
    exact h _ _ ⟨by simp, by simp [ha, hb]⟩ ⟨by simp, by simp [ha]⟩
  refine ⟨fun t ht hsound => Nat.le_of_not_lt fun hlong => ?_, fun hbroken f hf => by_contra fun hdata => ?_⟩
  · -- cut behind `t`: what has arrived is too long
    have hne : t ≠ [] := by
      rintro rfl
      exact absurd hlong (by decide)
    obtain ⟨a, b, hab, ha⟩ := exists_decode_of_prefix hne ht
    have hane : a ≠ [] := by
      rintro rfl
      exact hne (congrArg Prod.fst ha).symm
    have hbne : b ≠ [] := by
      rintro rfl
      rw [List.append_nil] at hab
      have htext : textOf bytes = t := by rw [hab]; exact congrArg Prod.fst ha
      have := hw.tail
      rw [htext] at this
      omega
    have hlen : a.length ≤ maxStream := by
      have hstream := hw.stream
      rw [hab, List.length_append] at hstream
      omega
    have hevents : ∀ f ∈ events t, utf8Length f ≤ maxEvent := by
      obtain ⟨more, hmore⟩ := events_of_prefix ht
      exact fun f hf => hw.event f (hmore ▸ List.mem_append_left _ hf)
    have hcut := htwo hab hane hbne
    rw [frames_cons ha hlen, (consume_none_iff hevents).2 hsound] at hcut
    dsimp only at hcut
    rw [if_pos hlong] at hcut
    exact frames_one_ne hw (congrArg Prod.snd hcut).symm
  · -- cut before the byte that is not UTF-8: the event is yielded
    obtain ⟨a, b, q, hab, hb, ha⟩ := exists_decode_of_bad hbroken
    have hane : a ≠ [] := by
      rintro rfl
      have htext : textOf bytes = [] := (congrArg Prod.fst ha).symm
      rw [htext] at hf
      cases hf
    have hlen : a.length ≤ maxStream := by
      have hstream := hw.stream
      rw [hab, List.length_append] at hstream
      omega
    have hcut := htwo hab hane hb
    rw [frames_broken hw hbroken, frames_cons (t := textOf bytes) ha hlen] at hcut
    change (match (consume loads (events (textOf bytes))).2 with
      | some e => _
      | none => _) = _ at hcut
    cases he : (consume loads (events (textOf bytes))).2 with
    | some e =>
      rw [he] at hcut
      have hkind := congrArg Prod.snd hcut
      rcases consume_error hw.event he with rfl | ⟨x, rfl⟩ <;> cases hkind
    | none =>
      rw [he] at hcut
      dsimp only at hcut
      have htail : utf8Length (tail (textOf bytes)) ≤ maxEvent := hw.tail
      rw [if_neg (Nat.not_lt.2 htail)] at hcut
      exact consume_loud hf hdata he (List.append_eq_nil_iff.1 (congrArg Prod.fst hcut)).1

/-- Blocks do not show in a stream within its budgets if and only if it is steady, as long as no byte arrives behind
a `\r\r\n`. -/
theorem frames_seamless_iff (loads : Text → Except ε (Option β)) (bytes : List UInt8) (hw : Within bytes)
    (hd : ¬ Renewed loads bytes) : Seamless loads bytes ↔ Steady loads bytes :=
  ⟨steady_of_seamless hw, seamless_of_steady hd hw⟩

/-! ### The reader of JSON texts -/

/-- What `json.loads` returns: a string may hold lone surrogates, and a float is kept as it is written. -/
inductive Loaded
  | null
  | bool (b : Bool)
  | int (n : Int)
  | float (literal : Text)
  | str (s : List Nat)
  | arr (xs : List Loaded)
  | obj (kvs : List (List Nat × Loaded))

namespace Loaded

/-- Escaped pairs of surrogates are joined. -/
def joinPairs : List Nat → List Nat
  | n :: m :: rest =>
    if 0xD800 ≤ n ∧ n < 0xDC00 ∧ 0xDC00 ≤ m ∧ m < 0xE000 then
      (0x10000 + (n - 0xD800) * 0x400 + (m - 0xDC00)) :: joinPairs rest
    else n :: joinPairs (m :: rest)
  | ns => ns

/-- A string, after its opening quote. -/
def readString (cs : Text) : Option (List Nat × Text) := (Json.readUnits cs).map fun p => (joinPairs p.1, p.2)

def readDigits (cs : Text) : Text × Text := cs.span (Json.IsDigit ·)

/-- `0|[1-9]\d*` -/
def readWhole : Text → Option (Text × Text)
  | '0' :: r => some (['0'], r)
  | cs =>
    match readDigits cs with
    | ([], _) => none
    | p => some p

/-- `(\.\d+)?` -/
def readFraction : Text → Text × Text
  | '.' :: r =>
    match readDigits r with
    | ([], _) => ([], '.' :: r)
    | (digits, r') => ('.' :: digits, r')
  | cs => ([], cs)

def readSign : Text → Text × Text
  | '-' :: r => (['-'], r)
  | '+' :: r => (['+'], r)
  | cs => ([], cs)

/-- `([eE][-+]?\d+)?` -/
def readExponent : Text → Text × Text
  | [] => ([], [])
  | e :: r =>
    if e = 'e' ∨ e = 'E' then
      match readDigits (readSign r).2 with
      | ([], _) => ([], e :: r)
      | (digits, r') => (e :: (readSign r).1 ++ digits, r')
    else ([], e :: r)

/-- A number, after its sign. `int` takes at most 4300 digits. -/
def readNumber (negative : Bool) (cs : Text) : Option (Loaded × Text) := do
  let (whole, r) ← readWhole cs
  let (fraction, r) := readFraction r
  let (exponent, r) := readExponent r
  if fraction ++ exponent ≠ [] then
    some (.float ((if negative then ['-'] else []) ++ whole ++ fraction ++ exponent), r)
  else if 4300 < whole.length then none
  else some (.int (if negative then -Json.digitsValue whole else Json.digitsValue whole), r)

/-- A key and the colon after it. -/
def readKey (cs : Text) : Option (List Nat × Text) :=
  match Json.skip cs with
  | '"' :: r => do
    let (k, r) ← readString r
    match Json.skip r with
    | ':' :: r => some (k, r)
    | _ => none
  | _ => none

mutual

/-- One value of any depth; the first argument is fuel. -/
def readValue : Nat → Text → Option (Loaded × Text)
  | 0, _ => none
  | n + 1, cs =>
    match Json.skip cs with
    | '"' :: r => (readString r).map fun p => (.str p.1, p.2)
    | '[' :: r =>
      match Json.skip r with
      | ']' :: r => some (.arr [], r)
      | r => do
        let (x, r) ← readValue n r
        let (xs, r) ← readItems n r
        some (.arr (x :: xs), r)
    | '{' :: r =>
      match Json.skip r with
      | '}' :: r => some (.obj [], r)
      | r => do
        let (k, r) ← readKey r
        let (v, r) ← readValue n r
        let (kvs, r) ← readMembers n r
        some (.obj ((k, v) :: kvs), r)
    | 'n' :: 'u' :: 'l' :: 'l' :: r => some (.null, r)
    | 't' :: 'r' :: 'u' :: 'e' :: r => some (.bool true, r)
    | 'f' :: 'a' :: 'l' :: 's' :: 'e' :: r => some (.bool false, r)
    | 'N' :: 'a' :: 'N' :: r => some (.float "NaN".toList, r)
    | 'I' :: 'n' :: 'f' :: 'i' :: 'n' :: 'i' :: 't' :: 'y' :: r => some (.float "Infinity".toList, r)
    | '-' :: 'I' :: 'n' :: 'f' :: 'i' :: 'n' :: 'i' :: 't' :: 'y' :: r => some (.float "-Infinity".toList, r)
    | '-' :: r => readNumber true r
    | r => readNumber false r

/-- The items after the first. -/
def readItems : Nat → Text → Option (List Loaded × Text)
  | 0, _ => none
  | n + 1, cs =>
    match Json.skip cs with
    | ']' :: r => some ([], r)
    | ',' :: r => do
      let (x, r) ← readValue n r
      let (xs, r) ← readItems n r
      some (x :: xs, r)
    | _ => none

/-- The members after the first. -/
def readMembers : Nat → Text → Option (List (List Nat × Loaded) × Text)
  | 0, _ => none
  | n + 1, cs =>
    match Json.skip cs with
    | '}' :: r => some ([], r)
    | ',' :: r => do
      let (k, r) ← readKey r
      let (v, r) ← readValue n r
      let (kvs, r) ← readMembers n r
      some ((k, v) :: kvs, r)
    | _ => none

end

end Loaded

/-- `json.loads`. -/
def loadsJson (text : Text) : Except Unit (Option Loaded) :=
  match Loaded.readValue (text.length + 1) text with
  | some (value, r) =>
    if Json.skip r ≠ [] then .error ()
    else
      match value with
      | .obj kvs => .ok (some (.obj kvs))
      | _ => .ok none
  | none => .error ()

/-- The bytes of an ASCII text. -/
def ascii (text : String) : List UInt8 := text.toList.map fun c => UInt8.ofNat c.toNat

theorem not_renewed (h : ∀ n < bytes.length, ¬ Doubled (textOf (bytes.take n))) : ¬ Renewed loads bytes := by
  rintro ⟨a, x, ⟨rest, rfl⟩, -, hdoubled, -⟩
  refine h a.length ?_ ?_
  · simp only [List.length_append, List.length_cons, List.length_nil]
    omega
  · rwa [List.append_assoc, List.take_left]

/-- An event with two-byte line ends, and a `\r\r\n` with nothing behind it. -/
def plain : List UInt8 := ascii "data: \x7b\x7d\r\n\r\n\r\r\n"

theorem frames_seamless_iff_plain : Seamless loadsJson plain ↔ Steady loadsJson plain :=
  frames_seamless_iff loadsJson plain ⟨by decide, by decide, by decide⟩ (not_renewed (by decide))

/-- An event with a `\r` before each line end: the blank line appears when the next byte is a block of its own. -/
def doubled : List UInt8 := ascii "data: \x7b\x7d\r\r\n\r\r\n"

theorem not_seamless_doubled :
    ¬ ∀ bytes, Within bytes → Seamless loadsJson bytes := by
  intro h
  have hwithin : Within (doubled ++ ascii ":") := ⟨by decide, by decide, by decide⟩
  have hsame := h _ hwithin [doubled ++ ascii ":"] [doubled, ascii ":"] ⟨rfl, by decide⟩ ⟨rfl, by decide⟩
  have hcount := congrArg (fun r => r.1.length) hsame
  exact absurd hcount (by decide)

end ProviderStream
end RepoPilot
