import RepoPilot.RunStream

/-! # The client of the event stream

`consumeEvents` reads the blocks of one response. However the bytes come in blocks, it handles the frames that have
arrived whole, in order, until one of them settles the outcome (`consumeEvents_eq`). -/

namespace RepoPilot
open Generation Framing

namespace EventStream

/-! ### What a frame says -/

/-- `RunEvent`. -/
structure StatusEvent where
  runId : Text
  sequence : Nat
  status : Status
  occurredAt : Text
  deriving DecidableEq

/-- `AnswerPreview`. -/
structure PreviewText where
  runId : Text
  revision : Nat
  text : Text
  deriving DecidableEq

def readStatus (t : Text) : Option Status :=
  [Status.queued, .running, .completed, .failed, .cancelled].find? fun s => (RunStream.statusText s).toList = t

/-- The length of a JavaScript string. -/
def utf16Length (t : Text) : Nat := (t.map fun c => (Json.units c).length).sum

/-- `eventSchema`. -/
def eventSchema : Json → Option StatusEvent
  | .obj kvs =>
    match member kvs "run_id", member kvs "sequence", member kvs "status", member kvs "occurred_at" with
    | some (.str runId), some (.num sequence), some (.str status), some (.str occurredAt) =>
      if 1 ≤ sequence ∧ sequence ≤ 3 then
        (readStatus status).map fun status => ⟨runId, sequence.toNat, status, occurredAt⟩
      else none
    | _, _, _, _ => none
  | _ => none

/-- `previewSchema`. -/
def previewSchema : Json → Option PreviewText
  | .obj kvs =>
    match member kvs "run_id", member kvs "revision", member kvs "text" with
    | some (.str runId), some (.num revision), some (.str text) =>
      if (0 ≤ revision ∧ revision ≤ 256) ∧ utf16Length text ≤ 16000 then some ⟨runId, revision.toNat, text⟩ else none
    | _, _, _ => none
  | _ => none

/-- The schema of an error frame. -/
def errorSchema : Json → Option Text
  | .obj kvs =>
    match member kvs "code" with
    | some (.str code) => some code
    | _ => none
  | _ => none

/-- The fields of a frame. -/
structure Fields where
  type : Text
  id : Text
  data : List Text

/-- One line of a frame. -/
def Fields.read (f : Fields) (line : Text) : Fields :=
  if line.head? = some ':' then f
  else
    let name := line.takeWhile (· ≠ ':')
    let value :=
      match line.dropWhile (· ≠ ':') with
      | ':' :: ' ' :: value => value
      | ':' :: value => value
      | _ => []
    if name = "event".toList then { f with type := value }
    else if name = "id".toList then { f with id := value }
    else if name = "data".toList then { f with data := f.data ++ [value] }
    else f

def fields (frame : Text) : Fields := (frame.splitOn '\n').foldl Fields.read ⟨[], [], []⟩

/-! ### `consumeEvents` -/

/-- What is wrong with the content of a stream. -/
inductive Fault
  | streamLimit
  | frameLimit
  | notText
  | invalid
  | eventIdentity
  | sequenceGap
  | previewIdentity
  | unknownEvent
  deriving DecidableEq

/-- What `consumeEvents` returns, or throws: an `ApiError`, an error about the content, or the end of the response
without a control frame. -/
inductive Outcome
  | complete
  | reconnect
  | unavailable (status : Nat)
  | fault (f : Fault)
  | interrupted
  deriving DecidableEq

/-- A call of `onEvent` or `onPreview`. -/
inductive Callback
  | event (e : StatusEvent)
  | preview (p : PreviewText)

/-- What the frames so far have led to. -/
structure Seen where
  cursor : Nat
  previewRevision : Int
  calls : List Callback

def Seen.start (cursor : Nat) : Seen := ⟨cursor, -1, []⟩

structure Reader where
  seen : Seen
  begun : Bool
  pending : List UInt8
  buffer : Text
  bytes : Nat

def Reader.start (cursor : Nat) : Reader := ⟨.start cursor, false, [], [], 0⟩

/-- `JSON.parse` of the data. -/
def Fields.json (f : Fields) : Option Json := Json.parse (['\n'].intercalate f.data)

def handleStatus (runId : Text) (s : Seen) (f : Fields) : Seen × Option Outcome :=
  match f.json.bind eventSchema with
  | none => (s, some (.fault .invalid))
  | some e =>
    if e.runId ≠ runId ∨ f.id ≠ Json.decimal e.sequence then (s, some (.fault .eventIdentity))
    else if e.sequence ≤ s.cursor then (s, none)
    else if e.sequence ≠ s.cursor + 1 then (s, some (.fault .sequenceGap))
    else ({ s with calls := s.calls ++ [.event e], cursor := e.sequence }, none)

/-- `previews` when there is an `onPreview`. -/
def handlePreview (runId : Text) (previews : Bool) (s : Seen) (f : Fields) : Seen × Option Outcome :=
  match f.json.bind previewSchema with
  | none => (s, some (.fault .invalid))
  | some p =>
    if f.id ≠ [] ∨ p.runId ≠ runId then (s, some (.fault .previewIdentity))
    else if s.previewRevision ≤ p.revision then
      ({ s with calls := if previews = true then s.calls ++ [.preview p] else s.calls, previewRevision := p.revision },
        none)
    else (s, none)

def handleError (s : Seen) (f : Fields) : Seen × Option Outcome :=
  match f.json.bind errorSchema with
  | none => (s, some (.fault .invalid))
  | some code => (s, some (.unavailable (if code = "unauthenticated".toList then 401 else 503)))

/-- The body of the loop over the frames. -/
def handle (runId : Text) (previews : Bool) (s : Seen) (frame : Text) : Seen × Option Outcome :=
  let f := fields frame
  if f.type = [] then (s, none)
  else if f.type = "run.status".toList then handleStatus runId s f
  else if f.type = "answer.preview".toList then handlePreview runId previews s f
  else if f.type = "stream.end".toList then (s, some .complete)
  else if f.type = "stream.reconnect".toList then (s, some .reconnect)
  else if f.type = "stream.error".toList then handleError s f
  else (s, some (.fault .unknownEvent))

def frameLimit : Nat := 65536

def streamLimit : Nat := 2 * 1024 * 1024

/-- The frames one after another. -/
def handleAll (runId : Text) (previews : Bool) (s : Seen) : List Text → Seen × Option Outcome
  | [] => (s, none)
  | frame :: frames =>
    if frameLimit < utf16Length frame then (s, some (.fault .frameLimit))
    else
      match (handle runId previews s frame).2 with
      | some o => ((handle runId previews s frame).1, some o)
      | none => handleAll runId previews (handle runId previews s frame).1 frames

/-- The decoder drops a byte order mark before the first character. -/
def withoutMark (begun : Bool) (t : Text) : Text :=
  if ¬ begun = true ∧ t.head? = some (Char.ofNat 0xFEFF) then t.tail else t

/-- One block of the response. -/
def feed (runId : Text) (previews : Bool) (r : Reader) (block : List UInt8) : Reader × Option Outcome :=
  if streamLimit < r.bytes + block.length then (r, some (.fault .streamLimit))
  else
    match decode r.pending block with
    | (_, none) => (r, some (.fault .notText))
    | (t, some pending) =>
      let buffer := normalise (r.buffer ++ withoutMark r.begun t)
      let cut := pieces buffer.length buffer
      let (seen, outcome) := handleAll runId previews r.seen cut.1
      let r := ⟨seen, r.begun || !t.isEmpty, pending, cut.2, r.bytes + block.length⟩
      (r, if outcome = none ∧ frameLimit < utf16Length cut.2 then some (.fault .frameLimit) else outcome)

/-- The blocks one after another. -/
def feedAll (runId : Text) (previews : Bool) (r : Reader) : List (List UInt8) → Reader × Outcome
  | [] => (r, .interrupted)
  | block :: blocks =>
    match (feed runId previews r block).2 with
    | some o => ((feed runId previews r block).1, o)
    | none => feedAll runId previews (feed runId previews r block).1 blocks

/-- `consumeEvents`, once the response has begun: the calls it makes, and how it ends. -/
def consumeEvents (runId : Text) (cursor : Nat) (previews : Bool) (blocks : List (List UInt8)) :
    List Callback × Outcome :=
  ((feedAll runId previews (.start cursor) blocks).1.seen.calls, (feedAll runId previews (.start cursor) blocks).2)

/-! ### Blocks -/

section Blocks
variable {runId : Text} {previews : Bool}

theorem handleAll_append {s s' : Seen} {fs : List Text} (gs : List Text)
    (h : handleAll runId previews s fs = (s', none)) :
    handleAll runId previews s (fs ++ gs) = handleAll runId previews s' gs := by
  induction fs generalizing s with
  | nil =>
    cases h
    rfl
  | cons f fs ih =>
    simp only [handleAll, List.cons_append] at h ⊢
    split at h
    · cases h
    · rename_i hsize
      rw [if_neg hsize]
      cases hf : (handle runId previews s f).2 with
      | some o =>
        rw [hf] at h
        cases h
      | none =>
        rw [hf] at h
        exact ih h

theorem utf16Length_le (t : Text) : utf16Length t ≤ RunStream.bytes t := by
  induction t with
  | nil => simp [utf16Length]
  | cons c t ih =>
    have hc : (Json.units c).length ≤ (String.utf8EncodeChar c).length := by
      have hv : c.val.toNat = c.toNat := rfl
      unfold Json.units String.utf8EncodeChar
      rw [hv]
      dsimp only
      split_ifs <;> (simp; try omega)
    show (Json.units c).length + utf16Length t ≤ (String.utf8EncodeChar c ++ encode t).length
    rw [List.length_append]
    exact Nat.add_le_add hc ih

/-- A text that respects the limits: frames between blank lines, none too large. -/
structure Proper (w : Text) (fs : List Text) : Prop where
  cut : Cut w fs []
  mark : w.head? ≠ some (Char.ofNat 0xFEFF)
  newlines : '\r' ∉ w
  frames : ∀ f ∈ fs, RunStream.bytes (f ++ ['\n']) ≤ frameLimit
  stream : RunStream.bytes w ≤ streamLimit

/-- The reader has read `bytes` and handled the frames that `t`, the text of them, has. -/
structure Reads (runId : Text) (previews : Bool) (s : Seen) (r : Reader) (bytes : List UInt8) (t : Text) : Prop where
  decoded : decode [] bytes = (t, some r.pending)
  begun : r.begun = true ∨ t = []
  buffer : r.buffer = tail t
  handled : handleAll runId previews s (events t) = (r.seen, none)
  length : r.bytes = bytes.length

theorem Proper.front {w t : Text} {fs : List Text} (h : Proper w fs) (ht : t <+: w) :
    events t <+: fs ∧ utf16Length (tail t) ≤ frameLimit := by
  obtain ⟨qs, r, hcut, hqs, hr⟩ := h.cut.front_of_prefix ht
  have hplain : '\r' ∉ t := fun hc => h.newlines (ht.subset hc)
  have hown := cut_events t
  rw [normalise_eq hplain] at hown
  obtain ⟨hevents, htail⟩ := hown.unique hcut
  rw [hevents, htail]
  refine ⟨hqs, ?_⟩
  rcases hr with rfl | ⟨p, hp, y, hy⟩
  · exact Nat.zero_le _
  · have hp := h.frames p hp
    rw [← hy, RunStream.bytes_append] at hp
    have := utf16Length_le r
    omega

/-- A block is read, and the frames it completes are handled. -/
theorem feed_reads {s : Seen} {r : Reader} {bytes block : List UInt8} {t w : Text} {fs : List Text} (hw : Proper w fs)
    (h : Reads runId previews s r bytes t) (hb : bytes ++ block <+: encode w) :
    ∃ t', t' <+: w ∧
      ((feed runId previews r block).2 = none →
        Reads runId previews s (feed runId previews r block).1 (bytes ++ block) t') ∧
      ∀ o, (feed runId previews r block).2 = some o →
        handleAll runId previews s (events t') = ((feed runId previews r block).1.seen, some o) := by
  obtain ⟨rest, hrest⟩ := hb
  obtain ⟨t', q, hdecode, ht'⟩ := decode_front hrest
  have hlen : ¬ streamLimit < r.bytes + block.length := by
    have hall := congrArg List.length hrest
    have hstream := hw.stream
    simp only [List.length_append] at hall
    have hlen := h.length
    have : RunStream.bytes w = (encode w).length := rfl
    omega
  rw [decode_append h.decoded] at hdecode
  obtain ⟨hu, hq⟩ := Prod.mk.inj hdecode
  obtain ⟨u, hu'⟩ : ∃ u, decode r.pending block = (u, some q) := ⟨_, Prod.ext rfl hq⟩
  rw [hu'] at hu
  subst hu
  have hmark : withoutMark r.begun u = u := by
    unfold withoutMark
    refine if_neg fun hm => ?_
    rcases h.begun with hbegun | rfl
    · exact hm.1 hbegun
    · obtain ⟨y, rfl⟩ := ht'
      refine hw.mark ?_
      rw [List.nil_append, List.head?_append, hm.2]
      rfl
  have hplain : '\r' ∉ t := fun hc => hw.newlines (ht'.subset (List.mem_append_left _ hc))
  have hcut : Cut (normalise (tail t ++ u)) (pieces (normalise (tail t ++ u)).length (normalise (tail t ++ u))).1
      (pieces (normalise (tail t ++ u)).length (normalise (tail t ++ u))).2 := cut_pieces le_rfl
  obtain ⟨hevents, htail⟩ := Cut.append (not_doubled hplain) hcut
  have hlimit := (hw.front ht').2
  have hall := handleAll_append (pieces (normalise (tail t ++ u)).length (normalise (tail t ++ u))).1 h.handled
  rw [← hevents] at hall
  refine ⟨t ++ u, ht', ?_⟩
  unfold feed
  rw [if_neg hlen, hu']
  dsimp only
  rw [hmark, h.buffer, ← hall, ← htail, if_neg fun hc => absurd hc.2 (Nat.not_lt.2 hlimit)]
  constructor
  · intro hnone
    refine ⟨?_, ?_, rfl, Prod.ext rfl hnone, ?_⟩
    · rw [decode_append h.decoded, hu']
    · rcases h.begun with hbegun | rfl
      · simp [hbegun]
      · cases u <;> simp
    · simp [h.length]
  · intro o ho
    exact Prod.ext rfl ho

theorem feedAll_reads {s : Seen} {r : Reader} {bytes : List UInt8} {blocks : List (List UInt8)} {t w : Text}
    {fs : List Text} (hw : Proper w fs) (h : Reads runId previews s r bytes t) (ht : t <+: w)
    (hb : bytes ++ blocks.flatten <+: encode w) :
    ∃ t', t' <+: w ∧ (handleAll runId previews s (events t')).1 = (feedAll runId previews r blocks).1.seen ∧
      (handleAll runId previews s (events t')).2.getD .interrupted = (feedAll runId previews r blocks).2 := by
  induction blocks generalizing r bytes t with
  | nil =>
    refine ⟨t, ht, ?_, ?_⟩ <;> rw [h.handled] <;> rfl
  | cons block blocks ih =>
    rw [List.flatten_cons, ← List.append_assoc] at hb
    obtain ⟨t', ht', hnone, hsome⟩ := feed_reads hw h ((List.prefix_append _ _).trans hb)
    simp only [feedAll]
    cases ho : (feed runId previews r block).2 with
    | none => exact ih (hnone ho) ht' hb
    | some o =>
      refine ⟨t', ht', ?_, ?_⟩
      · rw [hsome o ho]
      · rw [hsome o ho]
        rfl

/-- However the bytes come in blocks and wherever they break off, the first frames are handled, and the outcome is
theirs. -/
theorem consumeEvents_eq (runId : Text) (previews : Bool) (cursor : Nat) {blocks : List (List UInt8)}
    {w : Text} {fs : List Text} (hw : Proper w fs)
    (hb : blocks.flatten <+: encode w) :
    ∃ gs, gs <+: fs ∧ consumeEvents runId cursor previews blocks =
      ((handleAll runId previews (.start cursor) gs).1.calls,
        (handleAll runId previews (.start cursor) gs).2.getD .interrupted) := by
  have hstart : Reads runId previews (.start cursor) (.start cursor) [] [] :=
    ⟨rfl, .inr rfl, rfl, rfl, rfl⟩
  obtain ⟨t, ht, hseen, houtcome⟩ := feedAll_reads hw hstart List.nil_prefix hb
  refine ⟨events t, (hw.front ht).1, ?_⟩
  unfold consumeEvents
  rw [hseen, houtcome]

end Blocks

/-! ### What the server sends -/

section Server
variable {l : RunStream.Log} {iso : RunStream.Printer} {cursor : Nat} {fs : List RunStream.Frame}

/-- The text of the frames. -/
def wire (iso : RunStream.Printer) (fs : List RunStream.Frame) : Text := fs.flatMap (·.render iso)

theorem lines_cons (iso : RunStream.Printer) (f : RunStream.Frame) : ∃ m ms, f.lines iso = m :: ms := by
  cases f <;> exact ⟨_, _, rfl⟩

theorem splitBlank_render (iso : RunStream.Printer) (f : RunStream.Frame) (t : Text) :
    splitBlank (f.render iso ++ t) = some (f.body iso, t) := by
  obtain ⟨m, ms, hlines⟩ := lines_cons iso f
  have hplain : ∀ k ∈ m :: ms, k ≠ [] ∧ '\n' ∉ k := by
    intro k hk
    obtain ⟨hne, hk⟩ := RunStream.plain_lines iso f k (hlines ▸ hk)
    exact ⟨hne, fun hn => absurd (hk _ hn) (by decide)⟩
  unfold RunStream.Frame.render RunStream.Frame.body
  rw [hlines, List.append_assoc]
  exact splitBlank_lines hplain t

theorem cut_wire (iso : RunStream.Printer) (fs : List RunStream.Frame) :
    Cut (wire iso fs) (fs.map (·.body iso)) [] := by
  induction fs with
  | nil => exact .rest rfl
  | cons f fs ih => exact .part (splitBlank_render iso f (wire iso fs)) ih

theorem head?_render (iso : RunStream.Printer) (f : RunStream.Frame) (t : Text) :
    (f.render iso ++ t).head? ≠ some (Char.ofNat 0xFEFF) := by
  cases f <;> show some _ ≠ some _ <;> decide

theorem mem_intercalate {c : Char} {ls : List Text} (h : c ∈ ['\n'].intercalate ls) : c = '\n' ∨ ∃ m ∈ ls, c ∈ m := by
  induction ls with
  | nil => cases h
  | cons l ls ih =>
    cases ls with
    | nil => exact .inr ⟨l, List.mem_cons_self, by simpa using h⟩
    | cons m ls =>
      rw [List.intercalate_cons_of_ne_nil (List.cons_ne_nil _ _)] at h
      rcases List.mem_append.1 h with h | h
      · rcases List.mem_append.1 h with h | h
        · exact .inr ⟨l, List.mem_cons_self, h⟩
        · exact .inl (List.mem_singleton.1 h)
      · rcases ih h with h | ⟨k, hk, h⟩
        · exact .inl h
        · exact .inr ⟨k, List.mem_cons_of_mem _ hk, h⟩

theorem not_mem_wire (iso : RunStream.Printer) (fs : List RunStream.Frame) : '\r' ∉ wire iso fs := by
  intro hr
  obtain ⟨f, -, hr⟩ := List.mem_flatMap.1 hr
  rcases List.mem_append.1 hr with hr | hr
  · rcases mem_intercalate hr with hr | ⟨m, hm, hr⟩
    · cases hr
    · exact absurd ((RunStream.plain_lines iso f m hm).2 _ hr) (by decide)
  · simp at hr

theorem bytes_wire (iso : RunStream.Printer) (h : ∀ f ∈ fs, f.Small iso) :
    RunStream.bytes (wire iso fs) ≤ (fs.map RunStream.Frame.bound).sum := by
  induction fs with
  | nil => simp [wire, RunStream.bytes, encode]
  | cons f fs ih =>
    obtain ⟨hf, hfs⟩ := List.forall_mem_cons.1 h
    show RunStream.bytes (f.render iso ++ wire iso fs) ≤ _
    rw [RunStream.bytes_append, List.map_cons, List.sum_cons]
    exact Nat.add_le_add hf (ih hfs)

/-- What the server sends respects the limits. -/
theorem proper_wire (iso : RunStream.Printer) (h : RunStream.Coherent l cursor fs)
    (hsum : (fs.map RunStream.Frame.bound).sum ≤ streamLimit) : Proper (wire iso fs) (fs.map (·.body iso)) := by
  refine ⟨cut_wire iso fs, ?_, not_mem_wire iso fs, ?_, (bytes_wire iso (h.small iso)).trans hsum⟩
  · cases fs with
    | nil => simp [wire]
    | cons f fs => exact head?_render iso f (wire iso fs)
  · intro t ht
    obtain ⟨f, hf, rfl⟩ := List.mem_map.1 ht
    have hsmall : RunStream.bytes (f.body iso ++ ['\n', '\n']) ≤ f.bound := h.small iso f hf
    have hbound : f.bound ≤ 50000 := by cases f <;> simp [RunStream.Frame.bound]
    have hend : RunStream.bytes ['\n'] ≤ RunStream.bytes ['\n', '\n'] := by decide
    rw [RunStream.bytes_append] at hsmall ⊢
    show _ ≤ 65536
    omega

end Server


section Handle
variable {l : RunStream.Log} {iso : RunStream.Printer} {s : Seen}
open RunStream (Frame dataLine eventDump previewDump statusText)

theorem splitOn_body (iso : RunStream.Printer) (f : Frame) : (f.body iso).splitOn '\n' = f.lines iso := by
  obtain ⟨m, ms, hlines⟩ := lines_cons iso f
  refine List.splitOn_intercalate '\n' (fun k hk hn => ?_) (by rw [hlines]; exact List.cons_ne_nil _ _)
  exact absurd ((RunStream.plain_lines iso f k hk).2 _ hn) (by decide)

theorem read_data (f : Fields) (j : Json) :
    f.read (dataLine j) = { f with data := f.data ++ [Json.dumps .compact j] } := by
  simp [Fields.read, dataLine]

theorem read_id (f : Fields) (n : Nat) :
    f.read ("id: ".toList ++ Json.decimal n) = { f with id := Json.decimal n } := by
  simp [Fields.read]

theorem fields_status (iso : RunStream.Printer) (e : RunEvent) :
    fields ((Frame.status e).body iso) =
      ⟨"run.status".toList, Json.decimal e.sequence, [Json.dumps .compact (eventDump iso e)]⟩ := by
  unfold fields
  rw [splitOn_body]
  simp only [Frame.lines, List.foldl_cons, List.foldl_nil, read_id, read_data]
  rfl

theorem fields_preview (iso : RunStream.Printer) (runId : Uuid) (revision : Nat) (text : Text) :
    fields ((Frame.preview runId revision text).body iso) =
      ⟨"answer.preview".toList, [], [Json.dumps .compact (previewDump runId revision text)]⟩ := by
  unfold fields
  rw [splitOn_body]
  simp only [Frame.lines, List.foldl_cons, List.foldl_nil, read_data]
  rfl

theorem fields_error (iso : RunStream.Printer) (code : String) :
    fields ((Frame.error code).body iso) =
      ⟨"stream.error".toList, [], [Json.dumps .compact (.obj [("code".toList, .str code.toList)])]⟩ := by
  unfold fields
  rw [splitOn_body]
  simp only [Frame.lines, List.foldl_cons, List.foldl_nil, read_data]
  rfl

theorem json_single (type id : Text) (j : Json) : (⟨type, id, [Json.dumps .compact j]⟩ : Fields).json = some j := by
  unfold Fields.json
  rw [List.intercalate_singleton, Json.parse_dumps]

theorem readStatus_text (s : Status) : readStatus (statusText s).toList = some s := by
  cases s <;> decide

/-- What `eventSchema` makes of an event. -/
def StatusEvent.of (iso : RunStream.Printer) (e : RunEvent) : StatusEvent :=
  ⟨Json.uuidText e.runId, e.sequence, e.status, iso.text e.occurredAt⟩

theorem eventSchema_dump (iso : RunStream.Printer) {e : RunEvent} (he : 1 ≤ e.sequence ∧ e.sequence ≤ 3) :
    eventSchema (eventDump iso e) = some (.of iso e) := by
  have h : (1 : Int) ≤ e.sequence ∧ (e.sequence : Int) ≤ 3 := by omega
  show (if (1 : Int) ≤ e.sequence ∧ (e.sequence : Int) ≤ 3 then
    (readStatus (statusText e.status).toList).map fun status =>
      (⟨_, Int.toNat e.sequence, status, _⟩ : StatusEvent) else none) = _
  rw [if_pos h, readStatus_text]
  rfl

theorem utf16Length_le_length (t : Text) : utf16Length t ≤ 2 * t.length := by
  induction t with
  | nil => simp [utf16Length]
  | cons c t ih =>
    have hc : (Json.units c).length ≤ 2 := by
      unfold Json.units
      split <;> simp
    show (Json.units c).length + utf16Length t ≤ 2 * (t.length + 1)
    omega

theorem previewSchema_dump {runId : Uuid} {revision : Nat} {text : Text} (hr : revision ≤ 256)
    (ht : text.length ≤ 8000) :
    previewSchema (previewDump runId revision text) = some ⟨Json.uuidText runId, revision, text⟩ := by
  have hunits := utf16Length_le_length text
  have h : ((0 : Int) ≤ revision ∧ (revision : Int) ≤ 256) ∧ utf16Length text ≤ 16000 := by omega
  show (if ((0 : Int) ≤ revision ∧ (revision : Int) ≤ 256) ∧ utf16Length text ≤ 16000 then
    some (⟨_, Int.toNat revision, _⟩ : PreviewText) else none) = _
  rw [if_pos h]
  rfl

theorem handle_type {runId : Text} {previews : Bool} {frame : Text} {f : Fields} (hf : fields frame = f) :
    (f.type = "run.status".toList → handle runId previews s frame = handleStatus runId s f) ∧
      (f.type = "answer.preview".toList → handle runId previews s frame = handlePreview runId previews s f) ∧
      (f.type = "stream.error".toList → handle runId previews s frame = handleError s f) := by
  unfold handle
  rw [hf]
  refine ⟨fun ht => ?_, fun ht => ?_, fun ht => ?_⟩ <;> dsimp only <;> rw [ht]
  · rw [if_neg (show ¬ "run.status".toList = [] by decide)]
    exact if_pos rfl
  · rw [if_neg (show ¬ "answer.preview".toList = [] by decide),
      if_neg (show ¬ "answer.preview".toList = "run.status".toList by decide)]
    exact if_pos rfl
  · rw [if_neg (show ¬ "stream.error".toList = [] by decide),
      if_neg (show ¬ "stream.error".toList = "run.status".toList by decide),
      if_neg (show ¬ "stream.error".toList = "answer.preview".toList by decide),
      if_neg (show ¬ "stream.error".toList = "stream.end".toList by decide),
      if_neg (show ¬ "stream.error".toList = "stream.reconnect".toList by decide)]
    exact if_pos rfl

theorem handle_status (previews : Bool) {n : Nat} {e : RunEvent} (he : (l.events n)[s.cursor]? = some e) :
    handle (Json.uuidText l.runId) previews s ((Frame.status e).body iso) =
      ({ s with calls := s.calls ++ [.event (.of iso e)], cursor := s.cursor + 1 }, none) := by
  have hsequence := RunStream.Log.sequence_eq he
  have hlen := (List.getElem?_eq_some_iff.1 he).1
  have hlimit := l.length_le n
  have hid := RunStream.Log.runId_eq (List.mem_of_getElem? he)
  have hread := eventSchema_dump iso (e := e) (by omega)
  rw [(handle_type (fields_status iso e)).1 rfl]
  unfold handleStatus
  rw [json_single, Option.bind_some, hread]
  have hsame : (StatusEvent.of iso e).runId = Json.uuidText l.runId := by rw [← hid]; rfl
  have hnumber : (StatusEvent.of iso e).sequence = s.cursor + 1 := hsequence
  dsimp only
  rw [hsame, hnumber, hsequence, if_neg (by simp), if_neg (by omega), if_neg (by simp)]

theorem handle_preview (l : RunStream.Log) (iso : RunStream.Printer) (s : Seen) (previews : Bool)
    {revision : Nat} {text : Text} (hr : revision ≤ 256) (ht : text.length ≤ 8000) :
    ∃ s', handle (Json.uuidText l.runId) previews s ((Frame.preview l.runId revision text).body iso) = (s', none) ∧
      s'.cursor = s.cursor ∧ ∃ ps : List PreviewText, s'.calls = s.calls ++ ps.map .preview := by
  rw [(handle_type (fields_preview iso _ _ _)).2.1 rfl]
  unfold handlePreview
  rw [json_single, Option.bind_some, previewSchema_dump hr ht]
  dsimp only
  rw [if_neg (by simp)]
  split
  · refine ⟨_, rfl, rfl, ?_⟩
    dsimp only
    split
    · exact ⟨[⟨_, _, _⟩], rfl⟩
    · exact ⟨[], (List.append_nil _).symm⟩
  · exact ⟨s, rfl, rfl, [], (List.append_nil _).symm⟩

theorem handle_fixed (runId : Text) (previews : Bool) :
    handle runId previews s (Frame.keepAlive.body iso) = (s, none) ∧
      handle runId previews s (Frame.ending.body iso) = (s, some .complete) ∧
      handle runId previews s (Frame.reconnect.body iso) = (s, some .reconnect) := by
  have hfields : ∀ f : Frame, fields (f.body iso) = (f.lines iso).foldl Fields.read ⟨[], [], []⟩ := fun f => by
    rw [← splitOn_body]
    rfl
  unfold handle
  rw [hfields, hfields, hfields]
  exact ⟨rfl, rfl, rfl⟩

theorem handle_failed (iso : RunStream.Printer) (s : Seen) (runId : Text) (previews : Bool) (e : Raised) :
    ∃ status, handle runId previews s ((RunStream.failed e).body iso) = (s, some (.unavailable status)) := by
  obtain ⟨code, hcode⟩ : ∃ code, RunStream.failed e = .error code := by
    unfold RunStream.failed
    split <;> exact ⟨_, rfl⟩
  rw [hcode, (handle_type (fields_error iso code)).2.2 rfl]
  unfold handleError
  rw [json_single, Option.bind_some]
  exact ⟨_, rfl⟩

/-- The events among the calls. -/
def received (calls : List Callback) : List StatusEvent :=
  calls.filterMap fun c => match c with
    | .event e => some e
    | .preview _ => none

theorem received_append (cs ds : List Callback) : received (cs ++ ds) = received cs ++ received ds :=
  List.filterMap_append

theorem received_previews (ps : List PreviewText) : received (ps.map .preview) = [] := by
  simp [received]

/-- The events are the first of the log, as many as the cursor says. -/
def Follows (l : RunStream.Log) (iso : RunStream.Printer) (cursor : Nat) (es : List StatusEvent) : Prop :=
  ∃ n, cursor ≤ (l.events n).length ∧ es = ((l.events n).take cursor).map (.of iso)

theorem Follows.later {cursor : Nat} {es : List StatusEvent} (h : Follows l iso cursor es) (m : Nat) :
    ∃ n, m ≤ n ∧ cursor ≤ (l.events n).length ∧ es = ((l.events n).take cursor).map (.of iso) := by
  obtain ⟨n, hlen, rfl⟩ := h
  have hgrow : l.events n <+: l.events (max m n) := RunStream.Log.events_mono (le_max_right _ _)
  obtain ⟨x, hx⟩ := hgrow
  refine ⟨max m n, le_max_left _ _, hlen.trans (by rw [← hx]; simp), ?_⟩
  rw [← hx, List.take_append_of_le_length hlen]

theorem Follows.next {cursor n : Nat} {es : List StatusEvent} {e : RunEvent} (h : Follows l iso cursor es)
    (he : (l.events n)[cursor]? = some e) : Follows l iso (cursor + 1) (es ++ [.of iso e]) := by
  obtain ⟨m, hm, -, rfl⟩ := h.later n
  have he' : (l.events m)[cursor]? = some e := by
    obtain ⟨x, hx⟩ := RunStream.Log.events_mono (l := l) hm
    rw [← hx, List.getElem?_append_left (List.getElem?_eq_some_iff.1 he).1]
    exact he
  have hlt := (List.getElem?_eq_some_iff.1 he').1
  refine ⟨m, hlt, ?_⟩
  rw [List.take_add_one, he', List.map_append]
  rfl

theorem Follows.terminal {cursor n : Nat} {es : List StatusEvent} (h : Follows l iso cursor es)
    (ht : ∃ e ∈ (l.events n).take cursor, e.status.Terminal) : ∃ e ∈ es, e.status.Terminal := by
  obtain ⟨m, hm, -, rfl⟩ := h.later n
  obtain ⟨e, he, ht⟩ := ht
  have hgrow : (l.events n).take cursor <+: (l.events m).take cursor := (RunStream.Log.events_mono hm).take _
  exact ⟨.of iso e, List.mem_map_of_mem (hgrow.subset he), ht⟩

/-- What has come of some frames, after the events `base` of earlier responses. -/
structure Handled (l : RunStream.Log) (iso : RunStream.Printer) (base : List StatusEvent) (s : Seen)
    (o : Option Outcome) : Prop where
  follows : Follows l iso s.cursor (base ++ received s.calls)
  noFault : ∀ f, o ≠ some (.fault f)
  terminal : o = some .complete → ∃ e ∈ base ++ received s.calls, e.status.Terminal

theorem handleAll_cons {runId : Text} {previews : Bool} {f : Frame} {fs : List Frame} (hf : f.Small iso) :
    handleAll runId previews s ((f :: fs).map (·.body iso)) =
      match (handle runId previews s (f.body iso)).2 with
      | some o => ((handle runId previews s (f.body iso)).1, some o)
      | none => handleAll runId previews (handle runId previews s (f.body iso)).1 (fs.map (·.body iso)) := by
  have hsize : ¬ frameLimit < utf16Length (f.body iso) := by
    have hunits := utf16Length_le (f.body iso)
    have hbytes : RunStream.bytes (f.body iso ++ ['\n', '\n']) ≤ f.bound := hf
    have hbound : f.bound ≤ 50000 := by cases f <;> simp [Frame.bound]
    rw [RunStream.bytes_append] at hbytes
    show ¬ 65536 < _
    omega
  rw [List.map_cons, handleAll, if_neg hsize]

/-- The frames of the server are handled without a fault. -/
theorem handleAll_coherent (iso : RunStream.Printer) (base : List StatusEvent) {fs : List Frame} {cursor : Nat}
    (previews : Bool) (h : RunStream.Coherent l cursor fs) (hs : s.cursor = cursor)
    (hf : Follows l iso cursor (base ++ received s.calls)) :
    Handled l iso base (handleAll (Json.uuidText l.runId) previews s (fs.map (·.body iso))).1
      (handleAll (Json.uuidText l.runId) previews s (fs.map (·.body iso))).2 := by
  have hsmall := h.small iso
  induction h generalizing s with
  | nil => exact ⟨hs ▸ hf, by simp [handleAll], by simp [handleAll]⟩
  | @status cursor n e fs he _ ih =>
    subst hs
    obtain ⟨hone, hrest⟩ := List.forall_mem_cons.1 hsmall
    rw [handleAll_cons hone, handle_status previews he]
    refine ih rfl ?_ hrest
    dsimp only
    rw [received_append, ← List.append_assoc]
    exact hf.next he
  | @preview cursor revision text fs hr ht _ ih =>
    subst hs
    obtain ⟨hone, hrest⟩ := List.forall_mem_cons.1 hsmall
    obtain ⟨s', hs', hcursor, ps, hcalls⟩ := handle_preview l iso s previews hr ht
    rw [handleAll_cons hone, hs']
    refine ih hcursor ?_ hrest
    rw [hcalls, received_append, received_previews, List.append_nil]
    exact hf
  | keepAlive _ ih =>
    subst hs
    obtain ⟨hone, hrest⟩ := List.forall_mem_cons.1 hsmall
    rw [handleAll_cons hone, (handle_fixed _ _).1]
    exact ih rfl hf hrest
  | ending ht =>
    subst hs
    rw [handleAll_cons (hsmall _ List.mem_cons_self), (handle_fixed _ _).2.1]
    exact ⟨hf, by simp, fun _ => hf.terminal ht⟩
  | reconnect =>
    subst hs
    rw [handleAll_cons (hsmall _ List.mem_cons_self), (handle_fixed _ _).2.2]
    exact ⟨hf, by simp, by simp⟩
  | failed _ e =>
    subst hs
    obtain ⟨status, he⟩ := handle_failed iso s (Json.uuidText l.runId) previews e
    rw [handleAll_cons (hsmall _ List.mem_cons_self), he]
    exact ⟨hf, by simp, by simp⟩

end Handle
end EventStream
end RepoPilot
