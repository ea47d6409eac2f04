import RepoPilot.Framing
import RepoPilot.RunInvariant

/-! # The event stream of a run

`frames` reads the database at most twenty-five times and sends what is new: the events of the run after the
cursor, its preview, and a control frame. The reads of one page are separate, so the run and its events may be of
different times. -/

namespace RepoPilot
open Generation Framing

namespace RunStream

/-! ### The database -/

/-- The database at successive times, with the run in it: its events are numbered, only grow, and end with its
status. -/
structure Log where
  runId : Uuid
  db : Nat → Db
  tables : Nat → Tables
  present : ∀ n, ∃ r ∈ (tables n).runs, r.id = runId
  numbered : ∀ n, ((tables n).eventsOf runId).map (·.sequence) = List.range' 1 ((tables n).eventsOf runId).length
  path : ∀ n, ∀ r ∈ (tables n).runs, r.id = runId → Path (((tables n).eventsOf runId).map (·.status)) r.status
  grows : ∀ n, (tables n).eventsOf runId <+: (tables (n + 1)).eventsOf runId

/-- What a poll meets: the answer of `authenticate`, or an exception; how much time passes before the run, the
greatest sequence and the events are read; and the clock. -/
structure Poll where
  disconnected : Bool
  identity : Except Raised Uuid
  beforeRun : Nat
  beforeMaximum : Nat
  beforeEvents : Nat
  now : Time

namespace Poll
variable (p : Poll) (start : Nat)

def readsRun : Nat := start + p.beforeRun

def readsMaximum : Nat := p.readsRun start + p.beforeMaximum

def readsEvents : Nat := p.readsMaximum start + p.beforeEvents

end Poll

/-! ### `RunStream.page` -/

/-- `EventPage`, with the fields of its `AnswerPreview`. -/
structure EventPage where
  userId : Uuid
  events : List RunEvent
  terminal : Bool
  runId : Uuid
  revision : Nat
  text : Text

def cursorInvalid : AppError :=
  ⟨"event_cursor_invalid", "Event cursor is ahead of this run. Reload its timeline.", 409⟩

/-- `after`. -/
def after (t : Tables) (runId : Uuid) (cursor : Nat) : List RunEvent :=
  (((t.eventsOf runId).filter (cursor < ·.sequence)).insertionSort fun a b => a.sequence ≤ b.sequence).take 3

/-- The preview, while the run is live. -/
def liveText (terminal : Bool) (now : Time) (run : AnswerRun) : Text :=
  if ¬ terminal = true ∧ run.status = .running ∧ Future run.leaseExpiresAt now then run.previewText else []

/-- The validation of `RunEventResponse` and `AnswerPreview`. -/
def Valid (events : List RunEvent) (revision : Nat) (text : Text) : Prop :=
  (∀ e ∈ events, 1 ≤ e.sequence ∧ e.sequence ≤ 3) ∧ revision ≤ 256 ∧ text.length ≤ 8000

instance (events : List RunEvent) (revision : Nat) (text : Text) : Decidable (Valid events revision text) :=
  inferInstanceAs (Decidable (_ ∧ _))

/-- `page`, begun at the time `start`. -/
def page (l : Log) (p : Poll) (start cursor : Nat) : Except Raised EventPage := do
  let userId ← p.identity
  let run ← lift ((l.tables (p.readsRun start)).ownedRun (l.db (p.readsRun start)) userId l.runId)
  refuse ((l.tables (p.readsMaximum start)).lastSequence l.runId < cursor) cursorInvalid
  let events := after (l.tables (p.readsEvents start)) l.runId cursor
  let terminal := decide (run.status.Terminal ∨ ∃ e ∈ events, e.status.Terminal)
  let text := liveText terminal p.now run
  if Valid events run.previewRevision text then .ok ⟨userId, events, terminal, run.id, run.previewRevision, text⟩
  else .error .other

/-! ### `RunStream.frames` -/

inductive Frame
  | status (e : RunEvent)
  | preview (runId : Uuid) (revision : Nat) (text : Text)
  | ending
  | keepAlive
  | reconnect
  | error (code : String)

def statusText : Status → String
  | .queued => "queued"
  | .running => "running"
  | .completed => "completed"
  | .failed => "failed"
  | .cancelled => "cancelled"

/-- How pydantic prints a time. -/
structure Printer where
  text : Time → Text
  short : ∀ t, (text t).length ≤ 64

/-- The last `n` decimals of a number. -/
def decimals (n : Nat) (value : Int) : Text :=
  (List.range n).reverse.map fun i => Nat.digitChar (value / 10 ^ i % 10).toNat

/-- Year, month and day, counted in eras of 400 years from 1 March of the year 0. -/
def civil (day : Int) : Int × Int × Int :=
  let dayOfEra := (day + 719468) % 146097
  let yearOfEra := (dayOfEra - dayOfEra / 1460 + dayOfEra / 36524 - dayOfEra / 146096) / 365
  let dayOfYear := dayOfEra - (365 * yearOfEra + yearOfEra / 4 - yearOfEra / 100)
  let shifted := (5 * dayOfYear + 2) / 153
  let month := if shifted < 10 then shifted + 3 else shifted - 9
  (yearOfEra + (day + 719468) / 146097 * 400 + (if month ≤ 2 then 1 else 0), month,
    dayOfYear - (153 * shifted + 2) / 5 + 1)

/-- The times of the years 1 to 9999 in UTC, since 1970. -/
def utc : Printer where
  text t :=
    let date := civil (t / 86400000000)
    let second := t % 86400000000 / 1000000
    decimals 4 date.1 ++ '-' :: decimals 2 date.2.1 ++ '-' :: decimals 2 date.2.2 ++ 'T' ::
      decimals 2 (second / 3600) ++ ':' :: decimals 2 (second / 60 % 60) ++ ':' :: decimals 2 (second % 60) ++
      (if t % 1000000 = 0 then [] else '.' :: decimals 6 (t % 1000000)) ++ ['Z']
  short t := by
    dsimp only
    split <;> simp [decimals]

example : utc.text 1709210096000123 = "2024-02-29T12:34:56.000123Z".toList := by decide +kernel

/-- `RunEventResponse.model_dump_json`. -/
def eventDump (iso : Printer) (e : RunEvent) : Json :=
  .obj [("run_id".toList, .str (Json.uuidText e.runId)), ("sequence".toList, .num e.sequence),
    ("status".toList, .str (statusText e.status).toList), ("occurred_at".toList, .str (iso.text e.occurredAt))]

/-- `AnswerPreview.model_dump_json`. -/
def previewDump (runId : Uuid) (revision : Nat) (text : Text) : Json :=
  .obj [("run_id".toList, .str (Json.uuidText runId)), ("revision".toList, .num revision), ("text".toList, .str text)]

def dataLine (j : Json) : Text := "data: ".toList ++ Json.dumps .compact j

def Frame.lines (iso : Printer) : Frame → List Text
  | .status e =>
    ["id: ".toList ++ Json.decimal e.sequence, "event: run.status".toList, dataLine (eventDump iso e)]
  | .preview runId revision text =>
    ["event: answer.preview".toList, dataLine (previewDump runId revision text)]
  | .ending => ["event: stream.end".toList, "data: {}".toList]
  | .keepAlive => [": keep-alive".toList]
  | .reconnect => ["event: stream.reconnect".toList, "data: {}".toList]
  | .error code => ["event: stream.error".toList, dataLine (.obj [("code".toList, .str code.toList)])]

/-- A frame without its blank line. -/
def Frame.body (iso : Printer) (f : Frame) : Text := ['\n'].intercalate (f.lines iso)

def Frame.render (iso : Printer) (f : Frame) : Text := f.body iso ++ ['\n', '\n']

/-- The frame that ends the stream when `page` raises. -/
def failed : Raised → Frame
  | .app e => .error (if e.status = 401 then "unauthenticated" else "stream_unavailable")
  | _ => .error "stream_unavailable"

def streamPolls : Nat := 25

/-- `frames` from a tick on. The stream breaks off when the polls come to an end. -/
def frames (l : Log) (previews : Bool) (tick start cursor : Nat) (previous : Option (Nat × Text)) :
    List Poll → List Frame
  | [] => if tick = streamPolls then [.reconnect] else []
  | p :: polls =>
    if tick = streamPolls then [.reconnect]
    else if p.disconnected = true then []
    else
      match page l p start cursor with
      | .error e => [failed e]
      | .ok page =>
        let shown := previews ∧ previous ≠ some (page.revision, page.text)
        let sent := page.events.map .status ++ if shown then [.preview page.runId page.revision page.text] else []
        if page.terminal = true then sent ++ [.ending]
        else
          sent ++ (if tick % 5 = 0 then [.keepAlive] else []) ++
            frames l previews (tick + 1) (p.readsEvents start) (((page.events.map (·.sequence)).getLast?).getD cursor)
              (if shown then some (page.revision, page.text) else previous) polls

/-! ### The route -/

/-- The cursor of the header `Last-Event-ID`. -/
def cursorOf (header : Text) : Option Nat :=
  if header = ['0'] then some 0
  else if header = ['1'] then some 1
  else if header = ['2'] then some 2
  else if header = ['3'] then some 3
  else none

/-- `events`: a page is read before the response begins; `limit` is the answer of the rate limiter. The result is
the cursor, and the time of the last read. -/
def route (l : Log) (header : Text) (p : Poll) (limit : Option AppError) (start : Nat) : Except Raised (Nat × Nat) :=
  match cursorOf header with
  | none => .error (.app ⟨"event_cursor_invalid", "Invalid event cursor.", 422⟩)
  | some cursor => do
    let _ ← page l p start cursor
    check limit
    .ok (cursor, p.readsEvents start)

/-! ### The events of the run -/

namespace Log
variable (l : Log)

def events (n : Nat) : List RunEvent := (l.tables n).eventsOf l.runId

variable {l} {m n : Nat}

theorem events_mono (h : m ≤ n) : l.events m <+: l.events n := by
  induction h with
  | refl => exact List.prefix_rfl
  | step _ ih => exact ih.trans (l.grows _)

theorem exists_path (l : Log) (n : Nat) : ∃ r ∈ (l.tables n).runs, r.id = l.runId ∧
    Path ((l.events n).map (·.status)) r.status := by
  obtain ⟨r, hr, hid⟩ := l.present n
  exact ⟨r, hr, hid, l.path n r hr hid⟩

theorem length_le (l : Log) (n : Nat) : (l.events n).length ≤ 3 := by
  obtain ⟨r, -, -, hpath⟩ := l.exists_path n
  simpa using hpath.length_le

theorem sequence_eq {i : Nat} {e : RunEvent} (h : (l.events n)[i]? = some e) : e.sequence = i + 1 := by
  have hmap : ((l.events n).map (·.sequence))[i]? = some e.sequence := by rw [List.getElem?_map, h]; rfl
  rw [show (l.events n).map (·.sequence) = _ from l.numbered n] at hmap
  have hi : i < (l.events n).length := (List.getElem?_eq_some_iff.1 h).1
  rw [show (l.tables n).eventsOf l.runId = l.events n from rfl, List.getElem?_range' hi] at hmap
  have := Option.some.inj hmap
  omega

theorem runId_eq {e : RunEvent} (h : e ∈ l.events n) : e.runId = l.runId := by
  simpa using (List.mem_filter.1 h).2

end Log

/-- The events after a number are those numbered above it. -/
theorem filter_eq_drop {es : List RunEvent} {k : Nat} (h : es.map (·.sequence) = List.range' (k + 1) es.length)
    (cursor : Nat) : es.filter (cursor < ·.sequence) = es.drop (cursor - k) := by
  induction es generalizing k with
  | nil => simp
  | cons e es ih =>
    simp only [List.map_cons, List.length_cons, List.range'_succ, List.cons.injEq] at h
    have hrest := ih h.2
    by_cases hk : cursor ≤ k
    · rw [List.filter_cons_of_pos (by simp; omega), hrest, show cursor - (k + 1) = 0 by omega,
        show cursor - k = 0 by omega]
      rfl
    · rw [List.filter_cons_of_neg (by simp; omega), hrest, show cursor - k = cursor - (k + 1) + 1 by omega]
      rfl

theorem after_eq (l : Log) (n cursor : Nat) : after (l.tables n) l.runId cursor = (l.events n).drop cursor := by
  have hdrop : (l.events n).filter (cursor < ·.sequence) = (l.events n).drop cursor :=
    filter_eq_drop (k := 0) (l.numbered n) cursor
  have hsorted : ((l.events n).drop cursor).Pairwise fun a b => a.sequence ≤ b.sequence := by
    have hrange : ((l.events n).map (·.sequence)).Pairwise (· ≤ ·) := by
      rw [show (l.events n).map (·.sequence) = _ from l.numbered n]
      exact (List.pairwise_lt_range' 1).imp Nat.le_of_lt
    exact (List.pairwise_map.1 hrange).sublist (List.drop_sublist _ _)
  show (((l.events n).filter (cursor < ·.sequence)).insertionSort _).take 3 = _
  rw [hdrop, hsorted.insertionSort_eq, List.take_of_length_le]
  have := l.length_le n
  rw [List.length_drop]
  omega

/-! ### What a page holds -/

theorem ownedRun_mem {db : Db} {t : Tables} {userId runId : Uuid} {r : AnswerRun}
    (h : t.ownedRun db userId runId = .ok r) :
    r ∈ t.runs ∧ r.id = runId := by
  unfold Tables.ownedRun at h
  split at h
  · cases h
  · rename_i r' hr'
    cases h
    have hwhere := List.find?_some hr'
    exact ⟨List.mem_of_find?_eq_some hr', (of_decide_eq_true hwhere).1⟩

/-- The page has the events after the cursor, and is terminal only if some event is. -/
structure EventPage.Holds (g : EventPage) (l : Log) (n cursor : Nat) : Prop where
  events : g.events = (l.events n).drop cursor
  cursor : cursor ≤ (l.events n).length
  runId : g.runId = l.runId
  revision : g.revision ≤ 256
  text : g.text.length ≤ 8000
  terminal : g.terminal = true → ∃ e ∈ l.events n, e.status.Terminal

theorem page_holds {l : Log} {p : Poll} {start cursor : Nat} {g : EventPage} (h : page l p start cursor = .ok g) :
    g.Holds l (p.readsEvents start) cursor := by
  unfold page at h
  obtain ⟨userId, -, h⟩ := bind_ok.1 h
  obtain ⟨run, hrun, h⟩ := bind_ok.1 h
  obtain ⟨_, hmax, h⟩ := bind_ok.1 h
  have hle : cursor ≤ (l.events (p.readsMaximum start)).length := by
    have := refuse_ok.1 hmax
    rw [Tables.lastSequence_of_numbered (l.numbered _)] at this
    exact Nat.not_lt.1 this
  have hgrow : l.events (p.readsMaximum start) <+: l.events (p.readsEvents start) :=
    Log.events_mono (Nat.le_add_right _ _)
  have hgrow' : l.events (p.readsRun start) <+: l.events (p.readsEvents start) :=
    (Log.events_mono (Nat.le_add_right _ _)).trans hgrow
  obtain ⟨hmem, hid⟩ := ownedRun_mem (lift_ok.1 hrun)
  dsimp only at h
  split at h
  · rename_i hv
    cases h
    refine ⟨after_eq l _ _, hle.trans hgrow.length_le, hid, hv.2.1, hv.2.2, fun ht => ?_⟩
    rcases of_decide_eq_true ht with ht | ⟨e, he, ht⟩
    · -- The run was terminal before the events were read, so its last event was there to be read.
      have hlast := (l.path _ run hmem hid).getLast?
      obtain ⟨e, he, hs⟩ := List.mem_map.1 (List.mem_of_getLast? hlast)
      exact ⟨e, hgrow'.subset he, hs ▸ ht⟩
    · rw [after_eq] at he
      exact ⟨e, List.mem_of_mem_drop he, ht⟩
  · cases h

/-- The cursor after the page counts its events. -/
theorem EventPage.Holds.moved {g : EventPage} {l : Log} {n cursor : Nat} (h : g.Holds l n cursor) :
    ((g.events.map (·.sequence)).getLast?).getD cursor = cursor + g.events.length := by
  rw [h.events, List.map_drop, show (l.events n).map (·.sequence) = _ from l.numbered n, List.drop_range',
    List.getLast?_range', List.length_drop]
  have hlen : ((l.tables n).eventsOf l.runId).length = (l.events n).length := rfl
  have hle := h.cursor
  rw [hlen]
  split <;> simp <;> omega

/-! ### What a stream holds -/

/-- The frames give the events after the cursor one by one; they end, if at all, with a control frame, and with
`ending` only behind a terminal event. -/
inductive Coherent (l : Log) : Nat → List Frame → Prop
  | nil (cursor : Nat) : Coherent l cursor []
  | status {cursor n : Nat} {e : RunEvent} {fs : List Frame} (he : (l.events n)[cursor]? = some e)
      (h : Coherent l (cursor + 1) fs) : Coherent l cursor (.status e :: fs)
  | preview {cursor revision : Nat} {text : Text} {fs : List Frame} (hr : revision ≤ 256) (ht : text.length ≤ 8000)
      (h : Coherent l cursor fs) : Coherent l cursor (.preview l.runId revision text :: fs)
  | keepAlive {cursor : Nat} {fs : List Frame} (h : Coherent l cursor fs) : Coherent l cursor (.keepAlive :: fs)
  | ending {cursor n : Nat} (h : ∃ e ∈ (l.events n).take cursor, e.status.Terminal) : Coherent l cursor [.ending]
  | reconnect (cursor : Nat) : Coherent l cursor [.reconnect]
  | failed (cursor : Nat) (e : Raised) : Coherent l cursor [failed e]

namespace Coherent
variable {l : Log} {cursor : Nat} {fs gs : List Frame}

theorem of_single {f : Frame} (h : Coherent l cursor [f]) (hp : gs <+: [f]) : Coherent l cursor gs := by
  rcases List.prefix_cons_iff.1 hp with rfl | ⟨gs, rfl, hp'⟩
  · exact .nil _
  · exact List.prefix_nil.1 hp' ▸ h

theorem of_prefix (h : Coherent l cursor fs) (hp : gs <+: fs) : Coherent l cursor gs := by
  induction h generalizing gs with
  | nil => exact List.prefix_nil.1 hp ▸ .nil _
  | status he _ ih =>
    rcases List.prefix_cons_iff.1 hp with rfl | ⟨gs, rfl, hp'⟩
    · exact .nil _
    · exact .status he (ih hp')
  | preview hr ht _ ih =>
    rcases List.prefix_cons_iff.1 hp with rfl | ⟨gs, rfl, hp'⟩
    · exact .nil _
    · exact .preview hr ht (ih hp')
  | keepAlive _ ih =>
    rcases List.prefix_cons_iff.1 hp with rfl | ⟨gs, rfl, hp'⟩
    · exact .nil _
    · exact .keepAlive (ih hp')
  | ending ht => exact of_single (.ending ht) hp
  | reconnect => exact of_single (.reconnect _) hp
  | failed _ e => exact of_single (.failed _ e) hp

theorem append_status {n : Nat} {es : List RunEvent} (he : (l.events n).drop cursor = es)
    (h : Coherent l (cursor + es.length) fs) : Coherent l cursor (es.map .status ++ fs) := by
  induction es generalizing cursor with
  | nil => exact h
  | cons e es ih =>
    have hget : (l.events n)[cursor]? = some e := by
      rw [← List.head?_drop, he]
      rfl
    have hrest : (l.events n).drop (cursor + 1) = es := by
      rw [← List.tail_drop, he]
      rfl
    refine .status hget (ih hrest ?_)
    rwa [List.length_cons, ← Nat.add_assoc, Nat.add_right_comm] at h

theorem append_preview {g : EventPage} {n c : Nat} (hg : g.Holds l n c) (q : Prop) [Decidable q]
    (h : Coherent l cursor fs) :
    Coherent l cursor ((if q then [.preview g.runId g.revision g.text] else []) ++ fs) := by
  split
  · exact hg.runId ▸ .preview hg.revision hg.text h
  · exact h

theorem append_keepAlive (q : Prop) [Decidable q] (h : Coherent l cursor fs) :
    Coherent l cursor ((if q then [.keepAlive] else []) ++ fs) := by
  split
  · exact .keepAlive h
  · exact h

end Coherent

theorem frames_coherent (l : Log) (previews : Bool) (tick start cursor : Nat) (previous : Option (Nat × Text))
    (polls : List Poll) : Coherent l cursor (frames l previews tick start cursor previous polls) := by
  induction polls generalizing tick start cursor previous with
  | nil =>
    unfold frames
    split
    · exact .reconnect _
    · exact .nil _
  | cons p polls ih =>
    unfold frames
    by_cases htick : tick = streamPolls
    · rw [if_pos htick]
      exact .reconnect _
    rw [if_neg htick]
    by_cases hdis : p.disconnected = true
    · rw [if_pos hdis]
      exact .nil _
    rw [if_neg hdis]
    cases hpage : page l p start cursor with
    | error e => exact .failed _ e
    | ok g =>
      have hg := page_holds hpage
      dsimp only
      rw [hg.moved]
      by_cases hterminal : g.terminal = true
      · rw [if_pos hterminal, List.append_assoc]
        refine .append_status hg.events.symm (.append_preview hg _ (.ending (n := p.readsEvents start) ?_))
        have hall : cursor + g.events.length = (l.events (p.readsEvents start)).length := by
          have := hg.cursor
          rw [hg.events, List.length_drop]
          omega
        rw [hall, List.take_length]
        exact hg.terminal hterminal
      · rw [if_neg hterminal]
        simp only [List.append_assoc]
        exact .append_status hg.events.symm (.append_preview hg _ (.append_keepAlive _ (ih _ _ _ _)))

/-! ### The size of a frame -/

/-- The number of bytes of a text. -/
def bytes (t : Text) : Nat := (encode t).length

@[simp] theorem bytes_append (s t : Text) : bytes (s ++ t) = bytes s + bytes t := by simp [bytes]

theorem bytes_le (t : Text) : bytes t ≤ 4 * t.length := encode_length_le t

theorem bytes_cons_le (c : Char) (t : Text) : bytes (c :: t) ≤ bytes t + 4 := by
  have hc := bytes_le [c]
  have hsplit := bytes_append [c] t
  simp only [List.cons_append, List.nil_append, List.length_singleton] at hc hsplit
  omega

theorem bytes_ascii {t : Text} (h : ∀ c ∈ t, Json.Ascii c) : bytes t = t.length := by
  induction t with
  | nil => rfl
  | cons c t ih =>
    have hrest := ih fun d hd => h d (List.mem_cons_of_mem _ hd)
    have hc : (String.utf8EncodeChar c).length = 1 := by
      have hlt : c.val.toNat < 128 := (h c List.mem_cons_self).2
      unfold String.utf8EncodeChar
      dsimp only
      rw [if_pos (by omega)]
      rfl
    show (String.utf8EncodeChar c ++ encode t).length = _
    rw [List.length_append, hc, List.length_cons, Nat.add_comm]
    exact congrArg (· + 1) hrest

theorem length_escapeChar (c : Char) : (Json.escapeChar false c).length ≤ 6 := by
  unfold Json.escapeChar
  cases Json.shortEscape c with
  | some e => simp
  | none =>
    dsimp only
    split
    · rename_i hc
      have hlow : c.toNat < 0x10000 := by
        rcases hc with hc | ⟨hc, -⟩
        · omega
        · cases hc
      rw [Json.units, if_pos hlow]
      simp [Json.unicodeEscape, Json.hex4]
    · simp

theorem bytes_escapeChar (c : Char) : bytes (Json.escapeChar false c) ≤ 6 := by
  rcases Json.escapeChar_cases false c with h | ⟨h, -⟩
  · rw [bytes_ascii h]
    exact length_escapeChar c
  · rw [h]
    exact (bytes_le [c]).trans (by simp)

theorem bytes_quote (s : Text) : bytes (Json.quote false s) ≤ 6 * s.length + 8 := by
  have hbody : bytes (s.flatMap (Json.escapeChar false)) ≤ 6 * s.length := by
    induction s with
    | nil => simp [bytes, encode]
    | cons c s ih =>
      have hc := bytes_escapeChar c
      rw [List.flatMap_cons, bytes_append, List.length_cons]
      omega
  have hopen := bytes_cons_le '"' (s.flatMap (Json.escapeChar false) ++ ['"'])
  have hclose := bytes_le ['"']
  simp only [bytes_append, List.length_singleton] at hopen hclose
  show bytes ('"' :: (s.flatMap (Json.escapeChar false) ++ ['"'])) ≤ _
  omega

/-- A bound for one member of an object. -/
def memberBound (p : Text × Json) : Nat := 6 * p.1.length + 16 + bytes (Json.dumps .compact p.2)

theorem bytes_member (k : Text) (v : Json) (t : Text) :
    bytes (Json.quote false k ++ (Json.colon .compact ++ (Json.dumps .compact v ++ t))) ≤
      memberBound (k, v) - 4 + bytes t := by
  have hk := bytes_quote k
  have hcolon := bytes_le (Json.colon .compact)
  have hone : (Json.colon .compact).length = 1 := rfl
  simp only [bytes_append, memberBound]
  omega

theorem bytes_members (kvs : List (Text × Json)) :
    bytes (Json.dumpsMembers .compact kvs) ≤ 4 + (kvs.map memberBound).sum := by
  induction kvs with
  | nil => rw [Json.dumpsMembers]; exact bytes_le _
  | cons p kvs ih =>
    have hp := bytes_member p.1 p.2 (Json.dumpsMembers .compact kvs)
    have hcomma := bytes_le (Json.comma .compact)
    have hone : (Json.comma .compact).length = 1 := rfl
    have hfour : 4 ≤ memberBound p := by unfold memberBound; omega
    rw [Json.dumpsMembers, bytes_append, List.map_cons, List.sum_cons]
    show bytes (Json.comma .compact) + bytes (Json.quote false p.1 ++ _) ≤ _
    have hp' : memberBound (p.1, p.2) = memberBound p := rfl
    omega

theorem bytes_object (kvs : List (Text × Json)) :
    bytes (Json.dumps .compact (.obj kvs)) ≤ 8 + (kvs.map memberBound).sum := by
  cases kvs with
  | nil => rw [Json.dumps]; exact bytes_le _
  | cons p kvs =>
    have hp := bytes_member p.1 p.2 (Json.dumpsMembers .compact kvs)
    have hrest := bytes_members kvs
    have hfour : 4 ≤ memberBound p := by unfold memberBound; omega
    have hp' : memberBound (p.1, p.2) = memberBound p := rfl
    rw [Json.dumps, List.map_cons, List.sum_cons]
    refine (bytes_cons_le _ _).trans ?_
    show bytes (Json.quote false p.1 ++ _) + 4 ≤ _
    omega

theorem bytes_str (s : Text) : bytes (Json.dumps .compact (.str s)) ≤ 6 * s.length + 8 := by
  rw [Json.dumps]
  exact bytes_quote s

theorem bytes_num (n : Nat) : bytes (Json.dumps .compact (.num n)) ≤ 4 * n + 4 := by
  have hlen := Json.length_decimal_le n
  rw [Json.dumps]
  show bytes (Json.decimal n) ≤ _
  exact (bytes_le _).trans (by omega)

theorem bytes_intercalate (ls : List Text) : bytes (['\n'].intercalate ls) ≤ (ls.map (bytes · + 4)).sum := by
  induction ls with
  | nil => simp [bytes, encode]
  | cons l ls ih =>
    cases ls with
    | nil => simp
    | cons m ls =>
      have hone := bytes_le ['\n']
      rw [List.intercalate_cons_of_ne_nil (List.cons_ne_nil _ _), List.map_cons, List.sum_cons]
      simp only [bytes_append, List.length_singleton] at hone ⊢
      omega

/-- What a frame takes up at most. -/
def Frame.bound : Frame → Nat
  | .status _ => 2000
  | .preview _ _ _ => 50000
  | _ => 400

/-- A frame with what it is sent with is not larger than its bound. -/
def Frame.Small (iso : Printer) (f : Frame) : Prop := bytes (f.render iso) ≤ f.bound

theorem bytes_dataLine (kvs : List (Text × Json)) : bytes (dataLine (.obj kvs)) ≤ 32 + (kvs.map memberBound).sum := by
  have hdata := bytes_le "data: ".toList
  have hlen : "data: ".toList.length = 6 := rfl
  have hobj := bytes_object kvs
  unfold dataLine
  rw [bytes_append]
  omega

theorem bytes_render (iso : Printer) (f : Frame) :
    bytes (f.render iso) ≤ ((f.lines iso).map (bytes · + 4)).sum + 8 := by
  have hbody := bytes_intercalate (f.lines iso)
  have hend := bytes_le ['\n', '\n']
  unfold Frame.render Frame.body
  simp only [bytes_append, List.length_cons, List.length_nil] at hend ⊢
  omega

theorem small_status (iso : Printer) {e : RunEvent} (he : e.sequence ≤ 3) : (Frame.status e).Small iso := by
  have hrender := bytes_render iso (.status e)
  have hid := bytes_le ("id: ".toList ++ Json.decimal e.sequence)
  have hdigits := Json.length_decimal_le e.sequence
  have hevent := bytes_le "event: run.status".toList
  have hlen : "event: run.status".toList.length = 17 := rfl
  have hlen' : "id: ".toList.length = 4 := rfl
  have hdata : bytes (dataLine (eventDump iso e)) ≤ _ := bytes_dataLine _
  have huuid := bytes_str (Json.uuidText e.runId)
  have hsequence := bytes_num e.sequence
  have hstatus := bytes_str (statusText e.status).toList
  have hstatus' : (statusText e.status).toList.length ≤ 9 := by cases e.status <;> decide
  have htime := bytes_str (iso.text e.occurredAt)
  have hshort := iso.short e.occurredAt
  have hk1 : "run_id".toList.length = 6 := rfl
  have hk2 : "sequence".toList.length = 8 := rfl
  have hk3 : "status".toList.length = 6 := rfl
  have hk4 : "occurred_at".toList.length = 11 := rfl
  simp only [Frame.lines, memberBound, Json.length_uuidText, List.map_cons, List.map_nil, List.sum_cons, List.sum_nil,
    List.length_append] at *
  show _ ≤ 2000
  omega

theorem small_preview (iso : Printer) {runId : Uuid} {revision : Nat} {text : Text} (hr : revision ≤ 256)
    (ht : text.length ≤ 8000) : (Frame.preview runId revision text).Small iso := by
  have hrender := bytes_render iso (.preview runId revision text)
  have hevent := bytes_le "event: answer.preview".toList
  have hlen : "event: answer.preview".toList.length = 21 := rfl
  have hdata : bytes (dataLine (previewDump runId revision text)) ≤ _ := bytes_dataLine _
  have huuid := bytes_str (Json.uuidText runId)
  have hrevision := bytes_num revision
  have htext := bytes_str text
  have hk1 : "run_id".toList.length = 6 := rfl
  have hk2 : "revision".toList.length = 8 := rfl
  have hk3 : "text".toList.length = 4 := rfl
  simp only [Frame.lines, memberBound, Json.length_uuidText, List.map_cons, List.map_nil, List.sum_cons,
    List.sum_nil] at *
  show _ ≤ 50000
  omega

theorem small_failed (iso : Printer) (e : Raised) : (failed e).Small iso := by
  have hcode : ∃ code, failed e = .error code ∧ code.toList.length ≤ 18 := by
    unfold failed
    split
    · split
      · exact ⟨_, rfl, by decide⟩
      · exact ⟨_, rfl, by decide⟩
    · exact ⟨_, rfl, by decide⟩
  obtain ⟨code, hf, hcode⟩ := hcode
  rw [hf]
  have hrender := bytes_render iso (.error code)
  have hevent := bytes_le "event: stream.error".toList
  have hlen : "event: stream.error".toList.length = 19 := rfl
  have hdata : bytes (dataLine (.obj [("code".toList, .str code.toList)])) ≤ _ := bytes_dataLine _
  have htext := bytes_str code.toList
  have hk : "code".toList.length = 4 := rfl
  simp only [Frame.lines, memberBound, List.map_cons, List.map_nil, List.sum_cons, List.sum_nil] at *
  show _ ≤ 400
  omega

theorem small_fixed (iso : Printer) {f : Frame} (hf : f = .ending ∨ f = .keepAlive ∨ f = .reconnect) : f.Small iso := by
  rcases hf with rfl | rfl | rfl
  · exact (bytes_le (Frame.ending.render iso)).trans (show 4 * 28 ≤ 400 by omega)
  · exact (bytes_le (Frame.keepAlive.render iso)).trans (show 4 * 14 ≤ 400 by omega)
  · exact (bytes_le (Frame.reconnect.render iso)).trans (show 4 * 34 ≤ 400 by omega)

theorem Coherent.small {l : Log} {cursor : Nat} {fs : List Frame} (iso : Printer) (h : Coherent l cursor fs) :
    ∀ f ∈ fs, f.Small iso := by
  induction h with
  | nil => simp
  | @status cursor n e fs he _ ih =>
    have hle : e.sequence ≤ 3 := by
      have hlen := (List.getElem?_eq_some_iff.1 he).1
      have := l.length_le n
      rw [Log.sequence_eq he]
      omega
    exact List.forall_mem_cons.2 ⟨small_status iso hle, ih⟩
  | preview hr ht _ ih => exact List.forall_mem_cons.2 ⟨small_preview iso hr ht, ih⟩
  | keepAlive _ ih => exact List.forall_mem_cons.2 ⟨small_fixed iso (by simp), ih⟩
  | ending _ => exact List.forall_mem_singleton.2 (small_fixed iso (by simp))
  | reconnect _ => exact List.forall_mem_singleton.2 (small_fixed iso (by simp))
  | failed _ e => exact List.forall_mem_singleton.2 (small_failed iso e)

theorem bound_failed (e : Raised) : (failed e).bound = 400 := by
  unfold failed
  split <;> rfl

/-- Twenty-five pages stay far below the limit of a stream. -/
theorem frames_bound (l : Log) (previews : Bool) (tick start cursor : Nat) (previous : Option (Nat × Text))
    (polls : List Poll) (ht : tick ≤ streamPolls) :
    ((frames l previews tick start cursor previous polls).map Frame.bound).sum ≤
      (streamPolls - tick) * 57000 + 400 := by
  induction polls generalizing tick start cursor previous with
  | nil =>
    unfold frames
    split <;> simp [Frame.bound]
  | cons p polls ih =>
    unfold frames
    by_cases htick : tick = streamPolls
    · rw [if_pos htick]
      simp [Frame.bound]
    rw [if_neg htick]
    by_cases hdis : p.disconnected = true
    · rw [if_pos hdis]
      simp
    rw [if_neg hdis]
    cases hpage : page l p start cursor with
    | error e => simp [bound_failed]
    | ok g =>
      have hg := page_holds hpage
      have hevents : ((g.events.map Frame.status).map Frame.bound).sum ≤ 6000 := by
        have hlen : g.events.length ≤ 3 := by
          have := l.length_le (p.readsEvents start)
          rw [hg.events, List.length_drop]
          omega
        have hsum : ((g.events.map Frame.status).map Frame.bound).sum = 2000 * g.events.length := by
          simp [Function.comp_def, Frame.bound, Nat.mul_comm]
        omega
      have hpreview : ∀ (q : Prop) [Decidable q],
          ((if q then [Frame.preview g.runId g.revision g.text] else []).map Frame.bound).sum ≤ 50000 := by
        intro q _
        split <;> simp [Frame.bound]
      have halive : ((if tick % 5 = 0 then [Frame.keepAlive] else []).map Frame.bound).sum ≤ 400 := by
        split <;> simp [Frame.bound]
      have hmore : streamPolls - tick = streamPolls - (tick + 1) + 1 := by omega
      dsimp only
      by_cases hterminal : g.terminal = true
      · rw [if_pos hterminal, List.map_append, List.sum_append, List.map_append, List.sum_append]
        have := hpreview (previews = true ∧ previous ≠ some (g.revision, g.text))
        simp only [List.map_cons, List.map_nil, List.sum_cons, List.sum_nil, Frame.bound] at *
        omega
      · rw [if_neg hterminal]
        have := hpreview (previews = true ∧ previous ≠ some (g.revision, g.text))
        have hrest := ih (tick + 1) (p.readsEvents start) (((g.events.map (·.sequence)).getLast?).getD cursor)
          (if previews = true ∧ previous ≠ some (g.revision, g.text) then some (g.revision, g.text) else previous)
          (by omega)
        simp only [List.map_append, List.sum_append] at *
        omega

/-! ### The lines of a frame -/

/-- A line is not empty and has no control characters. -/
def PlainLine (m : Text) : Prop := m ≠ [] ∧ ∀ c ∈ m, 32 ≤ c.toNat

theorem plain_dataLine (j : Json) : PlainLine (dataLine j) :=
  ⟨by simp [dataLine], List.forall_mem_append.2 ⟨by simp, Json.plain_dumps .compact j⟩⟩

theorem plain_lines (iso : Printer) (f : Frame) : ∀ m ∈ f.lines iso, PlainLine m := by
  have hfixed : ∀ s : String, s ∈ ["event: run.status", "event: answer.preview", "event: stream.end", "data: {}",
      ": keep-alive", "event: stream.reconnect", "event: stream.error"] → PlainLine s.toList := by
    intro s hs
    simp only [List.mem_cons, List.not_mem_nil, or_false] at hs
    rcases hs with rfl | rfl | rfl | rfl | rfl | rfl | rfl <;> exact ⟨by simp, by simp⟩
  have hid : ∀ n, PlainLine ("id: ".toList ++ Json.decimal n) := fun n =>
    ⟨by simp, List.forall_mem_append.2 ⟨by simp, fun c hc => Json.isDigit_plain (Json.isDigit_of_mem_decimal c hc)⟩⟩
  cases f <;> simp only [Frame.lines, List.forall_mem_cons, List.not_mem_nil, false_imp_iff, implies_true, and_true]
  all_goals first
    | exact ⟨hid _, hfixed _ (by simp), plain_dataLine _⟩
    | exact ⟨hfixed _ (by simp), plain_dataLine _⟩
    | exact ⟨hfixed _ (by simp), hfixed _ (by simp)⟩
    | exact hfixed _ (by simp)

end RunStream
end RepoPilot
