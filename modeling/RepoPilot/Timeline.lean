import RepoPilot.ChatInvariant
import RepoPilot.EventStream

/-! # The timeline of a run

`RunTimeline` opens one connection after another. Whatever becomes of each, it is told the first events of the log,
each once and in order, and hears that the stream is complete only after a terminal event (`timeline_follows`). -/

namespace RepoPilot
open Generation Framing EventStream

/-- The state of `RunTimeline`. -/
structure Timeline where
  cursor : Nat
  terminalSeen : Bool
  previewRevision : Int
  preview : Text
  events : List StatusEvent

namespace Timeline

def start : Timeline := ⟨0, false, -1, [], []⟩

def onEvent (t : Timeline) (e : StatusEvent) : Timeline :=
  { t with
    cursor := e.sequence
    terminalSeen := t.terminalSeen || decide e.status.Terminal
    preview := if e.status.Terminal then [] else t.preview
    events := (t.events.filter (·.sequence ≠ e.sequence) ++ [e]).insertionSort fun a b => a.sequence ≤ b.sequence }

def onPreview (t : Timeline) (p : PreviewText) : Timeline :=
  if ¬ t.terminalSeen = true ∧ t.previewRevision ≤ p.revision then
    { t with previewRevision := p.revision, preview := p.text }
  else t

def call (t : Timeline) : Callback → Timeline
  | .event e => t.onEvent e
  | .preview p => t.onPreview p

/-- The timeline after a connection. -/
def ended (t : Timeline) : Outcome → Timeline
  | .reconnect => t
  | _ => { t with preview := [] }

/-- No other connection follows. -/
def Stops : Outcome → Prop
  | .complete => True
  | .unavailable status => status ∈ [401, 403, 404, 409, 422]
  | _ => False

instance (o : Outcome) : Decidable (Stops o) := by
  cases o <;> unfold Stops <;> infer_instance

/-! ### Connections -/

/-- What a connection meets: when the server begins to answer, what its reads meet, the answer of the rate limiter,
and the sizes of the blocks that arrive. What does not arrive in a block is lost, and all of it when there is no
answer. -/
structure Connection where
  start : Nat
  answered : Bool
  first : RunStream.Poll
  limit : Option AppError
  polls : List RunStream.Poll
  sizes : List Nat

def blocks : List Nat → List UInt8 → List (List UInt8)
  | [], _ => []
  | size :: sizes, bytes => bytes.take size :: blocks sizes (bytes.drop size)

def httpStatus : Raised → Nat
  | .app e => e.status
  | _ => 500

/-- `consumeEvents`, with the request and the response. -/
def consume (l : RunStream.Log) (iso : RunStream.Printer) (cursor : Nat) (c : Connection) : List Callback × Outcome :=
  if ¬ c.answered = true then ([], .interrupted)
  else
    match RunStream.route l (Json.decimal cursor) c.first c.limit c.start with
    | .error e => ([], .unavailable (httpStatus e))
    | .ok (from', start) =>
      consumeEvents (Json.uuidText l.runId) cursor true
        (blocks c.sizes (encode (wire iso (RunStream.frames l true 0 start from' none c.polls))))

/-- The timeline, with the events `onEvent` has received and how the connections ended. -/
structure Session where
  timeline : Timeline
  received : List StatusEvent
  outcomes : List Outcome
  stopped : Bool

/-- `connect`. -/
def connect (l : RunStream.Log) (iso : RunStream.Printer) (s : Session) (c : Connection) : Session :=
  if s.stopped = true then s
  else
    let (calls, outcome) := consume l iso s.timeline.cursor c
    ⟨(calls.foldl call s.timeline).ended outcome, s.received ++ received calls, s.outcomes ++ [outcome],
      decide (Stops outcome)⟩

/-- `RunTimeline` as a machine over its connections. -/
def machine (l : RunStream.Log) (iso : RunStream.Printer) : Machine Session Connection :=
  ⟨⟨.start, [], [], false⟩, connect l iso⟩

variable {l : RunStream.Log} {iso : RunStream.Printer}

theorem flatten_blocks (sizes : List Nat) (bytes : List UInt8) : (blocks sizes bytes).flatten <+: bytes := by
  induction sizes generalizing bytes with
  | nil => exact List.nil_prefix
  | cons size sizes ih =>
    show bytes.take size ++ (blocks sizes (bytes.drop size)).flatten <+: bytes
    conv => rhs; rw [← List.take_append_drop size bytes]
    exact (List.prefix_append_right_inj _).2 (ih _)

theorem cursorOf_decimal {cursor n : Nat} (h : RunStream.cursorOf (Json.decimal cursor) = some n) : n = cursor := by
  have hvalue := Json.digitsValue_decimal cursor
  unfold RunStream.cursorOf at h
  split_ifs at h with h0 h1 h2 h3 <;> cases h
  · rw [← hvalue, h0]; rfl
  · rw [← hvalue, h1]; rfl
  · rw [← hvalue, h2]; rfl
  · rw [← hvalue, h3]; rfl

theorem route_cursor {cursor n start start' : Nat} {p : RunStream.Poll} {limit : Option AppError}
    (h : RunStream.route l (Json.decimal cursor) p limit start = .ok (n, start')) : n = cursor := by
  unfold RunStream.route at h
  cases hc : RunStream.cursorOf (Json.decimal cursor) with
  | none =>
    rw [hc] at h
    cases h
  | some m =>
    rw [hc] at h
    obtain ⟨_, -, h⟩ := bind_ok.1 h
    obtain ⟨_, -, h⟩ := bind_ok.1 h
    cases h
    exact cursorOf_decimal hc

theorem some_of_getD {o : Option Outcome} {x : Outcome} (hx : x ≠ .interrupted) (h : o.getD .interrupted = x) :
    o = some x := by
  cases o with
  | none => exact absurd h.symm hx
  | some y => exact congrArg some h

/-- Nothing is said of a stream that has not begun or has broken off. -/
theorem unsettled {o : Outcome} {P : Prop} (h : o = .interrupted ∨ ∃ status, o = .unavailable status) :
    (∀ f, o ≠ .fault f) ∧ (o = .complete → P) := by
  rcases h with rfl | ⟨status, rfl⟩
  · simp
  · simp

/-- The calls of a connection give the next events of the log. -/
theorem consume_follows {base : List StatusEvent} {cursor : Nat} (h : Follows l iso cursor base) (c : Connection) :
    (∃ cursor', Follows l iso cursor' (base ++ received (consume l iso cursor c).1)) ∧
      (∀ f, (consume l iso cursor c).2 ≠ .fault f) ∧
      ((consume l iso cursor c).2 = .complete →
        ∃ e ∈ base ++ received (consume l iso cursor c).1, e.status.Terminal) := by
  have hnothing : ∃ cursor', Follows l iso cursor' (base ++ received []) := ⟨cursor, by simpa [received] using h⟩
  unfold consume
  by_cases hanswered : ¬ c.answered = true
  · rw [if_pos hanswered]
    exact ⟨hnothing, unsettled (.inl rfl)⟩
  rw [if_neg hanswered]
  cases hroute : RunStream.route l (Json.decimal cursor) c.first c.limit c.start with
  | error e => exact ⟨hnothing, unsettled (.inr ⟨_, rfl⟩)⟩
  | ok p =>
    obtain ⟨from', start⟩ := p
    obtain rfl := route_cursor hroute
    have hcoherent := RunStream.frames_coherent l true 0 start from' none c.polls
    have hbound := RunStream.frames_bound l true 0 start from' none c.polls (by decide)
    have hproper := proper_wire iso hcoherent (hbound.trans (by decide))
    obtain ⟨gs, hgs, heq⟩ :=
      consumeEvents_eq (Json.uuidText l.runId) true from' hproper (flatten_blocks c.sizes (encode (wire iso _)))
    obtain ⟨fs, hfs, rfl⟩ := List.prefix_map_iff.1 hgs
    have hhandled := handleAll_coherent iso base (s := .start from') true (hcoherent.of_prefix hfs) rfl
      (by simpa [Seen.start, received] using h)
    dsimp only
    rw [heq]
    exact ⟨⟨_, hhandled.follows⟩, fun f hf => hhandled.noFault f (some_of_getD (by simp) hf),
      fun hf => hhandled.terminal (some_of_getD (by simp) hf)⟩

/-! ### What the timeline shows -/

/-- The events are numbered from one on. -/
def Numbered (es : List StatusEvent) : Prop := es.map (·.sequence) = List.range' 1 es.length

theorem numbered_of_follows {cursor : Nat} {es : List StatusEvent} (h : Follows l iso cursor es) :
    Numbered es ∧ es.length = cursor := by
  obtain ⟨n, hle, rfl⟩ := h
  have hlen : (((l.events n).take cursor).map (StatusEvent.of iso)).length = cursor := by
    rw [List.length_map, List.length_take]
    omega
  refine ⟨?_, hlen⟩
  unfold Numbered
  have hsequence : ((l.events n).take cursor).map (·.sequence) = List.range' 1 cursor := by
    rw [List.map_take, show (l.events n).map (·.sequence) = _ from l.numbered n]
    exact List.take_range'_of_length_ge hle
  rw [hlen, List.map_map]
  exact hsequence

theorem Numbered.next {es fs : List StatusEvent} {e : StatusEvent} (h : Numbered (es ++ e :: fs)) :
    Numbered es ∧ e.sequence = es.length + 1 := by
  unfold Numbered at h ⊢
  rw [List.map_append, List.length_append, ← List.range'_append_1] at h
  obtain ⟨hes, hrest⟩ := List.append_inj h (by simp)
  refine ⟨hes, ?_⟩
  rw [List.map_cons, List.length_cons, List.range'_succ] at hrest
  have := (List.cons.inj hrest).1
  omega

/-- The next event is put behind the events there are. -/
theorem onEvent_events {t : Timeline} {e : StatusEvent} (h : Numbered t.events)
    (he : e.sequence = t.events.length + 1) :
    (t.onEvent e).events = t.events ++ [e] := by
  have hle : ∀ d ∈ t.events, d.sequence ≤ t.events.length := by
    intro d hd
    have hmem : d.sequence ∈ t.events.map (·.sequence) := List.mem_map_of_mem hd
    rw [show t.events.map (·.sequence) = _ from h, List.mem_range'_1] at hmem
    omega
  have hfilter : t.events.filter (·.sequence ≠ e.sequence) = t.events := by
    refine List.filter_eq_self.2 fun d hd => decide_eq_true ?_
    have := hle d hd
    omega
  have hsorted : (t.events ++ [e]).Pairwise fun a b => a.sequence ≤ b.sequence := by
    refine List.pairwise_append.2 ⟨?_, List.pairwise_singleton _ _, fun a ha b hb => ?_⟩
    · have hrange : (t.events.map (·.sequence)).Pairwise (· ≤ ·) := by
        rw [show t.events.map (·.sequence) = _ from h]
        exact (List.pairwise_lt_range' 1).imp Nat.le_of_lt
      exact List.pairwise_map.1 hrange
    · have := hle a ha
      rw [List.mem_singleton.1 hb]
      omega
  show (t.events.filter (·.sequence ≠ e.sequence) ++ [e]).insertionSort _ = _
  rw [hfilter, hsorted.insertionSort_eq]

/-- The timeline shows what `onEvent` receives. -/
theorem foldl_call {t : Timeline} {calls : List Callback} (h : Numbered (t.events ++ received calls))
    (hc : t.cursor = t.events.length) :
    (calls.foldl call t).events = t.events ++ received calls ∧
      (calls.foldl call t).cursor = (t.events ++ received calls).length := by
  induction calls generalizing t with
  | nil => simpa [received] using hc
  | cons c calls ih =>
    cases c with
    | event e =>
      have hsplit : t.events ++ received (.event e :: calls) = (t.events ++ [e]) ++ received calls := by
        simp [received]
      have hnext : Numbered (t.events ++ e :: received calls) := by rwa [hsplit, List.append_assoc] at h
      obtain ⟨hnumbered, he⟩ := hnext.next
      have hevents := onEvent_events hnumbered he
      rw [hsplit] at h ⊢
      rw [← hevents] at h ⊢
      refine ih h ?_
      show e.sequence = (t.onEvent e).events.length
      rw [hevents, List.length_append]
      exact he
    | preview p =>
      have hsame : (t.onPreview p).events = t.events ∧ (t.onPreview p).cursor = t.cursor := by
        unfold onPreview
        split <;> exact ⟨rfl, rfl⟩
      have hskip : received (.preview p :: calls) = received calls := rfl
      rw [hskip, ← hsame.1] at h ⊢
      refine ih h ?_
      show (t.onPreview p).cursor = (t.onPreview p).events.length
      rw [hsame.2, hsame.1, hc]

theorem ended_same (t : Timeline) (o : Outcome) : (t.ended o).events = t.events ∧ (t.ended o).cursor = t.cursor := by
  cases o <;> exact ⟨rfl, rfl⟩

/-- What the connections so far have come to. -/
structure Watching (l : RunStream.Log) (iso : RunStream.Printer) (s : Session) : Prop where
  follows : Follows l iso s.timeline.cursor s.received
  shown : s.timeline.events = s.received
  noFault : ∀ f, .fault f ∉ s.outcomes
  complete : .complete ∈ s.outcomes → ∃ e ∈ s.received, e.status.Terminal

theorem watching_connect (s : Session) (c : Connection) (h : Watching l iso s) :
    Watching l iso (connect l iso s c) := by
  unfold connect
  split
  · exact h
  · obtain ⟨⟨cursor, hfollows⟩, hfault, hcomplete⟩ := consume_follows h.follows c
    obtain ⟨hnumbered, hlen⟩ := numbered_of_follows hfollows
    have hcursor : s.timeline.cursor = s.timeline.events.length := by
      rw [h.shown, (numbered_of_follows h.follows).2]
    have hall : Numbered (s.timeline.events ++ received (consume l iso s.timeline.cursor c).1) := by rwa [h.shown]
    have hfold := foldl_call hall hcursor
    rw [h.shown, hlen] at hfold
    have hended := ended_same ((consume l iso s.timeline.cursor c).1.foldl call s.timeline)
      (consume l iso s.timeline.cursor c).2
    refine ⟨?_, ?_, fun f hf => ?_, fun hc => ?_⟩
    · dsimp only
      rw [hended.2, hfold.2]
      exact hfollows
    · dsimp only
      rw [hended.1, hfold.1]
    · rcases List.mem_append.1 hf with hf | hf
      · exact h.noFault f hf
      · exact hfault f (List.mem_singleton.1 hf).symm
    · rcases List.mem_append.1 hc with hc | hc
      · obtain ⟨e, he, ht⟩ := h.complete hc
        exact ⟨e, List.mem_append_left _ he, ht⟩
      · exact hcomplete (List.mem_singleton.1 hc).symm

theorem watching (l : RunStream.Log) (iso : RunStream.Printer) (cs : List Connection) :
    Watching l iso ((machine l iso).run cs) :=
  Machine.invariant ⟨⟨0, Nat.zero_le _, rfl⟩, rfl, fun _ => List.not_mem_nil, fun h => absurd h List.not_mem_nil⟩
    watching_connect cs

/-- However the reads of the server are timed, the responses cut into blocks and broken off, and however many
connections follow: `onEvent` receives the first events of the log, numbered from one on, and the timeline shows them;
no content of a stream is a fault; and a connection is complete only when a terminal event was received. -/
theorem timeline_follows (l : RunStream.Log) (iso : RunStream.Printer) (cs : List Connection) :
    let s := (machine l iso).run cs
    (∃ n, s.received <+: (l.events n).map (.of iso)) ∧
      s.received.map (·.sequence) = List.range' 1 s.received.length ∧ s.timeline.events = s.received ∧
      (∀ f, .fault f ∉ s.outcomes) ∧ (.complete ∈ s.outcomes → ∃ e ∈ s.received, e.status.Terminal) := by
  have h := watching l iso cs
  obtain ⟨n, -, hreceived⟩ := h.follows
  refine ⟨⟨n, ?_⟩, (numbered_of_follows h.follows).1, h.shown, h.noFault, h.complete⟩
  rw [hreceived]
  exact (List.take_prefix _ _).map _

end Timeline

namespace System
variable {env : Env}

/-! ### The log of a run of the system -/

/-- The state after the first actions of an endless run. -/
def state (env : Env) (acts : Nat → Action) (n : Nat) : System := run env ((List.range n).map acts)

theorem state_succ (env : Env) (acts : Nat → Action) (n : Nat) :
    state env acts (n + 1) = step env (state env acts n) (acts n) := by
  unfold state
  rw [List.range_succ, List.map_append]
  exact (machine env).run_append _ _

/-- The events of a run that stays only grow. -/
theorem eventsOf_grows {s : System} (h : ChatInv env s) (a : Action) {runId : Uuid}
    (hr : ∃ r ∈ s.chat.tables.runs, r.id = runId) (hr' : ∃ r' ∈ (step env s a).chat.tables.runs, r'.id = runId) :
    s.chat.tables.eventsOf runId <+: (step env s a).chat.tables.eventsOf runId := by
  obtain ⟨r', hmem', rfl⟩ := hr'
  obtain ⟨ids, hf, -, he⟩ := chatStep env s a
  rcases Chat.changes h.runs hf he hmem' with ⟨r, -, hs, hc⟩ | hn
  · rw [hs.id]
    cases hc with
    | quiet _ _ _ _ _ events => rw [events]
    | claimed _ _ _ _ events => exact ⟨_, events.symm⟩
    | stopped _ _ _ _ _ events => exact ⟨_, events.symm⟩
    | completed _ _ _ _ _ events => exact ⟨_, events.symm⟩
  · obtain ⟨r, hmem, hid⟩ := hr
    exact absurd (hid ▸ h.runs.ids r hmem) (hf _ hn.id)

/-- What a stream reads of a run of the system, from a time on at which the run is there to stay. -/
def log (env : Env) (acts : Nat → Action) (runId : Uuid) (since : Nat)
    (h : ∀ n, ∃ r ∈ (state env acts (since + n)).chat.tables.runs, r.id = runId) : RunStream.Log where
  runId := runId
  db n := (state env acts (since + n)).jobs.db
  tables n := (state env acts (since + n)).chat.tables
  present := h
  numbered n := by
    obtain ⟨r, hr, rfl⟩ := h n
    exact ((chatInv env _).runs.rows r hr).numbered
  path n r hr hid := hid ▸ ((chatInv env _).runs.rows r hr).path
  grows n := by
    have hnext := state_succ env acts (since + n)
    have hlater := h (n + 1)
    rw [← Nat.add_assoc, hnext] at hlater
    rw [← Nat.add_assoc, hnext]
    exact eventsOf_grows (chatInv env _) _ (h n) hlater

/-- The question is delivered and cancelled. -/
def cancelled : List Action :=
  asking ++ ([.deliver offline none none true 12 14, .cancel 0 12] : List Chat.Action).map .chat

/-- Then nothing happens. -/
def cancelling (n : Nat) : Action := cancelled.getD n (.tick 1)

theorem cancelling_present (n : Nat) :
    ∃ r ∈ (state characters cancelling (asking.length + n)).chat.tables.runs, r.id = 12 := by
  have hlater : ∀ n, (state characters cancelling (asking.length + 2 + n)).chat =
      (state characters cancelling (asking.length + 2)).chat := by
    intro n
    induction n with
    | zero => rfl
    | succ n ih =>
      have htick : cancelling (asking.length + 2 + n) = .tick 1 := by
        have hend : cancelled.length = asking.length + 2 := by simp [cancelled]
        exact List.getD_eq_default _ _ (by omega)
      rw [← Nat.add_assoc, state_succ, htick]
      exact ih
  match n with
  | 0 | 1 => decide +kernel
  | n + 2 =>
    rw [Nat.add_comm n 2, ← Nat.add_assoc, hlater]
    decide +kernel

/-- What a read meets that finds the owner of the run, before anything else happens. -/
def prompt : RunStream.Poll := ⟨false, .ok 0, 0, 0, 0, 0⟩

/-- The first connection breaks off behind its first event; the next one begins after the run has been cancelled. -/
def connections : List Timeline.Connection :=
  [⟨0, true, prompt, none, [prompt, { prompt with beforeRun := 1 }], [300]⟩, ⟨2, true, prompt, none, [prompt], [2000]⟩]

theorem timeline_follows_cancelled :
    let l := log characters cancelling 12 asking.length cancelling_present
    let s := (Timeline.machine l RunStream.utc).run connections
    s.received.map (·.sequence) = [1, 2, 3] ∧ s.outcomes = [.interrupted, .complete] ∧
      (∃ n, s.received <+: (l.events n).map (.of RunStream.utc)) ∧ ∃ e ∈ s.received, e.status.Terminal := by
  intro l s
  have houtcomes : s.outcomes = [.interrupted, .complete] := by decide +kernel
  obtain ⟨hreceived, -, -, -, hcomplete⟩ := Timeline.timeline_follows l RunStream.utc connections
  exact ⟨by decide +kernel, houtcomes, hreceived, hcomplete (by rw [houtcomes]; simp)⟩

end System
end RepoPilot
