import RepoPilot.Pages
import RepoPilot.Services

/-! # The transcript in the browser

`ConversationTranscript` loads the end of a conversation and, page by page, what is before it. Its requests can fail, be
repeated or be begun again, while messages are appended and the conversation may be deleted. -/

namespace RepoPilot
namespace ConversationTranscript
open Generation

/-! ### The component -/

structure View where
  messages : List MessageResponse
  before : Option Nat
  next : Option Nat
  loading : Bool
  error : Option String

namespace View

def mounted : View := ⟨[], none, none, true, none⟩

/-- The response to the request for the messages before `before`. -/
def received (v : View) (page : MessagePage) : View :=
  { v with
    messages := if v.before = none then page.items else page.items ++ v.messages
    next := page.nextBefore
    error := none
    loading := false }

def failed (v : View) : View :=
  { v with
    error := some "Unable to load saved messages. Retry history loading; do not resubmit your question."
    loading := false }

end View

structure State where
  system : System
  view : View
  /-- The request under way, with its response on the way back. -/
  request : Option (Option (Except AppError MessagePage))
  expired : Bool
  /-- The messages there were when a request for the end was last served. -/
  served : List Message
  /-- The messages there were when the end that is shown was served. -/
  loaded : List Message

inductive Action
  | system (action : System.Action)
  | refresh
  | retry
  | older
  | turnAway (error : AppError)
  | serve
  | receive
  | lose

variable (env : Env) (userId conversationId : Uuid)

def step (s : State) : Action → State
  | .system a => { s with system := System.step env s.system a }
  | .refresh =>
    if s.expired = false ∧ s.view.loading = false then
      { s with view := { s.view with loading := true, before := none }, request := some none }
    else s
  | .retry =>
    if s.expired = false ∧ s.view.error ≠ none then
      { s with view := { s.view with loading := true }, request := some none }
    else s
  | .older =>
    if s.expired = false ∧ s.view.next ≠ none ∧ s.view.error = none ∧ s.view.loading = false then
      { s with
        view := { s.view with loading := true, before := s.view.next }
        -- the effect runs again when `before` has changed
        request := if s.view.next = s.view.before then s.request else some none }
    else s
  | .turnAway e =>
    match s.request with
    | some none => { s with request := some (some (.error e)) }
    | _ => s
  | .serve =>
    match s.request with
    | some none => { s with
        request := some (some (ConversationService.messages s.system.jobs.db s.system.chat.tables userId conversationId
          s.view.before))
        served := if s.view.before = none then s.system.chat.tables.messagesOf conversationId else s.served }
    | _ => s
  | .receive =>
    match s.request with
    | some (some (.ok page)) => { s with
        view := s.view.received page
        request := none
        loaded := if s.view.before = none then s.served else s.loaded }
    | some (some (.error e)) =>
      if e.status = 401 then { s with view := { s.view with loading := false }, request := none, expired := true }
      else { s with view := s.view.failed, request := none }
    | _ => s
  | .lose =>
    match s.request with
    | some _ => { s with view := s.view.failed, request := none }
    | none => s

/-- The transcript from its mounting on, in a system in any state it can reach. -/
def machine (acts : List System.Action) : Machine State Action :=
  ⟨⟨System.run env acts, .mounted, some none, false, [], []⟩, step env userId conversationId⟩

variable {env userId conversationId} {system : System} {s : State} {read : List Message} {k : Nat}

/-! ### What has been read -/

/-- The messages are the first ones of the conversation, as long as it is there. -/
structure Known (conversationId : Uuid) (system : System) (read : List Message) : Prop where
  positions : read.map (·.position) = List.range' 1 read.length
  room : read.length ≤ 200
  issued : read = [] ∨ conversationId ∈ system.world.issued
  stored : ∀ c ∈ system.chat.tables.conversations, c.id = conversationId →
    read <+: system.chat.tables.messagesOf conversationId

theorem Known.nil (conversationId : Uuid) (system : System) : Known conversationId system [] :=
  ⟨rfl, by simp, .inl rfl, fun _ _ _ => List.nil_prefix⟩

theorem Known.step (h : Known conversationId system read) (hc : System.ChatInv env system) (a : System.Action) :
    Known conversationId (System.step env system a) read := by
  have he := System.extends_step system a hc
  refine ⟨h.positions, h.room, h.issued.imp_right (he.issued _), fun c hcm hid => ?_⟩
  rcases h.issued with rfl | hissued
  · exact List.nil_prefix
  · obtain ⟨⟨c', hc', hid'⟩, hgrown⟩ := he.kept c hcm (hid ▸ hissued)
    rw [hid] at hgrown
    exact (h.stored c' hc' (hid'.trans hid)).trans hgrown

/-- All messages of a conversation that is there. -/
theorem known_all (hc : System.ChatInv env system) {c : Conversation} (hm : c ∈ system.chat.tables.conversations)
    (hid : c.id = conversationId) : Known conversationId system (system.chat.tables.messagesOf conversationId) := by
  have ht := hc.conversations.transcripts c hm
  rw [hid] at ht
  refine ⟨?_, ?_, .inr (hid ▸ hc.conversations.ids c hm), fun _ _ _ => List.prefix_refl _⟩
  · rw [ht.positions, ht.length]
  · rw [ht.length]
    exact ht.room

/-- The page with the messages before the `k`-th of those that were read, up to twenty. -/
def PageAt (read : List Message) (k : Nat) (page : MessagePage) : Prop :=
  page.items = ((read.take k).drop (k - 20)).map MessageResponse.validate ∧
    page.nextBefore = if 20 < k then some (k - 20 + 1) else none

/-- Older messages are offered exactly when the page does not begin with the first. -/
theorem PageAt.next {read : List Message} {page : MessagePage} (h : PageAt read k page) :
    page.nextBefore = if k - 20 = 0 then none else some (k - 20 + 1) := by
  rw [h.2]
  by_cases hlong : 20 < k
  · rw [if_pos hlong, if_neg (Nat.sub_ne_zero_of_lt hlong)]
  · rw [if_neg hlong, if_pos (Nat.sub_eq_zero_of_le (Nat.le_of_not_lt hlong))]

theorem messages_ok (hc : System.ChatInv env system) {before : Option Nat} {page : MessagePage}
    (h : ConversationService.messages system.jobs.db system.chat.tables userId conversationId before = .ok page) :
    (before = none → Known conversationId system (system.chat.tables.messagesOf conversationId) ∧
        PageAt (system.chat.tables.messagesOf conversationId) (system.chat.tables.messagesOf conversationId).length
          page) ∧
      (∀ read k, before = some (k + 1) → Known conversationId system read → k ≤ read.length → PageAt read k page) := by
  unfold ConversationService.messages at h
  cases ho : system.chat.tables.owned system.jobs.db userId conversationId with
  | error e => rw [ho] at h; cases h
  | ok c =>
    rw [ho] at h
    have hpage : (⟨(system.chat.tables.messagePage conversationId before).1.map MessageResponse.validate,
        (system.chat.tables.messagePage conversationId before).2⟩ : MessagePage) = page := Except.ok.inj h
    obtain ⟨hcm, hid, -⟩ := Tables.owned_eq ho
    have hall := known_all hc hcm hid
    refine ⟨fun hb => ⟨hall, ?_⟩, fun read k hb hread hk => ?_⟩
    · rw [← hpage, Tables.messagePage_eq hall.positions le_rfl (.inr ⟨hb, rfl⟩), List.take_length]
      exact ⟨by rw [List.take_length], rfl⟩
    · have hpre := hread.stored c hcm hid
      rw [← hpage, Tables.messagePage_eq hall.positions (hk.trans hpre.length_le) (.inl hb)]
      obtain ⟨later, hlater⟩ := hpre
      rw [← hlater, List.take_append_of_le_length hk]
      exact ⟨rfl, rfl⟩

/-! ### The invariant -/

/-- The view shows what there was from the `k`-th message on, and so at least the last page. -/
structure Shows (env : Env) (conversationId : Uuid) (s : State) (k : Nat) : Prop where
  chat : System.ChatInv env s.system
  known : Known conversationId s.system s.loaded
  bound : k ≤ s.loaded.length - 20
  messages : s.view.messages = (s.loaded.drop k).map MessageResponse.validate
  next : s.view.next = if k = 0 then none else some (k + 1)
  /-- A request asks for the end of the conversation or for what is before the first message shown. -/
  aim : s.view.loading = true ∨ s.view.error ≠ none → s.view.before = none ∨ s.view.before = some (k + 1)
  loading : s.view.loading = true ↔ s.request ≠ none
  idle : s.expired = false → s.view.loading = false → s.view.error = none → s.view.before = s.view.next →
    s.view.next = none
  reply : ∀ page, s.request = some (some (.ok page)) →
    (s.view.before = none → Known conversationId s.system s.served ∧ PageAt s.served s.served.length page) ∧
      (s.view.before = some (k + 1) → PageAt s.loaded k page)

namespace Shows

theorem mounted (env : Env) (conversationId : Uuid) (acts : List System.Action) :
    Shows env conversationId ⟨System.run env acts, .mounted, some none, false, [], []⟩ 0 :=
  ⟨System.chatInv env acts, .nil _ _, le_rfl, rfl, rfl, fun _ => .inl rfl, by simp [View.mounted],
    fun _ h => (by cases h), fun page h => (by simp at h)⟩

theorem act (h : Shows env conversationId s k) (a : System.Action) :
    Shows env conversationId { s with system := System.step env s.system a } k := by
  refine ⟨System.chatInv_step _ a h.chat, h.known.step h.chat a, h.bound, h.messages, h.next, h.aim, h.loading, h.idle,
    fun page hp => ⟨fun hb => ?_, (h.reply page hp).2⟩⟩
  obtain ⟨hall, hpage⟩ := (h.reply page hp).1 hb
  exact ⟨hall.step h.chat a, hpage⟩

/-- A request begins. -/
theorem start (h : Shows env conversationId s k) {before : Option Nat} (hb : before = none ∨ before = some (k + 1)) :
    Shows env conversationId { s with view := { s.view with loading := true, before := before }, request := some none }
      k :=
  ⟨h.chat, h.known, h.bound, h.messages, h.next, fun _ => hb, by simp, fun _ hl => (by cases hl),
    fun page hp => (by simp at hp)⟩

/-- A request fails. -/
theorem fail (h : Shows env conversationId s k) (hr : s.request ≠ none) :
    Shows env conversationId { s with view := s.view.failed, request := none } k :=
  ⟨h.chat, h.known, h.bound, h.messages, h.next, fun _ => h.aim (.inl (h.loading.2 hr)), by simp [View.failed],
    fun _ _ he => (by cases he), fun page hp => (by cases hp)⟩

theorem older (h : Shows env conversationId s k) (hx : s.expired = false) (hn : s.view.next ≠ none)
    (he : s.view.error = none) (hl : s.view.loading = false) :
    Shows env conversationId
      { s with
        view := { s.view with loading := true, before := s.view.next }
        request := if s.view.next = s.view.before then s.request else some none } k := by
  have hk : k ≠ 0 := fun hk => hn (by rw [h.next, if_pos hk])
  rw [if_neg fun heq => hn (h.idle hx hl he heq.symm)]
  exact h.start (.inr (by rw [h.next, if_neg hk]))

theorem serve (userId : Uuid) (h : Shows env conversationId s k) (hr : s.request = some none) :
    Shows env conversationId
      { s with
        request := some (some (ConversationService.messages s.system.jobs.db s.system.chat.tables userId conversationId
          s.view.before))
        served := if s.view.before = none then s.system.chat.tables.messagesOf conversationId else s.served } k := by
  refine ⟨h.chat, h.known, h.bound, h.messages, h.next, h.aim, ?_, h.idle, fun page hp => ?_⟩
  · simp [h.loading, hr]
  · obtain ⟨hall, hat⟩ := messages_ok h.chat (Option.some.inj (Option.some.inj hp))
    refine ⟨fun hb => ?_, fun hb => hat s.loaded k hb h.known (h.bound.trans (Nat.sub_le _ _))⟩
    dsimp only
    rw [if_pos hb]
    exact hall hb

/-- A page is shown: the end of the conversation anew, or the messages before those that were there. -/
theorem receive (h : Shows env conversationId s k) {page : MessagePage} (hr : s.request = some (some (.ok page))) :
    ∃ k', Shows env conversationId
      { s with
        view := s.view.received page
        request := none
        loaded := if s.view.before = none then s.served else s.loaded } k' ∧
      (s.view.before = some (k + 1) → k' = k - 20) := by
  obtain ⟨hend, hat⟩ := h.reply page hr
  rcases h.aim (.inl (h.loading.2 (by simp [hr]))) with hb | hb
  · obtain ⟨hall, hpage⟩ := hend hb
    rw [if_pos hb]
    refine ⟨s.served.length - 20, ⟨h.chat, hall, le_rfl, ?_, hpage.next, ?_, ?_, ?_, ?_⟩, fun hb' => ?_⟩
    · simp [View.received, hb, hpage.1]
    · simp [View.received]
    · simp [View.received]
    · intro _ _ _ heq
      exact heq.symm.trans hb
    · simp
    · rw [hb] at hb'
      cases hb'
  · have hpage := hat hb
    have hbound : k ≤ s.loaded.length := h.bound.trans (Nat.sub_le _ _)
    rw [if_neg (by simp [hb])]
    refine ⟨k - 20, ⟨h.chat, h.known, (Nat.sub_le _ _).trans h.bound, ?_, hpage.next, ?_, ?_, ?_, ?_⟩, fun _ => rfl⟩
    · have hsplit : (s.loaded.take k).drop (k - 20) ++ s.loaded.drop k = s.loaded.drop (k - 20) := by
        have hle : k - 20 ≤ (s.loaded.take k).length := by
          rw [List.length_take, Nat.min_eq_left hbound]
          exact Nat.sub_le _ _
        rw [← List.drop_append_of_le_length hle, List.take_append_drop]
      simp [View.received, hb, hpage.1, h.messages, ← hsplit]
    · simp [View.received]
    · simp [View.received]
    · intro _ _ _ heq
      simp only [View.received, hb, hpage.2] at heq ⊢
      split at heq
      · have := Option.some.inj heq
        omega
      · cases heq
    · simp

end Shows

theorem shows_step (s : State) (a : Action) (h : ∃ k, Shows env conversationId s k) :
    ∃ k, Shows env conversationId (step env userId conversationId s a) k := by
  obtain ⟨k, h⟩ := h
  cases a with
  | system a => exact ⟨k, h.act a⟩
  | refresh =>
    simp only [step]
    split
    · exact ⟨k, h.start (.inl rfl)⟩
    · exact ⟨k, h⟩
  | retry =>
    simp only [step]
    split
    · rename_i hg
      exact ⟨k, h.start (h.aim (.inr hg.2))⟩
    · exact ⟨k, h⟩
  | older =>
    simp only [step]
    split
    · rename_i hg
      exact ⟨k, h.older hg.1 hg.2.1 hg.2.2.1 hg.2.2.2⟩
    · exact ⟨k, h⟩
  | turnAway e =>
    simp only [step]
    split
    · rename_i hr
      exact ⟨k, h.chat, h.known, h.bound, h.messages, h.next, h.aim, by simp [h.loading, hr], h.idle,
        fun page hp => (by simp at hp)⟩
    · exact ⟨k, h⟩
  | serve =>
    simp only [step]
    split
    · exact ⟨k, h.serve userId ‹_›⟩
    · exact ⟨k, h⟩
  | receive =>
    simp only [step]
    split
    · obtain ⟨k', h', -⟩ := h.receive ‹_›
      exact ⟨k', h'⟩
    · rename_i e hr
      split
      · exact ⟨k, h.chat, h.known, h.bound, h.messages, h.next,
          fun _ => h.aim (.inl (h.loading.2 (by simp [hr]))), by simp, fun hx => (by cases hx),
          fun page hp => (by cases hp)⟩
      · exact ⟨k, h.fail (by simp [hr])⟩
    · exact ⟨k, h⟩
  | lose =>
    simp only [step]
    split
    · rename_i hr
      exact ⟨k, h.fail (by simp [hr])⟩
    · exact ⟨k, h⟩

theorem shows (env : Env) (userId conversationId : Uuid) (before : List System.Action) (acts : List Action) :
    ∃ k, Shows env conversationId ((machine env userId conversationId before).run acts) k :=
  Machine.invariant (P := fun s => ∃ k, Shows env conversationId s k)
    ⟨0, .mounted env conversationId before⟩ shows_step acts

/-! ### Reading to the beginning -/

/-- The button for older messages is pressed, if it is there, and answered, after whatever happens meanwhile. -/
def round (gap : List System.Action) : List Action := gap.map .system ++ [.older, .serve, .receive]

/-- Nothing is under way and nothing went wrong. -/
def Ready (s : State) : Prop := s.expired = false ∧ s.view.loading = false ∧ s.view.error = none

/-- A request has failed. -/
def Halted (s : State) : Prop := s.request = none ∧ (s.view.error ≠ none ∨ s.expired = true)

theorem exec_system (before : List System.Action) (s : State) (gap : List System.Action) :
    (machine env userId conversationId before).exec s (gap.map .system) =
      { s with system := (System.machine env).exec s.system gap } := by
  induction gap generalizing s with
  | nil => rfl
  | cons a gap ih => exact ih _

theorem Shows.exec (userId : Uuid) (before : List System.Action) (h : Shows env conversationId s k)
    (gap : List System.Action) :
    Shows env conversationId ((machine env userId conversationId before).exec s (gap.map .system)) k := by
  induction gap generalizing s with
  | nil => exact h
  | cons a gap ih => exact ih (h.act a)

/-- A round shows the twenty messages before, unless its request fails. -/
theorem round_ready (userId : Uuid) (before : List System.Action) (h : Shows env conversationId s k) (hr : Ready s)
    (gap : List System.Action) :
    let s' := (machine env userId conversationId before).exec s (round gap)
    Halted s' ∨ Ready s' ∧ Shows env conversationId s' (k - 20) ∧ s'.loaded = s.loaded := by
  intro s'
  have hs' : s' = (machine env userId conversationId before).exec
      ((machine env userId conversationId before).exec s (gap.map .system)) [.older, .serve, .receive] :=
    Machine.exec_append ..
  have hshow := h.exec userId before gap
  have hready : Ready ((machine env userId conversationId before).exec s (gap.map .system)) := by
    rw [exec_system]
    exact hr
  have hloaded : ((machine env userId conversationId before).exec s (gap.map .system)).loaded = s.loaded := by
    rw [exec_system]
  set s₁ := (machine env userId conversationId before).exec s (gap.map .system) with hs₁
  obtain ⟨hx, hl, he⟩ := hready
  have hidle : s₁.request = none := by
    by_contra hne
    rw [hshow.loading.2 hne] at hl
    cases hl
  by_cases hn : s₁.view.next = none
  · -- the button is not there: all messages are shown
    have hk : k = 0 := by
      by_contra hk
      rw [hshow.next, if_neg hk] at hn
      cases hn
    have hsame : s' = s₁ := by
      rw [hs']
      simp [machine, step, hn, hidle]
    subst hk
    rw [hsame]
    exact .inr ⟨⟨hx, hl, he⟩, hshow, hloaded⟩
  · have holder := hshow.older hx hn he hl
    have hk : k ≠ 0 := fun hk => hn (by rw [hshow.next, if_pos hk])
    have hne : s₁.view.next ≠ s₁.view.before := fun heq => hn (hshow.idle hx hl he heq.symm)
    rw [if_neg hne] at holder
    have hserved := holder.serve userId rfl
    have hbefore : s₁.view.next = some (k + 1) := by rw [hshow.next, if_neg hk]
    rw [hs']
    simp only [Machine.exec_cons, Machine.exec_nil, machine, step, if_pos (⟨hx, hn, he, hl⟩ :
      s₁.expired = false ∧ s₁.view.next ≠ none ∧ s₁.view.error = none ∧ s₁.view.loading = false), if_neg hne]
    cases hm : ConversationService.messages s₁.system.jobs.db s₁.system.chat.tables userId conversationId
        s₁.view.next with
    | ok page =>
      simp only [hm] at hserved ⊢
      obtain ⟨k', hshown, hsame⟩ := hserved.receive rfl
      obtain rfl := hsame hbefore
      exact .inr ⟨⟨hx, rfl, rfl⟩, hshown, (if_neg hn).trans hloaded⟩
    | error e =>
      left
      dsimp only
      split
      · exact ⟨rfl, .inr rfl⟩
      · exact ⟨rfl, .inl (by simp [View.failed])⟩

theorem round_halted (before : List System.Action) (hh : Halted s) (gap : List System.Action) :
    Halted ((machine env userId conversationId before).exec s (round gap)) := by
  unfold round
  rw [Machine.exec_append, exec_system]
  obtain ⟨hr, hh⟩ := hh
  have hno : ¬ (s.expired = false ∧ s.view.next ≠ none ∧ s.view.error = none ∧ s.view.loading = false) := by
    rintro ⟨hx, -, he, -⟩
    rcases hh with hne | hx'
    · exact hne he
    · rw [hx] at hx'
      cases hx'
  simp only [Machine.exec_cons, Machine.exec_nil, machine, step, if_neg hno, hr]
  exact ⟨rfl, hh⟩

theorem rounds_halted (before : List System.Action) (hh : Halted s) (gaps : List (List System.Action)) :
    Halted ((machine env userId conversationId before).exec s (gaps.flatMap round)) := by
  induction gaps generalizing s with
  | nil => exact hh
  | cons gap gaps ih =>
    simp only [List.flatMap_cons, Machine.exec_append]
    exact ih (round_halted before hh gap)

theorem rounds (userId : Uuid) (before : List System.Action) (h : Shows env conversationId s k) (hr : Ready s)
    (gaps : List (List System.Action)) :
    let s' := (machine env userId conversationId before).exec s (gaps.flatMap round)
    Halted s' ∨ Ready s' ∧ Shows env conversationId s' (k - 20 * gaps.length) ∧ s'.loaded = s.loaded := by
  induction gaps generalizing s k with
  | nil => exact .inr ⟨hr, h, rfl⟩
  | cons gap gaps ih =>
    simp only [List.flatMap_cons, Machine.exec_append]
    rcases round_ready userId before h hr gap with hh | ⟨hr', h', hl⟩
    · exact .inl (rounds_halted before hh gaps)
    · have hnext := ih h' hr'
      rwa [show k - 20 - 20 * gaps.length = k - 20 * (gap :: gaps).length by rw [List.length_cons]; omega, hl] at hnext

/-- A conversation with one question, to which nothing was found. -/
def answering : List System.Action :=
  System.conversing ++ ([.ask System.offline none (some "model".toList) 0 10 "question".toList .keyword 13,
    .askStep 0 .go, .askStep 0 (.limited none), .askStep 0 .go, .askStep 0 .go, .askStep 0 .go,
    .askStep 0 (.limited none), .askStep 0 .go, .askStep 0 .go, .askStep 0 .go, .askStep 0 .go] :
      List Chat.Action).map .chat

end ConversationTranscript
end RepoPilot
