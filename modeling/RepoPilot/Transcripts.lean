import RepoPilot.RunInvariant

/-! # Transcripts

The messages of a conversation are numbered pairs of a question and its answer, and the conversation
counts them. -/

namespace RepoPilot
open Generation

namespace Tables

/-- The messages of a conversation. -/
def messagesOf (t : Tables) (conversationId : Uuid) : List Message :=
  t.messages.filter (·.conversationId = conversationId)

/-- `count` messages, numbered from one: pairs of a user and an assistant message, each pair one turn. -/
structure Transcript (count : Nat) (ms : List Message) : Prop where
  length : ms.length = count
  even : count % 2 = 0
  room : count ≤ 200
  positions : ms.map (·.position) = List.range' 1 count
  user : ∀ m ∈ ms, m.position % 2 = 1 → m.role = .user
  assistant : ∀ m ∈ ms, m.position % 2 = 0 → m.role = .assistant
  shared : ∀ m ∈ ms, ∀ m' ∈ ms, ∀ k, m.position = 2 * k + 1 → m'.position = 2 * k + 2 → m.turnId = m'.turnId
  distinct : ∀ m ∈ ms, ∀ m' ∈ ms, m.turnId = m'.turnId → (m.position + 1) / 2 = (m'.position + 1) / 2

namespace Transcript
variable {count : Nat} {ms : List Message}

theorem nil : Transcript 0 [] :=
  ⟨rfl, rfl, Nat.zero_le _, rfl, List.forall_mem_nil _, List.forall_mem_nil _, List.forall_mem_nil _,
    List.forall_mem_nil _⟩

theorem position (h : Transcript count ms) {m : Message} (hm : m ∈ ms) : 1 ≤ m.position ∧ m.position ≤ count := by
  have hp : m.position ∈ List.range' 1 count := h.positions ▸ List.mem_map_of_mem hm
  rw [List.mem_range'_1] at hp
  omega

/-- Another pair, of a new turn. -/
theorem append (h : Transcript count ms) (hroom : count ≤ 198) {conversationId : Uuid} {question : Text}
    {answer : AnswerResponse} (hnew : ∀ m ∈ ms, m.turnId ≠ answer.answerId) :
    Transcript (count + 2) (ms ++ pair conversationId (count + 2) question answer) := by
  have heven := h.even
  have hpair : ∀ m ∈ pair conversationId (count + 2) question answer, m.turnId = answer.answerId ∧
      (m.position = count + 1 ∧ m.role = .user ∨ m.position = count + 2 ∧ m.role = .assistant) := by
    intro m hm
    unfold pair at hm
    simp only [List.mem_cons, List.not_mem_nil, or_false] at hm
    rcases hm with rfl | rfl
    · exact ⟨rfl, .inl ⟨rfl, rfl⟩⟩
    · exact ⟨rfl, .inr ⟨rfl, rfl⟩⟩
  refine ⟨?_, by omega, by omega, ?_, ?_, ?_, ?_, ?_⟩
  · rw [List.length_append, h.length]
    rfl
  · rw [List.map_append, h.positions]
    show List.range' 1 count ++ [count + 2 - 1, count + 2] = List.range' 1 (count + 2)
    rw [List.range'_concat, List.range'_concat, List.append_assoc]
    simp only [Nat.one_mul, List.singleton_append]
    congr 2
    · omega
    · congr 1
      omega
  · intro m hm hodd
    rcases List.mem_append.1 hm with hm | hm
    · exact h.user m hm hodd
    · rcases (hpair m hm).2 with ⟨-, hr⟩ | ⟨hp, -⟩
      · exact hr
      · omega
  · intro m hm hev
    rcases List.mem_append.1 hm with hm | hm
    · exact h.assistant m hm hev
    · rcases (hpair m hm).2 with ⟨hp, -⟩ | ⟨-, hr⟩
      · omega
      · exact hr
  · intro m hm m' hm' k hk hk'
    rcases List.mem_append.1 hm with hm | hm <;> rcases List.mem_append.1 hm' with hm' | hm'
    · exact h.shared m hm m' hm' k hk hk'
    · have hpos := h.position hm
      rcases (hpair m' hm').2 with ⟨hp, -⟩ | ⟨hp, -⟩ <;> omega
    · have hpos := h.position hm'
      rcases (hpair m hm).2 with ⟨hp, -⟩ | ⟨hp, -⟩ <;> omega
    · rw [(hpair m hm).1, (hpair m' hm').1]
  · intro m hm m' hm' he
    rcases List.mem_append.1 hm with hm | hm <;> rcases List.mem_append.1 hm' with hm' | hm'
    · exact h.distinct m hm m' hm' he
    · exact absurd (he.trans (hpair m' hm').1) (hnew m hm)
    · exact absurd (he.symm.trans (hpair m hm).1) (hnew m' hm')
    · rcases (hpair m hm).2 with ⟨hp, -⟩ | ⟨hp, -⟩ <;> rcases (hpair m' hm').2 with ⟨hp', -⟩ | ⟨hp', -⟩ <;> omega

end Transcript
end Tables

/-- The question has come to an end. -/
def AskPc.Over : AskPc → Prop
  | .done _ => True
  | _ => False

namespace Chat
variable {env : Env} {now : Time} {ids : List Uuid} {db : Db} {w w' : World} {s : Chat} {t' : Tables}
  {as' : List Ask} {sb' : List Runs.Submit} {ws' : List Runs.Worker} {log' : List Entry}

structure ConversationInv (w : World) (s : Chat) : Prop where
  keyed : Table.Keyed (·.id) s.tables.conversations
  ids : ∀ c ∈ s.tables.conversations, c.id ∈ w.issued
  runs : ∀ r ∈ s.tables.runs, ∃ c ∈ s.tables.conversations, c.id = r.conversationId
  messages : ∀ m ∈ s.tables.messages, ∃ c ∈ s.tables.conversations, c.id = m.conversationId
  transcripts : ∀ c ∈ s.tables.conversations, Tables.Transcript c.messageCount (s.tables.messagesOf c.id)
  askKeys : Table.Keyed (·.answerId) s.asks
  pending : ∀ p ∈ s.asks, ¬ p.pc.Over → ∀ m ∈ s.tables.messages, m.turnId ≠ p.answerId

/-! ### What an action does to conversations and their messages -/

/-- The pair appended to a conversation, and nothing else. -/
structure Appended (now : Time) (s : Chat) (t' : Tables) (userId conversationId : Uuid) (question : Text)
    (answer : AnswerResponse) (c : Conversation) : Prop where
  mem : c ∈ s.tables.conversations
  room : Tables.HasRoom userId conversationId c
  new : ∀ m ∈ s.tables.messagesOf conversationId, m.turnId ≠ answer.answerId
  conversations : t'.conversations =
    Table.update (Tables.HasRoom userId conversationId) (Tables.counted now) s.tables.conversations
  messages : t'.messages = s.tables.messages ++ Tables.pair conversationId (c.messageCount + 2) question answer

/-- What an action does to conversations and messages. -/
inductive Conversed (now : Time) (ids : List Uuid) (db : Db) (s : Chat) (t' : Tables) : Prop
  | kept (conversations : t'.conversations = s.tables.conversations) (messages : t'.messages = s.tables.messages)
  | created {c : Conversation} (hid : c.id ∈ ids) (hcount : c.messageCount = 0)
    (owns : db.Owns c.userId c.repositoryId)
    (conversations : t'.conversations = s.tables.conversations ++ [c]) (messages : t'.messages = s.tables.messages)
  | removed (p : Conversation → Bool) (h : t' = s.tables.deleteConversations p)
  | appended {userId conversationId : Uuid} {question : Text} {answer : AnswerResponse} {c : Conversation}
    (h : Appended now s t' userId conversationId question answer c)

theorem conversed (hi : RunInv w s) (h : ConversationInv w s) (hw : Written now ids db s t' as') :
    Conversed now ids db s t' := by
  cases hw with
  | kept _ _ messages conversations => exact .kept conversations messages
  | created hid hcount owns h =>
    rw [h]
    exact .created hid hcount owns rfl rfl
  | rewritten _ _ _ messages conversations => exact .kept conversations messages
  | moved hid h => exact .kept h.conversations h.messages
  | removed p h => exact .removed p h
  | inserted hid hr h =>
    rw [h]
    exact .kept rfl rfl
  | @published k conversationId question call answer run c hk hpc hrun hheld hc hroom ht =>
    refine .appended ⟨hc, hroom, fun m hm he => ?_, ht.conversations, ht.messages⟩
    have hserves := hi.workers k hk
    unfold Runs.Worker.Serves at hserves
    rw [hpc] at hserves
    have hconv : run.conversationId = conversationId := (hserves.1.row run hrun hheld.1).1
    have hid : answer.answerId = run.id := hserves.2.trans hheld.1.symm
    have hturn := (hi.rows run hrun).turn
    rw [hheld.2.1, if_neg (by decide), List.map_eq_nil_iff] at hturn
    obtain ⟨hm, hmc⟩ := List.mem_filter.1 hm
    have hmem : m ∈ s.tables.turn run.conversationId run.id :=
      List.mem_filter.2 ⟨hm, decide_eq_true ⟨(of_decide_eq_true hmc).trans hconv.symm, he.trans hid⟩⟩
    rw [hturn] at hmem
    cases hmem
  | asked hp _ hpc hc hroom _ _ messages conversations =>
    have hpm := Table.mem_of_getElem? hp
    refine .appended ⟨hc, hroom, fun m hm he => ?_, conversations, messages⟩
    rw [(hi.asks _ hpm).answer hpc] at he
    refine h.pending _ hpm (fun hover => ?_) m (List.mem_of_mem_filter hm) he
    rw [hpc] at hover
    exact hover

theorem Conversed.keyed (h : Conversed now ids db s t') (hi : ConversationInv w s) (hf : ∀ i ∈ ids, i ∉ w.issued) :
    Table.Keyed (·.id) t'.conversations := by
  cases h with
  | kept conversations => rw [conversations]; exact hi.keyed
  | created hid hcount owns conversations =>
    rw [conversations]
    exact hi.keyed.insert fun c hc he => hf _ hid (he ▸ hi.ids c hc)
  | removed p h => rw [h]; exact hi.keyed.filter _
  | appended h =>
    rw [h.conversations]
    exact hi.keyed.update fun _ _ _ => rfl

/-- A conversation of the later table is an old one or the new one. -/
theorem Conversed.mem (h : Conversed now ids db s t') {c' : Conversation} (hc' : c' ∈ t'.conversations) :
    (∃ c ∈ s.tables.conversations, c.id = c'.id ∧ c.userId = c'.userId ∧ c.repositoryId = c'.repositoryId) ∨
      c'.id ∈ ids ∧ db.Owns c'.userId c'.repositoryId := by
  cases h with
  | kept conversations => exact .inl ⟨c', conversations ▸ hc', rfl, rfl, rfl⟩
  | created hid hcount owns conversations =>
    rw [conversations] at hc'
    rcases List.mem_append.1 hc' with hc' | hc'
    · exact .inl ⟨c', hc', rfl, rfl, rfl⟩
    · rw [List.mem_singleton.1 hc']
      exact .inr ⟨hid, owns⟩
  | removed p h =>
    rw [h] at hc'
    exact .inl ⟨c', List.mem_of_mem_filter hc', rfl, rfl, rfl⟩
  | appended h =>
    rw [h.conversations] at hc'
    obtain ⟨c, hc, rfl⟩ := Table.mem_update.1 hc'
    refine .inl ⟨c, hc, ?_⟩
    split <;> exact ⟨rfl, rfl, rfl⟩

/-- A conversation stays, unless it is deleted with its messages and runs. -/
theorem Conversed.stays (h : Conversed now ids db s t') {c : Conversation} (hc : c ∈ s.tables.conversations)
    (hp : ∀ p, t' = s.tables.deleteConversations p → p c = false) : ∃ c' ∈ t'.conversations, c'.id = c.id := by
  cases h with
  | kept conversations => exact ⟨c, conversations ▸ hc, rfl⟩
  | created hid hcount owns conversations =>
    rw [conversations]
    exact ⟨c, List.mem_append_left _ hc, rfl⟩
  | removed p h =>
    have hno := hp p h
    rw [h]
    exact ⟨c, List.mem_filter.2 ⟨hc, by simp [hno]⟩, rfl⟩
  | appended h =>
    rw [h.conversations]
    exact ⟨_, Table.mem_update_of_mem hc, by split <;> rfl⟩

theorem messagesOf_deleteConversations (p : Conversation → Bool) {t : Tables} (hk : Table.Keyed (·.id) t.conversations)
    {c : Conversation} (hc : c ∈ (t.deleteConversations p).conversations) :
    (t.deleteConversations p).messagesOf c.id = t.messagesOf c.id := by
  obtain ⟨hc, hno⟩ := List.mem_filter.1 hc
  have hstay : c.id ∉ (t.conversations.filter p).map (·.id) := by
    intro hm
    obtain ⟨q, hq, hid⟩ := List.mem_map.1 hm
    obtain ⟨hq, hgone⟩ := List.mem_filter.1 hq
    rw [hk.eq hq hc hid] at hgone
    simp [hgone] at hno
  unfold Tables.messagesOf Tables.deleteConversations
  dsimp only
  rw [List.filter_filter]
  refine List.filter_congr fun m _ => ?_
  by_cases hm : m.conversationId = c.id
  · simpa [hm] using hstay
  · simp [hm]

theorem pair_conversation (conversationId : Uuid) (count : Nat) (question : Text) (answer : AnswerResponse) (x : Uuid) :
    ((Tables.pair conversationId count question answer).filter fun m => m.conversationId = x) =
      if conversationId = x then Tables.pair conversationId count question answer else [] := by
  unfold Tables.pair
  by_cases h : conversationId = x <;> simp [h]

theorem Conversed.transcripts (h : Conversed now ids db s t') (hi : ConversationInv w s)
    (hf : ∀ i ∈ ids, i ∉ w.issued) :
    ∀ c ∈ t'.conversations, Tables.Transcript c.messageCount (t'.messagesOf c.id) := by
  cases h with
  | kept conversations messages =>
    rw [conversations]
    intro c hc
    unfold Tables.messagesOf
    rw [messages]
    exact hi.transcripts c hc
  | @created c₀ hid hcount owns conversations messages =>
    rw [conversations]
    intro c hc
    unfold Tables.messagesOf
    rw [messages]
    rcases List.mem_append.1 hc with hc | hc
    · exact hi.transcripts c hc
    · rw [List.mem_singleton.1 hc, hcount]
      have hnone : s.tables.messages.filter (·.conversationId = c₀.id) = [] := by
        refine List.filter_eq_nil_iff.2 fun m hm he => hf _ hid ?_
        obtain ⟨c', hc', hcm⟩ := hi.messages m hm
        rw [← of_decide_eq_true he, ← hcm]
        exact hi.ids c' hc'
      rw [hnone]
      exact .nil
  | removed p h =>
    rw [h]
    intro c hc
    rw [messagesOf_deleteConversations p hi.keyed hc]
    exact hi.transcripts c (List.mem_of_mem_filter hc)
  | @appended userId conversationId question answer c₀ h =>
    rw [h.conversations]
    intro c' hc'
    obtain ⟨c, hc, rfl⟩ := Table.mem_update.1 hc'
    unfold Tables.messagesOf
    rw [h.messages, List.filter_append]
    split
    · rename_i hroom
      have hsame : c = c₀ := hi.keyed.eq hc h.mem (hroom.1.trans h.room.1.symm)
      subst hsame
      show Tables.Transcript (c.messageCount + 2) (_ ++ (Tables.pair _ _ _ _).filter fun m => m.conversationId = c.id)
      rw [pair_conversation, if_pos hroom.1.symm]
      exact (hi.transcripts c hc).append hroom.2.2 fun m hm => h.new m (hroom.1 ▸ hm)
    · rename_i hno
      rw [pair_conversation, if_neg, List.append_nil]
      · exact hi.transcripts c hc
      · intro he
        have hsame : c = c₀ := hi.keyed.eq hc h.mem (he.symm.trans h.room.1.symm)
        exact hno (hsame ▸ h.room)

/-- Every message is in a conversation. -/
theorem Conversed.messages (h : Conversed now ids db s t') (hi : ConversationInv w s) :
    ∀ m ∈ t'.messages, ∃ c ∈ t'.conversations, c.id = m.conversationId := by
  intro m hm
  have hstay : ∀ c ∈ s.tables.conversations, c.id = m.conversationId →
      (∀ p, t' = s.tables.deleteConversations p → p c = false) → ∃ c ∈ t'.conversations, c.id = m.conversationId := by
    intro c hc hid hp
    obtain ⟨c', hc', hid'⟩ := h.stays hc hp
    exact ⟨c', hc', hid'.trans hid⟩
  by_cases hdel : ∃ p, t' = s.tables.deleteConversations p
  · obtain ⟨p, rfl⟩ := hdel
    obtain ⟨hm, hno⟩ := List.mem_filter.1 hm
    obtain ⟨c, hc, hid⟩ := hi.messages m hm
    refine ⟨c, List.mem_filter.2 ⟨hc, ?_⟩, hid⟩
    rw [decide_eq_true_eq]
    intro hpc
    exact of_decide_eq_true hno (List.mem_map.2 ⟨c, List.mem_filter.2 ⟨hc, hpc⟩, hid⟩)
  · have hno : ∀ c p, t' = s.tables.deleteConversations p → p c = false := fun _ p h => absurd ⟨p, h⟩ hdel
    cases h with
    | kept _ messages | created _ _ _ _ messages =>
      obtain ⟨c, hc, hid⟩ := hi.messages m (messages ▸ hm)
      exact hstay c hc hid (hno c)
    | removed p h => exact absurd ⟨p, h⟩ hdel
    | appended h =>
      rw [h.messages] at hm
      rcases List.mem_append.1 hm with hm | hm
      · obtain ⟨c, hc, hid⟩ := hi.messages m hm
        exact hstay c hc hid (hno c)
      · refine hstay _ h.mem ?_ (hno _)
        unfold Tables.pair at hm
        simp only [List.mem_cons, List.not_mem_nil, or_false] at hm
        rcases hm with rfl | rfl <;> exact h.room.1

/-- Every run is in a conversation. -/
theorem Conversed.runs (h : Conversed now ids db s t') (hi : ConversationInv w s)
    (hc : ∀ r' ∈ t'.runs, (∃ r ∈ s.tables.runs, Runs.Same r r') ∨ ∃ c ∈ t'.conversations, c.id = r'.conversationId) :
    ∀ r ∈ t'.runs, ∃ c ∈ t'.conversations, c.id = r.conversationId := by
  intro r' hr'
  by_cases hdel : ∃ p, t' = s.tables.deleteConversations p
  · obtain ⟨p, rfl⟩ := hdel
    obtain ⟨hr, hno⟩ := List.mem_filter.1 hr'
    obtain ⟨c, hc, hid⟩ := hi.runs r' hr
    refine ⟨c, List.mem_filter.2 ⟨hc, ?_⟩, hid⟩
    rw [decide_eq_true_eq]
    intro hpc
    exact of_decide_eq_true hno (List.mem_map.2 ⟨c, List.mem_filter.2 ⟨hc, hpc⟩, hid⟩)
  · rcases hc r' hr' with ⟨r, hr, hs⟩ | hnew
    · obtain ⟨c, hc, hid⟩ := hi.runs r hr
      obtain ⟨c', hc', hid'⟩ := h.stays hc fun p hp => absurd ⟨p, hp⟩ hdel
      exact ⟨c', hc', hid'.trans (hid.trans hs.conversationId.symm)⟩
    · exact hnew

/-! ### Questions -/

theorem askKeys_effect (hi : RunInv w s) (h : ConversationInv w s) (hf : ∀ i ∈ ids, i ∉ w.issued)
    (he : Effect env now ids db s t' as' sb' ws' log') : Table.Keyed (·.answerId) as' := by
  cases he with
  | asking hid hpc => exact h.askKeys.insert fun p hp he => hf _ hid (he ▸ (hi.asks p hp).issued)
  | @asked i p _ pc' _ hp he =>
    have hmap := Table.map_set_of_eq (x := { p with pc := pc' }) (·.answerId) hp rfl
    unfold Table.Keyed
    rw [hmap]
    exact h.askKeys
  | _ => exact h.askKeys

theorem not_over_of_effect {p : Ask} {input : Answers.Input} {pc' : AskPc} {t : Tables}
    (h : Ask.Effect env now p input db t pc' t') (hno : ¬ pc'.Over) : ¬ p.pc.Over := by
  cases h with
  | idle => exact hno
  | ended | appended => exact absurd trivial hno
  | began hpc | answering hpc =>
    rw [hpc]
    exact id

theorem pending_effect (hi : RunInv w s) (h : ConversationInv w s) (hf : ∀ i ∈ ids, i ∉ w.issued)
    (he : Effect env now ids db s t' as' sb' ws' log') :
    ∀ p ∈ as', ¬ p.pc.Over → ∀ m ∈ t'.messages, m.turnId ≠ p.answerId := by
  intro p hp hno m hm
  have hwr := written hi hf he
  -- what the question was before the action
  have hold : p.answerId ∈ ids ∨ ∃ q ∈ s.asks, q.answerId = p.answerId ∧ ¬ q.pc.Over := by
    rcases asks_effect he hp with hp | ⟨-, hid, -⟩ | ⟨q, hq, input, pc', rfl, heff⟩
    · exact .inr ⟨p, hp, rfl, hno⟩
    · exact .inl hid
    · exact .inr ⟨q, hq, rfl, not_over_of_effect heff hno⟩
  rcases hold with hnew | ⟨q, hq, hqid, hqno⟩
  · exact fun heq => hf _ hnew (heq ▸ hwr.turns hi hm)
  rw [← hqid]
  rcases hwr.messages hm with
    hm | ⟨k, hk, _, _, _, answer, _, hpc, -, -, ⟨run, hrun, hheld⟩, hm⟩ | ⟨i, p', answer, _, hp', has, hpc, -, -, hm⟩
  · exact h.pending q hq hqno m hm
  · have hserves := hi.workers k hk
    unfold Runs.Worker.Serves at hserves
    rw [hpc] at hserves
    rw [pair_turnId hm, hserves.2, ← hheld.1]
    exact (hi.asks q hq).runs run hrun
  · rw [pair_turnId hm, (hi.asks p' (Table.mem_of_getElem? hp')).answer hpc]
    intro heq
    -- the question that has appended its pair is over, and no other has its identifier
    rw [has] at hp
    rcases Table.mem_set_cases hp with rfl | ⟨j, hj, hpj⟩
    · exact hno trivial
    · exact h.askKeys.ne_of_ne hp' hpj hj (hqid.symm.trans heq.symm)

theorem ConversationInv.empty (w : World) : ConversationInv w Chat.empty :=
  ⟨.nil, List.forall_mem_nil _, List.forall_mem_nil _, List.forall_mem_nil _, List.forall_mem_nil _, .nil,
    List.forall_mem_nil _⟩

theorem ConversationInv.mono (h : ConversationInv w s) (hw : ∀ i ∈ w.issued, i ∈ w'.issued) : ConversationInv w' s :=
  ⟨h.keyed, fun c hc => hw _ (h.ids c hc), h.runs, h.messages, h.transcripts, h.askKeys, h.pending⟩

theorem ConversationInv.effect (h : ConversationInv w s) (hi : RunInv w s) (hf : ∀ i ∈ ids, i ∉ w.issued)
    (hw : ∀ i ∈ w.issued, i ∈ w'.issued) (hids : ∀ i ∈ ids, i ∈ w'.issued) {s' : Chat}
    (he : Effect env now ids db s s'.tables s'.asks s'.submits s'.workers s'.log) : ConversationInv w' s' := by
  have hc := conversed hi h (written hi hf he)
  refine ⟨hc.keyed h hf, fun c' hc' => ?_, hc.runs h fun r' hr' => ?_, hc.messages h, hc.transcripts h hf,
    askKeys_effect hi h hf he, pending_effect hi h hf he⟩
  · rcases hc.mem hc' with ⟨c, hc, hid, -⟩ | hnew
    · exact hw _ (hid ▸ h.ids c hc)
    · exact hids _ hnew.1
  · rcases changes hi hf he hr' with ⟨r, hr, hs, -⟩ | hn
    · exact .inl ⟨r, hr, hs⟩
    · exact .inr hn.conversation

end Chat
end RepoPilot
