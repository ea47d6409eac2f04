import RepoPilot.ChatInvariant

/-! # Pages of a transcript

A client reads a transcript from its end, at most twenty messages at a time; each page names the position before
which the next one ends. Messages that are appended meanwhile do not disturb it. -/

namespace RepoPilot
open Generation

namespace Tables

/-- `ConversationService.messages`: the rows of the page and the cursor. -/
def ownedPage (db : Db) (t : Tables) (userId conversationId : Uuid) (before : Option Nat) :
    Except AppError (List Message × Option Nat) := do
  let _ ← t.owned db userId conversationId
  .ok (t.messagePage conversationId before)

section Page
variable {t : Tables} {conversationId : Uuid} {ms : List Message} {a n k : Nat}

/-- Of messages numbered from `a`, the first `k` come before `a + k`. -/
theorem filter_before (h : ms.map (·.position) = List.range' a n) :
    ms.filter (fun m => m.position < a + k) = ms.take k := by
  induction ms generalizing a n k with
  | nil => simp
  | cons m ms ih =>
    cases n with
    | zero => cases h
    | succ n =>
      rw [List.map_cons, List.range'_succ, List.cons.injEq] at h
      obtain ⟨hm, hms⟩ := h
      cases k with
      | zero =>
        have hlater : ∀ x ∈ m :: ms, ¬ x.position < a + 0 := by
          intro x hx
          rcases List.mem_cons.1 hx with rfl | hx
          · omega
          · have hp := List.mem_map_of_mem (f := (·.position)) hx
            rw [hms, List.mem_range'_1] at hp
            omega
        rw [List.take_zero]
        exact List.filter_eq_nil_iff.2 fun x hx => by simpa using hlater x hx
      | succ k =>
        have hrest := ih (k := k) hms
        rw [show a + (k + 1) = a + 1 + k by omega, List.take_succ_cons, ← hrest, List.filter_cons_of_pos]
        exact decide_eq_true (by omega)

/-- Sorted by falling position, a transcript is read backwards. -/
theorem insertionSort_positions (h : ms.map (·.position) = List.range' a n) :
    ms.insertionSort (fun x y => y.position ≤ x.position) = ms.reverse := by
  have hlt : ms.Pairwise fun x y => x.position < y.position := by
    have hrange := List.pairwise_lt_range' (s := a) (n := n)
    rw [← h, List.pairwise_map] at hrange
    exact hrange
  have hinj : ∀ x ∈ ms, ∀ y ∈ ms, x.position = y.position → x = y := by
    have hnodup : (ms.map (·.position)).Nodup := h ▸ List.nodup_range'
    exact fun x hx y hy he => List.inj_on_of_nodup_map hnodup hx hy he
  refine List.Perm.eq_of_pairwise (fun x y hx hy hxy hyx => ?_) (List.pairwise_insertionSort _ _)
    (List.pairwise_reverse.2 (hlt.imp fun h => Nat.le_of_lt h))
    ((List.perm_insertionSort _ _).trans (List.reverse_perm ms).symm)
  exact hinj x ((List.mem_insertionSort _).1 hx) y (List.mem_reverse.1 hy) (Nat.le_antisymm hyx hxy)

/-- The page that ends at the `k`-th message. -/
theorem messagePage_eq (h : (t.messagesOf conversationId).map (·.position) = List.range' 1 n) (hk : k ≤ n)
    {before : Option Nat} (hb : before = some (k + 1) ∨ before = none ∧ k = n) :
    t.messagePage conversationId before =
      (((t.messagesOf conversationId).take k).drop (k - 20), if 20 < k then some (k - 20 + 1) else none) := by
  have hlength : (t.messagesOf conversationId).length = n := by
    rw [← List.length_map (f := fun m : Message => m.position), h, List.length_range']
  have hrows : (t.messages.filter fun m => m.conversationId = conversationId ∧ ∀ b ∈ before, m.position < b) =
      (t.messagesOf conversationId).take k := by
    rcases hb with rfl | ⟨rfl, rfl⟩
    · rw [← filter_before (k := k) h]
      unfold messagesOf
      rw [List.filter_filter]
      refine List.filter_congr fun m _ => ?_
      simp [Nat.add_comm, Bool.and_comm]
    · rw [List.take_of_length_le hlength.le]
      unfold messagesOf
      exact List.filter_congr fun m _ => by simp
  have htake : ((t.messagesOf conversationId).take k).map (·.position) = List.range' 1 k := by
    rw [List.map_take, h, List.take_range'_of_length_ge hk]
  have hk' : ((t.messagesOf conversationId).take k).length = k := by
    rw [List.length_take, hlength]
    omega
  unfold messagePage
  dsimp only
  rw [hrows, insertionSort_positions htake, List.take_take, List.length_take, List.length_reverse, hk',
    show min 20 21 = 20 by omega, List.take_reverse, List.reverse_reverse, hk']
  congr 1
  by_cases hlong : 20 < k
  · have hsome : k - (k - 20) ≠ 0 := by omega
    rw [if_pos (by omega), if_pos hlong, ← List.head?_map, List.map_drop, htake, List.drop_range', List.head?_range',
      if_neg hsome]
    congr 1
    omega
  · rw [if_neg (by omega), if_neg hlong]

end Page
end Tables

namespace System
variable {env : Env}

/-! ### Transcripts grow -/

/-- A conversation that is still there has its messages, and perhaps more. -/
structure Extends (s s' : System) : Prop where
  issued : ∀ i ∈ s.world.issued, i ∈ s'.world.issued
  kept : ∀ c' ∈ s'.chat.tables.conversations, c'.id ∈ s.world.issued →
    (∃ c ∈ s.chat.tables.conversations, c.id = c'.id) ∧
      s.chat.tables.messagesOf c'.id <+: s'.chat.tables.messagesOf c'.id

theorem Extends.refl (s : System) : Extends s s := ⟨fun _ h => h, fun c hc _ => ⟨⟨c, hc, rfl⟩, List.prefix_refl _⟩⟩

theorem Extends.trans {s s' s'' : System} (h : Extends s s') (h' : Extends s' s'') : Extends s s'' := by
  refine ⟨fun i hi => h'.issued i (h.issued i hi), fun c'' hc'' hid => ?_⟩
  obtain ⟨⟨c', hc', he'⟩, hms'⟩ := h'.kept c'' hc'' (h.issued _ hid)
  obtain ⟨⟨c, hc, he⟩, hms⟩ := h.kept c' hc' (he' ▸ hid)
  rw [he'] at he hms
  exact ⟨⟨c, hc, he⟩, hms.trans hms'⟩

theorem extends_step (s : System) (a : Action) (h : ChatInv env s) : Extends s (step env s a) := by
  obtain ⟨ids, hf, hw, he⟩ := chatStep env s a
  refine ⟨fun i hi => hw ▸ List.mem_append_left _ hi, fun c' hc' hid => ?_⟩
  have hsame : ∀ {t t' : Tables}, t'.messages = t.messages → t.messagesOf c'.id <+: t'.messagesOf c'.id := by
    intro t t' hm
    unfold Tables.messagesOf
    rw [hm]
  have hconversed := Chat.conversed h.runs h.conversations (Chat.written h.runs hf he)
  have hold : ∃ c ∈ s.chat.tables.conversations, c.id = c'.id := by
    rcases hconversed.mem hc' with ⟨c, hc, he, -⟩ | ⟨hnew, -⟩
    · exact ⟨c, hc, he⟩
    · exact absurd hid (hf _ hnew)
  refine ⟨hold, ?_⟩
  cases hconversed with
  | kept _ messages => exact hsame messages
  | created _ _ _ _ messages => exact hsame messages
  | removed p h' =>
    rw [h'] at hc' ⊢
    rw [Chat.messagesOf_deleteConversations p h.conversations.keyed hc']
  | appended h' =>
    unfold Tables.messagesOf
    rw [h'.messages, List.filter_append]
    exact List.prefix_append _ _

theorem extends_run (acts more : List Action) : Extends (run env acts) (run env (acts ++ more)) := by
  have h : Extends (run env acts) ((machine env).exec (run env acts) more) :=
    Machine.relates chatInv_step Extends.refl Extends.trans extends_step (chatInv env acts) more
  unfold run
  rw [Machine.run_append]
  exact h

/-! ### The walk -/

/-- The state at the `n`-th request: `gap i` is what happens between the requests `i` and `i + 1`. -/
def request (env : Env) (acts : List Action) (gap : Nat → List Action) (n : Nat) : System :=
  run env (acts ++ ((List.range n).map gap).flatten)

/-- A client that follows `next_before`; `none` when it has not come to the end after so many requests. -/
def walk (state : Nat → System) (userId conversationId : Uuid) :
    Nat → Nat → Option Nat → Option (Except AppError (List (List Message)))
  | 0, _, _ => none
  | requests + 1, n, before =>
    match Tables.ownedPage (state n).jobs.db (state n).chat.tables userId conversationId before with
    | .error e => some (.error e)
    | .ok (page, none) => some (.ok [page])
    | .ok (page, some next) =>
      (walk state userId conversationId requests (n + 1) (some next)).map (·.map (page :: ·))

/-- The pages are the first `k` of the messages `ms`, oldest page last; or the conversation was not there to read. -/
def Reads (state : Nat → System) (userId conversationId : Uuid) (ms : List Message) (k : Nat) :
    Except AppError (List (List Message)) → Prop
  | .ok pages => pages.reverse.flatten = ms.take k ∧ ∀ page ∈ pages, page.length ≤ 20
  | .error e => ∃ n, (state n).chat.tables.owned (state n).jobs.db userId conversationId = .error e

theorem ownedPage_eq (db : Db) (t : Tables) (userId conversationId : Uuid) (before : Option Nat) :
    (∃ e, t.owned db userId conversationId = .error e ∧ Tables.ownedPage db t userId conversationId before = .error e) ∨
      ∃ c ∈ t.conversations, c.id = conversationId ∧
        Tables.ownedPage db t userId conversationId before = .ok (t.messagePage conversationId before) := by
  unfold Tables.ownedPage
  cases h : t.owned db userId conversationId with
  | error e => exact .inl ⟨e, rfl, rfl⟩
  | ok c =>
    obtain ⟨hc, hid, -⟩ := Tables.owned_eq h
    exact .inr ⟨c, hc, hid, rfl⟩

/-- From a page that ends at the `k`-th message on, `(k + 19) / 20` requests are enough. -/
theorem walk_reads (acts : List Action) (gap : Nat → List Action) (userId conversationId : Uuid) (requests : Nat) {k n : Nat}
    (hexists : ∃ c ∈ (run env acts).chat.tables.conversations, c.id = conversationId)
    (hk : k ≤ ((run env acts).chat.tables.messagesOf conversationId).length) (hr : 1 ≤ requests) (hkr : k ≤ 20 * requests)
    {before : Option Nat}
    (hb : before = some (k + 1) ∨
      n = 0 ∧ before = none ∧ k = ((run env acts).chat.tables.messagesOf conversationId).length) :
    ∃ result, walk (request env acts gap) userId conversationId requests n before = some result ∧
      Reads (request env acts gap) userId conversationId ((run env acts).chat.tables.messagesOf conversationId) k
        result := by
  induction requests generalizing k n before with
  | zero => omega
  | succ requests ih =>
    unfold walk
    rcases ownedPage_eq (request env acts gap n).jobs.db (request env acts gap n).chat.tables userId conversationId
        before with ⟨e, howned, hpage⟩ | ⟨c, hc, hid, hpage⟩
    · rw [hpage]
      exact ⟨.error e, rfl, n, howned⟩
    rw [hpage]
    obtain ⟨c₀, hc₀, hid₀⟩ := hexists
    have hissued : c.id ∈ (run env acts).world.issued := by
      rw [hid, ← hid₀]
      exact (chatInv env acts).conversations.ids c₀ hc₀
    have hgrown := ((extends_run acts ((List.range n).map gap).flatten).kept c hc hissued).2
    rw [hid] at hgrown
    change _ <+: (request env acts gap n).chat.tables.messagesOf conversationId at hgrown
    have htranscript := (chatInv env (acts ++ ((List.range n).map gap).flatten)).conversations.transcripts c hc
    rw [hid] at htranscript
    change Tables.Transcript _ ((request env acts gap n).chat.tables.messagesOf conversationId) at htranscript
    have hkc : k ≤ c.messageCount := by
      rw [← htranscript.length]
      exact hk.trans hgrown.length_le
    have hb' : before = some (k + 1) ∨ before = none ∧ k = c.messageCount := by
      rcases hb with hb | ⟨rfl, hb, hlast⟩
      · exact .inl hb
      · refine .inr ⟨hb, ?_⟩
        rw [hlast, ← htranscript.length]
        unfold request
        rw [List.range_zero, List.map_nil, List.flatten_nil, List.append_nil]
    have htake : ((request env acts gap n).chat.tables.messagesOf conversationId).take k =
        ((run env acts).chat.tables.messagesOf conversationId).take k := by
      obtain ⟨later, hlater⟩ := hgrown
      rw [← hlater, List.take_append_of_le_length hk]
    rw [Tables.messagePage_eq htranscript.positions hkc hb', htake]
    have hshort : ((((run env acts).chat.tables.messagesOf conversationId).take k).drop (k - 20)).length ≤ 20 := by
      rw [List.length_drop, List.length_take]
      omega
    by_cases hlong : 20 < k
    · rw [if_pos hlong]
      dsimp only
      have hk20 : k - 20 ≤ ((run env acts).chat.tables.messagesOf conversationId).length := by omega
      obtain ⟨result, hwalk, hreads⟩ := ih (n := n + 1) hk20 (by omega) (by omega) (.inl rfl)
      rw [hwalk]
      cases result with
      | error e => exact ⟨.error e, rfl, hreads⟩
      | ok pages =>
        obtain ⟨hflat, hpages⟩ := hreads
        refine ⟨.ok _, rfl, ?_, List.forall_mem_cons.2 ⟨hshort, hpages⟩⟩
        rw [List.reverse_cons, List.flatten_append, hflat, List.flatten_singleton]
        have hsplit := List.take_append_drop (k - 20) (((run env acts).chat.tables.messagesOf conversationId).take k)
        rwa [List.take_take, Nat.min_eq_left (Nat.sub_le k 20)] at hsplit
    · rw [if_neg hlong]
      refine ⟨.ok _, rfl, ?_, List.forall_mem_singleton.2 hshort⟩
      rw [List.reverse_singleton, List.flatten_singleton, Nat.sub_eq_zero_of_le (Nat.not_lt.1 hlong), List.drop_zero]

/-- Whatever happens between the requests, the walk ends after at most ten of them. As long as the conversation is
there, the pages are the messages that were there at the first request, each once and in the order of positions. -/
theorem pages_complete (env : Env) (acts : List Action) (gap : Nat → List Action) (userId conversationId : Uuid) :
    ∃ result, walk (request env acts gap) userId conversationId 10 0 none = some result ∧
      match result with
      | .ok pages =>
        pages.reverse.flatten = (run env acts).chat.tables.messagesOf conversationId ∧
          pages.reverse.flatten.map (·.position) = List.range' 1 pages.flatten.length ∧
          ∀ page ∈ pages, page.length ≤ 20
      | .error e => ∃ n, let s := request env acts gap n; s.chat.tables.owned s.jobs.db userId conversationId = .error e := by
  have hstart : request env acts gap 0 = run env acts := by
    unfold request
    rw [List.range_zero, List.map_nil, List.flatten_nil, List.append_nil]
  by_cases hexists : ∃ c ∈ (run env acts).chat.tables.conversations, c.id = conversationId
  · obtain ⟨c, hc, hid⟩ := hexists
    have htranscript := (chatInv env acts).conversations.transcripts c hc
    rw [hid] at htranscript
    have hroom := htranscript.room
    rw [← htranscript.length] at hroom
    obtain ⟨result, hwalk, hreads⟩ := walk_reads acts gap userId conversationId 10 (n := 0)
      ⟨c, hc, hid⟩ le_rfl (by omega) (by omega) (.inr ⟨rfl, rfl, rfl⟩)
    refine ⟨result, hwalk, ?_⟩
    cases result with
    | error e => exact hreads
    | ok pages =>
      obtain ⟨hflat, hpages⟩ := hreads
      rw [List.take_length] at hflat
      have hlength : pages.flatten.length = c.messageCount := by
        rw [← htranscript.length, ← hflat, List.length_flatten, List.length_flatten, List.map_reverse, List.sum_reverse]
      exact ⟨hflat, by rw [hflat, htranscript.positions, hlength], hpages⟩
  · unfold walk
    rw [hstart]
    rcases ownedPage_eq (run env acts).jobs.db (run env acts).chat.tables userId conversationId none with ⟨e, howned, hpage⟩ | ⟨c, hc, hid, -⟩
    · rw [hpage]
      refine ⟨.error e, rfl, 0, ?_⟩
      dsimp only
      rw [hstart]
      exact howned
    · exact absurd ⟨c, hc, hid⟩ hexists

end System
end RepoPilot
