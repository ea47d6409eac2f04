import RepoPilot.Composer
import RepoPilot.RateLimits

/-! # Retrying a submission

What the form for background answers keeps to while requests are lost, repeated, refused and served late: one body for
each key, one run for each key, and no key forgotten before it is settled. -/

namespace RepoPilot
open Runs

/-! ### Requests and runs -/

namespace Chat
variable {env : Env} {now : Time} {ids : List Uuid} {db : Db} {w : World} {s : Chat} {t' : Tables}
  {as' : List Ask} {sb' : List Submit} {ws' : List Worker} {log' : List Entry} {r r' : AnswerRun}

/-- Some submission asked for the run: its question and its mode under its key. -/
def Asked (submits : List Submit) (r : AnswerRun) : Prop :=
  ∃ p ∈ submits, p.conversationId = r.conversationId ∧ p.request = ⟨r.requestKey, r.question, r.mode⟩

/-- Every run that is stored or was returned has been asked for. -/
structure Requested (s : Chat) : Prop where
  rows : ∀ r ∈ s.tables.runs, Asked s.submits r
  results : ∀ p ∈ s.submits, ∀ run created, p.pc = .done (.ok (run, created)) →
    Asked s.submits run ∧ run.conversationId = p.conversationId ∧ run.requestKey = p.request.requestKey

theorem Asked.same (h : Asked sb' r) (hs : Same r r') : Asked sb' r' := by
  obtain ⟨p, hp, hc, hr⟩ := h
  exact ⟨p, hp, hc.trans hs.conversationId.symm, by rw [hr, hs.requestKey, hs.question, hs.mode]⟩

theorem Asked.effect (h : Asked s.submits r) (he : Effect env now ids db s t' as' sb' ws' log') : Asked sb' r := by
  obtain ⟨p, hp, hc, hr⟩ := h
  obtain ⟨i, hi⟩ := List.mem_iff_getElem?.1 hp
  obtain ⟨pc', hp', -⟩ := submits_kept he hi
  exact ⟨_, List.mem_of_getElem? hp', hc, hr⟩

theorem Requested.rows_effect (h : Requested s) (hi : RunInv w s) (hf : ∀ i ∈ ids, i ∉ w.issued)
    (he : Effect env now ids db s t' as' sb' ws' log') : ∀ r ∈ t'.runs, Asked sb' r := by
  intro r' hr'
  rcases runs_effect hi hf he hr' with ⟨r, hr, hs, -⟩ | ⟨-, -, -, i, p, runId, source, history, hp, -, rfl, rfl⟩
  · exact ((h.rows r hr).effect he).same hs
  · exact ⟨_, Table.mem_set_self hp, rfl, rfl⟩

theorem Requested.effect (h : Requested s) (hi : RunInv w s) (hf : ∀ i ∈ ids, i ∉ w.issued) {s' : Chat}
    (he : Effect env now ids db s s'.tables s'.asks s'.submits s'.workers s'.log) : Requested s' := by
  refine ⟨h.rows_effect hi hf he, fun p' hp' run created hd => ?_⟩
  obtain ⟨i, hpi⟩ := List.mem_iff_getElem?.1 hp'
  rcases succeeded_effect hi hf he hpi hd with hold | ⟨-, hrun, hconv, hkey⟩ | ⟨-, hrun, hconv, hkey, -⟩
  · obtain ⟨ha, hc, hk⟩ := h.results p' (List.mem_of_getElem? hold) run created hd
    exact ⟨ha.effect he, hc, hk⟩
  · exact ⟨(h.rows run hrun).effect he, hconv, hkey⟩
  · exact ⟨h.rows_effect hi hf he run hrun, hconv, hkey⟩

end Chat

namespace System
variable {env : Env} {s : System}

theorem requested_step (h : ChatInv env s) (hr : s.chat.Requested) (a : Action) : (step env s a).chat.Requested := by
  obtain ⟨ids, hf, -, he⟩ := chatStep env s a
  exact hr.effect h.runs hf he

theorem requested (env : Env) (acts : List Action) : (run env acts).chat.Requested :=
  (Machine.invariant (P := fun s => ChatInv env s ∧ s.chat.Requested)
    ⟨chatInv env [], List.forall_mem_nil _, List.forall_mem_nil _⟩
    (fun s a h => ⟨chatInv_step s a h.1, requested_step h.1 h.2 a⟩) acts).2

/-- The action begins the submission `q`. -/
def Begins (env : Env) (q : Submit) : Action → Prop
  | .chat (.submit _ userId conversationId requestKey question mode) =>
    q.userId = userId ∧ q.conversationId = conversationId ∧ q.request.requestKey = requestKey ∧
      AnswerRequest.validate env question mode = some ⟨q.request.question, q.request.mode⟩
  | _ => False

/-- A submission was there before and may have taken its step, or the action begins it. -/
theorem submits_step (a : Action) {q' : Submit} (hq' : q' ∈ (step env s a).chat.submits) :
    q' ∈ s.chat.submits ∨
      (∃ i input, a = .chat (.submitStep i input) ∧ ∃ q ∈ s.chat.submits,
        q' = { q with pc := (q.step env s.world.clock input s.jobs.db s.chat.tables).1 }) ∨
      Begins env q' a ∧ q'.pc = .owned := by
  cases a with
  | tick elapsed => exact .inl hq'
  | jobs a =>
    left
    simp only [step] at hq'
    split at hq'
    · cases a <;> first | exact hq' | (simp only [cascade, Chat.removeRepository] at hq'; split at hq' <;> exact hq')
    · exact hq'
  | chat a =>
    simp only [step] at hq'
    split at hq'
    · cases a with
      | submit settings userId conversationId requestKey question mode =>
        simp only [Chat.step] at hq'
        split at hq'
        · exact .inl hq'
        · rename_i request hv
          rcases List.mem_append.1 hq' with hold | hnew
          · exact .inl hold
          · rw [List.mem_singleton.1 hnew]
            exact .inr (.inr ⟨⟨rfl, rfl, rfl, hv⟩, rfl⟩)
      | submitStep i input =>
        simp only [Chat.step, Chat.submitStep] at hq'
        split at hq'
        · exact .inl hq'
        · rename_i p hp
          split at hq'
          · exact .inl hq'
          · rcases List.mem_or_eq_of_mem_set hq' with hold | rfl
            · exact .inl hold
            · exact .inr (.inl ⟨i, input, rfl, p, List.mem_of_getElem? hp, rfl⟩)
      | _ =>
        left
        simp only [Chat.step, Chat.askStep, Chat.deliver, Chat.workerStep] at hq'
        repeat' split at hq'
        all_goals exact hq'
    · exact .inl hq'

/-! ### Completed runs -/

/-- The identifier is of a run that has completed. -/
structure Finished (s : System) (runId : Uuid) : Prop where
  issued : runId ∈ s.world.issued
  status : ∀ r ∈ s.chat.tables.runs, r.id = runId → r.status = .completed

theorem Finished.step {runId : Uuid} (hd : Finished s runId) (h : ChatInv env s) (a : Action) :
    Finished (System.step env s a) runId := by
  obtain ⟨ids, hf, hw, he⟩ := chatStep env s a
  refine ⟨hw ▸ List.mem_append_left _ hd.issued, fun r' hr' hid => ?_⟩
  rcases Chat.changes h.runs hf he hr' with ⟨r, hr, hs, hc⟩ | hn
  · have hdone := hd.status r hr (hs.id.symm.trans hid)
    cases hc with
    | quiet status => exact status.trans hdone
    | claimed was => exact absurd (was.symm.trans hdone) (by decide)
    | stopped was =>
      rw [hdone] at was
      exact absurd was (by decide)
    | completed was => exact absurd (was.symm.trans hdone) (by decide)
  · exact absurd (hid ▸ hd.issued) (hf _ hn.id)

end System

/-! ### The posts -/

namespace RunComposer
variable {env : Env} {c : Client} {system : System} {pending pending' : Option Submission} {busy busy' : Bool}
  {posts : List Post} {posting : Option Nat} {p : Post} {i : Nat}

/-- The submission serves the body `d` for the client. -/
structure Serves (env : Env) (c : Client) (q : Submit) (d : Submission) : Prop where
  user : q.userId = c.userId
  conversation : q.conversationId = c.conversationId
  request : AnswerRequest.validate env d.question d.mode = some ⟨q.request.question, q.request.mode⟩

/-- A run was created under the key, or a POST of it was refused for good. -/
def Settled (c : Client) (system : System) (posts : List Post) (key : Uuid) : Prop :=
  (∃ runId, ∃ q ∈ system.chat.submits, q.Created c.conversationId key runId) ∨
    ∃ p ∈ posts, p.data.requestKey = key ∧
      ∃ status ∈ Form.refusals, ∃ message, p.reply = some (.apiError status message)

structure PostInv (env : Env) (c : Client) (system : System) (pending : Option Submission) (busy : Bool)
    (posts : List Post) (posting : Option Nat) : Prop where
  bodies : ∀ p ∈ posts, ∀ q ∈ posts, p.data.requestKey = q.data.requestKey → p.data = q.data
  kept : ∀ d ∈ pending, ∃ p ∈ posts, p.data = d
  awaited : ∀ i ∈ posting, busy = true ∧ ∃ p, posts[i]? = some p ∧ p.reply = none ∧ ∀ d ∈ pending, d = p.data
  served : ∀ p ∈ posts, ∀ i, p.carried = .served i →
    ∃ q, system.chat.submits[i]? = some q ∧ q.request.requestKey = p.data.requestKey
  own : ∀ q ∈ system.chat.submits, ∀ p ∈ posts, q.request.requestKey = p.data.requestKey → Serves env c q p.data
  settled : ∀ p ∈ posts, pending = some p.data ∨ Settled c system posts p.data.requestKey

theorem Settled.step {key : Uuid} (h : Settled c system posts key) (a : System.Action) :
    Settled c (System.step env system a) posts key := by
  rcases h with ⟨runId, q, hq, hcr⟩ | h
  · obtain ⟨ids, -, -, he⟩ := System.chatStep env system a
    obtain ⟨q', hq', hcr'⟩ := Chat.created_kept he hq hcr
    exact .inl ⟨runId, q', hq', hcr'⟩
  · exact .inr h

theorem Settled.append {key : Uuid} (h : Settled c system posts key) (p : Post) :
    Settled c system (posts ++ [p]) key :=
  h.imp id fun ⟨q, hq, hr⟩ => ⟨q, List.mem_append_left _ hq, hr⟩

/-- A POST that had no reply may get one, and may be carried on. -/
theorem Settled.set {key : Uuid} (h : Settled c system posts key) (hp : posts[i]? = some p) {p' : Post}
    (hr : p.reply = none ∨ p'.data = p.data ∧ p'.reply = p.reply) : Settled c system (posts.set i p') key := by
  rcases h with h | ⟨q, hq, hkey, status, hst, message, hreply⟩
  · exact .inl h
  right
  obtain ⟨j, hj⟩ := List.mem_iff_getElem?.1 hq
  by_cases hij : i = j
  · subst hij
    cases hp.symm.trans hj
    rcases hr with hnone | ⟨hd, hsame⟩
    · rw [hnone] at hreply
      cases hreply
    · exact ⟨p', Table.mem_set_self hp, hd ▸ hkey, status, hst, message, hsame.trans hreply⟩
  · exact ⟨q, List.mem_of_getElem? ((List.getElem?_set_ne hij).trans hj), hkey, status, hst, message, hreply⟩

namespace PostInv

theorem mounted (env : Env) (c : Client) (system : System) : PostInv env c system none false [] none :=
  ⟨List.forall_mem_nil _, fun _ h => by simp at h, fun _ h => by simp at h, List.forall_mem_nil _,
    fun _ _ => List.forall_mem_nil _, List.forall_mem_nil _⟩

/-- The system takes a step; what it begins under a key of the form serves the form. -/
theorem move (h : PostInv env c system pending busy posts posting) (a : System.Action)
    (hb : ∀ q, System.Begins env q a → ∀ p ∈ posts, q.request.requestKey = p.data.requestKey → Serves env c q p.data) :
    PostInv env c (System.step env system a) pending busy posts posting := by
  refine ⟨h.bodies, h.kept, h.awaited, fun p hp i hi => ?_, fun q' hq' p hp hkey => ?_, fun p hp =>
    (h.settled p hp).imp_right (·.step a)⟩
  · obtain ⟨q, hq, hkey⟩ := h.served p hp i hi
    obtain ⟨ids, -, -, he⟩ := System.chatStep env system a
    obtain ⟨pc', hq', -⟩ := Chat.submits_kept he hq
    exact ⟨_, hq', hkey⟩
  · rcases System.submits_step a hq' with hold | ⟨i, input, -, q, hq, rfl⟩ | ⟨hnew, -⟩
    · exact h.own q' hold p hp hkey
    · obtain ⟨hu, hc, hv⟩ := h.own q hq p hp hkey
      exact ⟨hu, hc, hv⟩
    · exact hb q' hnew p hp hkey

/-- A POST is carried on. -/
theorem carry (h : PostInv env c system pending busy posts posting) (hp : posts[i]? = some p) {carried : Carried}
    (hc : ∀ j, carried = .served j →
      ∃ q, system.chat.submits[j]? = some q ∧ q.request.requestKey = p.data.requestKey) :
    PostInv env c system pending busy (posts.set i { p with carried := carried }) posting := by
  have hmem : p ∈ posts := List.mem_of_getElem? hp
  have hset : ∀ q' ∈ posts.set i { p with carried := carried }, ∃ q ∈ posts, q'.data = q.data := by
    intro q' hq'
    rcases List.mem_or_eq_of_mem_set hq' with hold | rfl
    · exact ⟨q', hold, rfl⟩
    · exact ⟨p, hmem, rfl⟩
  refine ⟨fun q hq q' hq' hkey => ?_, fun d hd => ?_, fun j hj => ?_, fun q' hq' j hj => ?_, fun q hq q' hq' hkey => ?_,
    fun q' hq' => ?_⟩
  · obtain ⟨x, hx, hxd⟩ := hset q hq
    obtain ⟨y, hy, hyd⟩ := hset q' hq'
    rw [hxd, hyd] at hkey ⊢
    exact h.bodies x hx y hy hkey
  · obtain ⟨q, hq, hqd⟩ := h.kept d hd
    obtain ⟨j, hj⟩ := List.mem_iff_getElem?.1 hq
    by_cases hij : i = j
    · subst hij
      cases hp.symm.trans hj
      exact ⟨_, Table.mem_set_self hp, hqd⟩
    · exact ⟨q, List.mem_of_getElem? ((List.getElem?_set_ne hij).trans hj), hqd⟩
  · obtain ⟨hbusy, q, hq, hreply, hd⟩ := h.awaited j hj
    refine ⟨hbusy, ?_⟩
    by_cases hij : i = j
    · subst hij
      cases hp.symm.trans hq
      exact ⟨_, List.getElem?_set_self (List.getElem?_eq_some_iff.1 hp).1, hreply, hd⟩
    · exact ⟨q, (List.getElem?_set_ne hij).trans hq, hreply, hd⟩
  · rcases List.mem_or_eq_of_mem_set hq' with hold | rfl
    · exact h.served q' hold j hj
    · exact hc j hj
  · obtain ⟨x, hx, hxd⟩ := hset q' hq'
    rw [hxd] at hkey ⊢
    exact h.own q hq x hx hkey
  · obtain ⟨x, hx, hxd⟩ := hset q' hq'
    rw [hxd]
    exact (h.settled x hx).imp_right (·.set hp (.inr ⟨rfl, rfl⟩))

/-- The form posts the pending submission again, or a new one under a key nobody has used. -/
theorem submit (h : PostInv env c system pending busy posts posting) {d : Submission}
    (hd : pending = some d ∨ pending = none ∧ d.requestKey ∉ posts.map (·.data.requestKey) ∧
      ∀ q ∈ system.chat.submits, q.request.requestKey ≠ d.requestKey) :
    PostInv env c system (some d) true (posts ++ [⟨d, .flying, none⟩]) (some posts.length) := by
  have hold : ∀ p ∈ posts, p.data.requestKey = d.requestKey → p.data = d := by
    intro p hp hkey
    rcases hd with hd | ⟨-, hnew, -⟩
    · obtain ⟨q, hq, rfl⟩ := h.kept d hd
      exact h.bodies p hp q hq hkey
    · exact absurd (List.mem_map.2 ⟨p, hp, hkey⟩) hnew
  refine ⟨fun p hp q hq hkey => ?_, fun d' hd' => ?_, fun i hi => ?_, fun p hp i hi => ?_, fun q hq p hp hkey => ?_,
    fun p hp => ?_⟩
  · rcases List.mem_append.1 hp with hp | hp <;> rcases List.mem_append.1 hq with hq | hq
    · exact h.bodies p hp q hq hkey
    · cases List.mem_singleton.1 hq
      exact hold p hp hkey
    · cases List.mem_singleton.1 hp
      exact (hold q hq hkey.symm).symm
    · cases List.mem_singleton.1 hp
      cases List.mem_singleton.1 hq
      rfl
  · cases hd'
    exact ⟨_, List.mem_append_right _ (List.mem_singleton_self _), rfl⟩
  · cases hi
    refine ⟨rfl, _, List.getElem?_concat_length, rfl, fun d' hd' => ?_⟩
    cases hd'
    rfl
  · rcases List.mem_append.1 hp with hp | hp
    · exact h.served p hp i hi
    · cases List.mem_singleton.1 hp
      cases hi
  · rcases List.mem_append.1 hp with hp | hp
    · exact h.own q hq p hp hkey
    · cases List.mem_singleton.1 hp
      rcases hd with hd | ⟨-, -, hnew⟩
      · obtain ⟨x, hx, rfl⟩ := h.kept d hd
        exact h.own q hq x hx hkey
      · exact absurd hkey (hnew q hq)
  · rcases List.mem_append.1 hp with hp | hp
    · rcases h.settled p hp with hpend | hset
      · rcases hd with hd | ⟨hnone, -⟩
        · exact .inl (hd.symm.trans hpend)
        · cases hnone.symm.trans hpend
      · exact .inr (hset.append _)
    · cases List.mem_singleton.1 hp
      exact .inl rfl

/-- The pending submission stays, or is dropped once its key is settled. -/
theorem drop (h : PostInv env c system pending busy posts posting)
    (hd : pending' = pending ∨ pending' = none ∧ ∀ d ∈ pending, Settled c system posts d.requestKey) :
    PostInv env c system pending' busy posts posting := by
  rcases hd with rfl | ⟨rfl, hset⟩
  · exact h
  · refine ⟨h.bodies, fun _ hd => (by cases hd), fun i hi => ?_, h.served, h.own, fun p hp => .inr ?_⟩
    · obtain ⟨hbusy, p, hp, hreply, -⟩ := h.awaited i hi
      exact ⟨hbusy, p, hp, hreply, fun _ hd => (by cases hd)⟩
    · exact (h.settled p hp).elim (fun hpend => hset _ hpend) id

/-- The form waits for no POST. -/
theorem idle (h : PostInv env c system pending busy posts none) : PostInv env c system pending busy' posts none :=
  ⟨h.bodies, h.kept, fun _ hi => (by cases hi), h.served, h.own, h.settled⟩

/-- The form takes a reply to the POST it waits for. -/
theorem reply (h : PostInv env c system pending busy posts (some i)) (hp : posts[i]? = some p)
    (reply : RunComposer.Reply RunResponse) :
    PostInv env c system pending busy' (posts.set i { p with reply := some reply }) none := by
  have hmem : p ∈ posts := List.mem_of_getElem? hp
  obtain ⟨-, q, hq, hnone, -⟩ := h.awaited i rfl
  cases hp.symm.trans hq
  have hset : ∀ q' ∈ posts.set i { p with reply := some reply },
      ∃ q ∈ posts, q'.data = q.data ∧ q'.carried = q.carried := by
    intro q' hq'
    rcases List.mem_or_eq_of_mem_set hq' with hold | rfl
    · exact ⟨q', hold, rfl, rfl⟩
    · exact ⟨p, hmem, rfl, rfl⟩
  refine ⟨fun q hq q' hq' hkey => ?_, fun d hd => ?_, fun _ hj => (by cases hj), fun q' hq' j hj => ?_,
    fun q hq q' hq' hkey => ?_, fun q' hq' => ?_⟩
  · obtain ⟨x, hx, hxd, -⟩ := hset q hq
    obtain ⟨y, hy, hyd, -⟩ := hset q' hq'
    rw [hxd, hyd] at hkey ⊢
    exact h.bodies x hx y hy hkey
  · obtain ⟨q, hq, hqd⟩ := h.kept d hd
    obtain ⟨j, hj⟩ := List.mem_iff_getElem?.1 hq
    by_cases hij : i = j
    · subst hij
      cases hp.symm.trans hj
      exact ⟨_, Table.mem_set_self hp, hqd⟩
    · exact ⟨q, List.mem_of_getElem? ((List.getElem?_set_ne hij).trans hj), hqd⟩
  · obtain ⟨x, hx, hxd, hxc⟩ := hset q' hq'
    rw [hxd]
    exact h.served x hx j (hxc.symm.trans hj)
  · obtain ⟨x, hx, hxd, -⟩ := hset q' hq'
    rw [hxd] at hkey ⊢
    exact h.own q hq x hx hkey
  · obtain ⟨x, hx, hxd, -⟩ := hset q' hq'
    rw [hxd]
    exact (h.settled x hx).imp_right (·.set hp (.inl hnone))

end PostInv

/-! ### The listings -/

/-- A row of a listing: its run has been created, and if it is completed it stays so. -/
structure Listed (c : Client) (system : System) (row : RunResponse) : Prop where
  created : ∃ q ∈ system.chat.submits, q.Created c.conversationId row.requestKey row.id
  finished : row.status = .completed → system.Finished row.id

structure ListInv (c : Client) (system : System) (completed : List Uuid) (polls : List Poll) (notified : List Uuid) :
    Prop where
  rows : ∀ q ∈ polls, ∀ rows ∈ q.listed, ∀ row ∈ rows, Listed c system row
  completed : completed = notified
  once : notified.Nodup
  finished : ∀ runId ∈ notified, system.Finished runId

namespace Form

theorem mem_news {completed : List Uuid} {next : List RunResponse} {runId : Uuid} (h : runId ∈ news completed next) :
    runId ∉ completed ∧ ∃ row ∈ next, row.status = .completed ∧ row.id = runId := by
  induction next generalizing completed with
  | nil => simp [news] at h
  | cons run next ih =>
    unfold news at h
    split at h
    · rename_i hnew
      rcases List.mem_cons.1 h with rfl | h
      · exact ⟨hnew.2, run, List.mem_cons_self, hnew.1, rfl⟩
      · obtain ⟨hno, row, hrow, hst, hid⟩ := ih h
        exact ⟨fun hc => hno (List.mem_append_left _ hc), row, List.mem_cons_of_mem _ hrow, hst, hid⟩
    · obtain ⟨hno, row, hrow, hst, hid⟩ := ih h
      exact ⟨hno, row, List.mem_cons_of_mem _ hrow, hst, hid⟩

theorem nodup_news (completed : List Uuid) (next : List RunResponse) : (news completed next).Nodup := by
  induction next generalizing completed with
  | nil => exact List.nodup_nil
  | cons run next ih =>
    unfold news
    split
    · refine List.nodup_cons.2 ⟨fun h => (mem_news h).1 ?_, ih _⟩
      exact List.mem_append_right _ (List.mem_singleton_self _)
    · exact ih _

end Form

theorem Listed.step {row : RunResponse} (h : Listed c system row) (hc : System.ChatInv env system) (a : System.Action) :
    Listed c (System.step env system a) row := by
  obtain ⟨ids, -, -, he⟩ := System.chatStep env system a
  obtain ⟨q, hq, hcr⟩ := h.created
  exact ⟨Chat.created_kept he hq hcr, fun hst => (h.finished hst).step hc a⟩

/-- What the service lists. -/
theorem listed_of_list (hc : System.ChatInv env system) {rows : List RunResponse}
    (h : RunService.list system.jobs.db system.chat.tables c.userId c.conversationId = .ok rows) :
    ∀ row ∈ rows, Listed c system row := by
  unfold RunService.list at h
  cases ho : system.chat.tables.owned system.jobs.db c.userId c.conversationId with
  | error e => rw [ho] at h; cases h
  | ok conversation =>
    rw [ho] at h
    cases h
    intro row hrow
    obtain ⟨r, hr, rfl⟩ := List.mem_map.1 hrow
    have hr := (List.perm_insertionSort _ _).mem_iff.1 (List.mem_of_mem_take hr)
    obtain ⟨hr, hconv⟩ := List.mem_filter.1 hr
    have hconv : r.conversationId = c.conversationId := of_decide_eq_true hconv
    refine ⟨hconv ▸ hc.submissions.creators r hr, fun hst => ⟨hc.runs.ids r hr, fun r' hr' hid => ?_⟩⟩
    rw [hc.runs.keyed.eq hr' hr hid]
    exact hst

namespace ListInv
variable {completed notified : List Uuid} {polls : List Poll}

theorem move (h : ListInv c system completed polls notified) (hc : System.ChatInv env system) (a : System.Action) :
    ListInv c (System.step env system a) completed polls notified :=
  ⟨fun q hq rows hr row hrow => (h.rows q hq rows hr row hrow).step hc a, h.completed, h.once,
    fun runId hid => (h.finished runId hid).step hc a⟩

/-- Polls begin, go on and end; what they read comes from the service. -/
theorem poll (h : ListInv c system completed polls notified) {polls' : List Poll}
    (hp : ∀ q ∈ polls', ∀ rows ∈ q.listed,
      (∃ q' ∈ polls, rows ∈ q'.listed) ∨ ∀ row ∈ rows, Listed c system row) :
    ListInv c system completed polls' notified :=
  ⟨fun q hq rows hr row hrow => (hp q hq rows hr).elim (fun ⟨q', hq', hr'⟩ => h.rows q' hq' rows hr' row hrow)
    fun hl => hl row hrow, h.completed, h.once, h.finished⟩

/-- The form is told of each run once, after it has completed. -/
theorem notify (h : ListInv c system completed polls notified) {rows : List RunResponse}
    (hrows : ∀ row ∈ rows, Listed c system row) :
    ListInv c system (completed ++ Form.news completed rows) polls (notified ++ Form.news completed rows) := by
  refine ⟨h.rows, by rw [h.completed], ?_, fun runId hid => ?_⟩
  · refine List.nodup_append'.2 ⟨h.once, Form.nodup_news _ _, fun runId hid hnew => ?_⟩
    exact (Form.mem_news hnew).1 (h.completed ▸ hid)
  · rcases List.mem_append.1 hid with hid | hid
    · exact h.finished runId hid
    · obtain ⟨-, row, hrow, hst, rfl⟩ := Form.mem_news hid
      exact (hrows row hrow).finished hst

end ListInv

/-! ### The form with the system -/

structure Inv (env : Env) (c : Client) (s : State) : Prop where
  chat : System.ChatInv env s.system
  requested : s.system.chat.Requested
  posts : PostInv env c s.system s.form.pending s.form.busy s.posts s.posting
  lists : ListInv c s.system s.form.completed s.polls s.notified

variable {s : State}

/-- A POST that succeeded was served by a submission that did. -/
theorem response_ok {row : RunResponse} (h : s.response p = some (.ok row)) :
    ∃ i q run created, p.carried = .served i ∧ s.system.chat.submits[i]? = some q ∧
      q.pc = .done (.ok (run, created)) ∧ row = RunResponse.validate run := by
  unfold State.response at h
  split at h
  · cases h
  · cases h
  · rename_i i hi
    split at h
    · cases h
    · rename_i q hq
      split at h
      · rename_i result hpc
        cases result with
        | error e => cases h
        | ok r =>
          obtain ⟨run, created⟩ := r
          cases h
          exact ⟨i, q, run, created, hi, hq, hpc, rfl⟩
      · cases h

/-- What such a submission returned, and who created it. -/
theorem Inv.created (h : Inv env c s) (hp : p ∈ s.posts) {row : RunResponse} (hr : s.response p = some (.ok row)) :
    (∃ q ∈ s.system.chat.submits, q.Created c.conversationId p.data.requestKey row.id) ∧
      AnswerRequest.validate env p.data.question p.data.mode = some ⟨row.question, row.mode⟩ := by
  obtain ⟨i, q, run, created, hi, hq, hpc, rfl⟩ := response_ok hr
  have hmem : q ∈ s.system.chat.submits := List.mem_of_getElem? hq
  obtain ⟨q', hq', hkey⟩ := h.posts.served p hp i hi
  cases hq.symm.trans hq'
  have hserves := h.posts.own q hmem p hp hkey
  obtain ⟨⟨x, hx, hxc, hxr⟩, hconv, hrun⟩ := h.requested.results q hmem run created hpc
  refine ⟨?_, ?_⟩
  · rw [← hserves.conversation, ← hkey]
    exact h.chat.submissions.results q hmem run created hpc
  · have hxserves := h.posts.own x hx p hp (by rw [hxr]; exact hrun.trans hkey)
    have hv := hxserves.request
    rw [hxr] at hv
    exact hv

/-- The system takes a step, of which the form knows nothing. -/
theorem Inv.move (h : Inv env c s) (a : System.Action)
    (hb : ∀ q, System.Begins env q a → ∀ p ∈ s.posts, q.request.requestKey = p.data.requestKey →
      Serves env c q p.data) :
    Inv env c { s with system := System.step env s.system a } :=
  ⟨System.chatInv_step _ a h.chat, System.requested_step h.chat h.requested a, h.posts.move a hb,
    h.lists.move h.chat a⟩

theorem Inv.serve (h : Inv env c s) (hp : s.posts[i]? = some p) (settings : Settings) :
    Inv env c (serve env c s i p settings) := by
  unfold RunComposer.serve
  split
  · exact ⟨h.chat, h.requested, h.posts.carry hp fun j hj => (by cases hj), h.lists⟩
  · rename_i request hv
    set a : Chat.Action :=
      .submit settings c.userId c.conversationId p.data.requestKey p.data.question p.data.mode with ha
    have hmove := h.move (.chat a) (by
      rintro q ⟨hu, hc, hk, hq⟩ p' hp' hkey
      rw [h.posts.bodies p' hp' p (List.mem_of_getElem? hp) (hkey.symm.trans hk)]
      exact ⟨hu, hc, hq⟩)
    refine ⟨hmove.chat, hmove.requested, hmove.posts.carry hp fun j hj => ?_, hmove.lists⟩
    cases hj
    have hlast : (System.step env s.system (.chat a)).chat.submits = s.system.chat.submits ++
        [⟨settings, c.userId, c.conversationId, ⟨p.data.requestKey, request.question, request.mode⟩, .owned⟩] := by
      simp [System.step, System.Fresh, Chat.Action.ids, Chat.step, ha, hv]
    rw [hlast]
    exact ⟨_, List.getElem?_concat_length, rfl⟩

theorem Inv.take (h : Inv env c s) (hi : s.posting = some i) (hp : s.posts[i]? = some p)
    {reply : RunComposer.Reply RunResponse} (hr : reply = .failed ∨ s.response p = some reply) :
    Inv env c (take s i p reply) := by
  have hposts := h.posts
  rw [hi] at hposts
  obtain ⟨-, p', hp', -, hpend⟩ := hposts.awaited i rfl
  cases hp.symm.trans hp'
  have hlists : ListInv c s.system (s.form.submitted reply).completed s.polls s.notified := by
    cases reply <;> exact h.lists
  refine ⟨h.chat, h.requested, (hposts.reply hp reply).drop ?_, hlists⟩
  cases reply with
  | failed => exact .inl rfl
  | apiError status message =>
    by_cases hst : status ∈ Form.refusals
    · refine .inr ⟨if_pos hst, fun d hd => .inr ⟨_, Table.mem_set_self hp, ?_, status, hst, message, rfl⟩⟩
      rw [hpend d hd]
    · exact .inl (if_neg hst)
  | ok row =>
    refine .inr ⟨rfl, fun d hd => .inl ⟨row.id, ?_⟩⟩
    rw [hpend d hd]
    exact (h.created (List.mem_of_getElem? hp) (hr.resolve_left (by simp))).1

/-- The form changes while it waits for no POST. -/
theorem Inv.idle (h : Inv env c s) (hi : s.posting = none) (f : Form) (hf : f.pending = s.form.pending)
    (hc : f.completed = s.form.completed) {cancelling : Option (Uuid × Option (Reply RunResponse))} {expired : Bool} :
    Inv env c { s with form := f, cancelling := cancelling, expired := expired } := by
  have hposts := h.posts
  rw [hi] at hposts
  exact ⟨h.chat, h.requested, by simpa only [hf, hi] using hposts.idle, by simpa only [hc] using h.lists⟩

theorem Inv.posting_none (h : Inv env c s) (hb : s.form.busy = false) : s.posting = none := by
  cases hi : s.posting with
  | none => rfl
  | some i =>
    obtain ⟨hbusy, -⟩ := h.posts.awaited i hi
    cases hb.symm.trans hbusy

theorem Inv.foreign (h : Inv env c s) {a : System.Action} (hf : s.Foreign a) :
    Inv env c { s with system := System.step env s.system a } := by
  refine h.move a ?_
  intro q hb p hp hkey
  cases a with
  | chat a =>
    cases a with
    | submit settings userId conversationId requestKey question mode =>
      have hk := hb.2.2.1
      exact absurd (List.mem_map.2 ⟨p, hp, hkey.symm.trans hk⟩) hf
    | _ => exact hb.elim
  | _ => exact hb.elim

theorem Inv.submit (h : Inv env c s) {key : Uuid} (hk : s.form.pending = none → s.Unused key) :
    Inv env c { s with
      form := s.form.submit key
      posts := s.posts ++ [⟨s.form.data key, .flying, none⟩]
      posting := some s.posts.length } := by
  refine ⟨h.chat, h.requested, h.posts.submit ?_, h.lists⟩
  cases hp : s.form.pending with
  | none =>
    have hdata : s.form.data key = ⟨trim s.form.question, s.form.mode, key⟩ := by simp [Form.data, hp]
    rw [hdata]
    exact .inr ⟨rfl, hk hp⟩
  | some d => exact .inl (by simp [Form.data, hp])

theorem Inv.settle (h : Inv env c s) {rows : List RunResponse} {x : AnswerSettings}
    (hq : s.polls[i]? = some ⟨some rows, some x⟩) :
    Inv env c { s with
      form := s.form.listed rows x
      polls := s.polls.eraseIdx i
      notified := s.notified ++ Form.news s.form.completed rows } := by
  have hrows : ∀ row ∈ rows, Listed c s.system row := h.lists.rows _ (List.mem_of_getElem? hq) rows rfl
  refine ⟨h.chat, h.requested, h.posts.drop ?_, (h.lists.poll fun q hq rows hr =>
    .inl ⟨q, List.mem_of_mem_eraseIdx hq, hr⟩).notify hrows⟩
  show s.form.pending.filter _ = _ ∨ s.form.pending.filter _ = none ∧ _
  cases hp : s.form.pending with
  | none => exact .inl rfl
  | some d =>
    by_cases hin : ∃ run ∈ rows, run.requestKey = d.requestKey
    · refine .inr ⟨by simp [Option.filter, hin], fun d' hd' => ?_⟩
      cases hd'
      obtain ⟨run, hrun, hkey⟩ := hin
      obtain ⟨q, hq, hcr⟩ := (hrows run hrun).created
      exact .inl ⟨run.id, q, hq, hkey ▸ hcr⟩
    · exact .inl (by simp [Option.filter, hin])

theorem inv_step (s : State) (a : Action) (h : Inv env c s) : Inv env c (step env c s a) := by
  cases a with
  | system a =>
    simp only [step]
    split
    · exact h.foreign ‹_›
    · exact h
  | type question =>
    simp only [step]
    split
    · exact ⟨h.chat, h.requested, h.posts, h.lists⟩
    · exact h
  | choose mode =>
    simp only [step]
    split
    · exact ⟨h.chat, h.requested, h.posts, h.lists⟩
    · exact h
  | submit key =>
    simp only [step]
    split
    · rename_i hg
      exact h.submit hg.2.2
    · exact h
  | turnAway i status message =>
    simp only [step]
    split
    · exact h
    · rename_i p hp
      split
      · exact ⟨h.chat, h.requested, h.posts.carry hp fun j hj => (by cases hj), h.lists⟩
      · exact h
  | serve i settings =>
    simp only [step]
    split
    · exact h
    · rename_i p hp
      split
      · exact h.serve hp settings
      · exact h
  | answer =>
    simp only [step]
    split
    · rename_i i _ hi
      split
      · exact h
      · rename_i p hp
        split
        · exact h
        · exact h.take hi hp (.inr ‹_›)
    · rename_i runId reply hi _
      exact h.idle hi (s.form.cancelled runId reply) (by cases reply <;> rfl) (by cases reply <;> rfl)
    · exact h
  | lose =>
    simp only [step]
    split
    · rename_i i _ hi
      split
      · exact h
      · exact h.take hi ‹_› (.inl rfl)
    · rename_i runId _ hi _
      exact h.idle hi (s.form.cancelled runId .failed) rfl rfl
    · exact h
  | cancel runId =>
    simp only [step]
    split
    · rename_i hg
      exact h.idle (h.posting_none hg.2.1) s.form.cancel rfl rfl
    · exact h
  | refuseCancel status message =>
    simp only [step]
    split
    · exact ⟨h.chat, h.requested, h.posts, h.lists⟩
    · exact h
  | serveCancel =>
    simp only [step]
    split
    · rename_i runId _
      have hmove := h.move (.chat (.cancel c.userId runId)) fun q hb => hb.elim
      exact ⟨hmove.chat, hmove.requested, hmove.posts, hmove.lists⟩
    · exact h
  | poll =>
    refine ⟨h.chat, h.requested, h.posts, h.lists.poll fun q hq rows hr => ?_⟩
    rcases List.mem_append.1 hq with hq | hq
    · exact .inl ⟨q, hq, hr⟩
    · cases List.mem_singleton.1 hq
      cases hr
  | list i =>
    simp only [step]
    split
    · exact h
    · split
      · exact h
      · rename_i rows hok
        refine ⟨h.chat, h.requested, h.posts, h.lists.poll fun q hq rows hr => ?_⟩
        rcases List.mem_or_eq_of_mem_set hq with hq | rfl
        · exact .inl ⟨q, hq, hr⟩
        · cases hr
          exact .inr (listed_of_list h.chat hok)
  | configure i settings =>
    simp only [step]
    split
    · exact h
    · rename_i q₀ hq₀
      split
      · exact h
      · refine ⟨h.chat, h.requested, h.posts, h.lists.poll fun q hq rows hr => ?_⟩
        rcases List.mem_or_eq_of_mem_set hq with hq | rfl
        · exact .inl ⟨q, hq, hr⟩
        · exact .inl ⟨q₀, List.mem_of_getElem? hq₀, hr⟩
  | settle i =>
    simp only [step]
    split
    · split
      · exact h.settle ‹_›
      · exact h
    · exact h
  | fail i status =>
    simp only [step]
    split
    · exact ⟨h.chat, h.requested, h.posts, h.lists.poll fun q hq rows hr =>
        .inl ⟨q, List.mem_of_mem_eraseIdx hq, hr⟩⟩
    · exact h

theorem inv (env : Env) (c : Client) (before : List System.Action) (acts : List Action) :
    Inv env c ((machine env c before).run acts) :=
  Machine.invariant
    ⟨System.chatInv env before, System.requested env before, .mounted env c _,
      List.forall_mem_nil _, rfl, List.nodup_nil, List.forall_mem_nil _⟩
    inv_step acts

/-! ### Refusals of a key -/

/-- The error reads as the refusal of a key that was used for something else. -/
def Conflict (e : Raised) : Prop := message e = idempotencyConflict.message

instance : DecidablePred Conflict := fun e => inferInstanceAs (Decidable (message e = idempotencyConflict.message))

section Conflict
variable {now : Time} {db : Db} {t : Tables} {userId : Uuid} {q : Submit} {input : SubmitInput} {e : Raised}

theorem not_conflict_conversation {conversationId : Uuid} {e : AppError}
    (h : t.owned db userId conversationId = .error e) : ¬ Conflict (.app e) := by
  unfold Tables.owned at h
  split at h
  · cases h
    decide
  · cases h

theorem not_conflict_source {repositoryId : Uuid} {e : AppError}
    (h : Searches.source db userId repositoryId = .error e) : ¬ Conflict (.app e) := by
  unfold Searches.source at h
  split at h
  · rename_i ho
    cases h
    rw [Db.owned_error ho]
    decide
  · split at h
    · cases h
      decide
    · cases h

theorem not_conflict_state {repositoryId : Uuid} {e : AppError}
    (h : Searches.state db userId repositoryId = .error e) : ¬ Conflict (.app e) := by
  unfold Searches.state at h
  cases hs : Searches.source db userId repositoryId with
  | error e' =>
    rw [hs] at h
    cases h
    exact not_conflict_source hs
  | ok source =>
    rw [hs] at h
    cases h

theorem turns_error {sourceId : Uuid} {ms : List Message} (h : Tables.turns sourceId ms = .error e) : e = .other := by
  fun_induction Tables.turns sourceId ms with
  | case2 | case5 =>
    cases h
    rfl
  | case6 _ _ _ _ _ _ _ _ _ turn _ ih =>
    refine ih ?_
    generalize Tables.turns _ _ = x at h ⊢
    cases x with
    | error e' =>
      cases h
      rfl
    | ok _ => cases h
  | case1 | case3 | case4 | case7 => cases h

theorem not_conflict_history {conversationId sourceId : Uuid}
    (h : t.snapshotHistory env db userId conversationId sourceId = .error e) : ¬ Conflict e := by
  unfold Tables.snapshotHistory at h
  cases ho : t.owned db userId conversationId with
  | error e' =>
    rw [ho] at h
    cases h
    exact not_conflict_conversation ho
  | ok conversation =>
    rw [ho] at h
    cases ht : Tables.turns sourceId (t.latest conversationId 6) with
    | error e' =>
      simp only [lift, Except.mapError, bind, Except.bind, ht] at h
      cases h
      rw [turns_error ht]
      decide
    | ok turns =>
      simp only [lift, Except.mapError, bind, Except.bind, ht] at h
      cases h

theorem hash_of_byKey {conversationId requestKey : Uuid} {r : AnswerRun} {text : Text}
    (hr : byKey t conversationId requestKey = some r) (h : (.done (replay r text) : SubmitPc) = .done (.error e)) :
    ∃ r ∈ t.runs, r.conversationId = conversationId ∧ r.requestKey = requestKey ∧ r.requestHash ≠ text := by
  obtain ⟨hm, hc, hk⟩ := byKey_eq hr
  refine ⟨r, hm, hc, hk, fun heq => ?_⟩
  unfold replay at h
  rw [if_neg (not_not.2 heq)] at h
  cases h

/-- A submission is refused as a conflict only for a run of another request under its key, or by the limiter. -/
theorem conflict_step (h : (q.step env now input db t).1 = .done (.error e)) (hc : Conflict e) :
    q.pc = .done (.error e) ∨ (∃ limit, input = .limited (some limit) ∧ e = .app limit) ∨
      ∃ r ∈ t.runs, r.conversationId = q.conversationId ∧ r.requestKey = q.request.requestKey ∧
        r.requestHash ≠ fingerprint env q.request := by
  have hother : ∀ {a : AppError}, refused a = .done (.error e) → ¬ Conflict (.app a) → False := by
    intro a ha hno
    cases ha
    exact hno hc
  -- the branches of `Submit.step`, in its order
  unfold Submit.step at h
  split at h
  · exact .inl h
  · exact .inl h
  · cases h
  · split at h
    · exact (hother h (not_conflict_conversation ‹_›)).elim
    · cases h
  · cases h
  · split at h
    · exact .inr (.inr (hash_of_byKey ‹_› h))
    · split at h
      · exact (hother h (by decide)).elim
      · cases h
  · split at h
    · exact (hother h (by decide)).elim
    · split at h
      · exact (hother h (by decide)).elim
      · cases h
  · split at h
    · exact (hother h (by decide)).elim
    · cases h
  · split at h
    · exact (hother h (by decide)).elim
    · cases h
  · split at h
    · exact (hother h (not_conflict_source ‹_›)).elim
    · cases h
  · split at h
    · exact (hother h (not_conflict_state ‹_›)).elim
    · split at h
      · cases h
      · exact (hother h (by decide)).elim
  · split at h
    · cases h
      exact .inr (.inl ⟨_, rfl, rfl⟩)
    · cases h
  · split at h
    · rename_i hs
      cases h
      exact (not_conflict_history hs hc).elim
    · cases h
  · dsimp only at h
    split at h <;> cases h
  · split at h
    · exact .inr (.inr (hash_of_byKey ‹_› h))
    · exact (hother h (by decide)).elim
  · exact .inl h

end Conflict

/-- Whenever the limiter refuses a submission, it answers as `RateLimits.checkLimits`. -/
def Limited : Action → Prop
  | .system (.chat (.submitStep _ (.limited (some e)))) =>
    ∃ now reply limits redis, (RateLimits.checkLimits now reply limits redis).1 = some e
  | _ => True

theorem not_conflict_limit {now : Time} {reply : RateLimits.Reply} {limits : List RateLimits.Limit}
    {redis : RateLimits.Redis} {e : AppError} (h : (RateLimits.checkLimits now reply limits redis).1 = some e) :
    ¬ Conflict (.app e) := by
  have hunavailable : ¬ Conflict (.app RateLimits.unavailable) := by decide
  have hlimited : ¬ Conflict (.app (RateLimits.limited limits)) := by
    simp [Conflict, message, RateLimits.limited, idempotencyConflict]
  cases reply with
  | answered =>
    simp only [RateLimits.checkLimits] at h
    split at h
    · cases h
    · cases h
      exact hlimited
  | lost | unreachable =>
    cases h
    exact hunavailable

/-- No submission under a key of the form has been refused as a conflict. -/
def Unrefused (s : State) : Prop :=
  ∀ q ∈ s.system.chat.submits, q.request.requestKey ∈ s.keys → ∀ e, q.pc = .done (.error e) → ¬ Conflict e

theorem Unrefused.same {s' : State} (h : Unrefused s) (hs : s'.system = s.system) (hk : s'.keys = s.keys) :
    Unrefused s' := by
  unfold Unrefused
  rw [hs, hk]
  exact h

theorem keys_set {posts : List Post} {p' : Post} (hp : posts[i]? = some p) (hd : p'.data = p.data) :
    (posts.set i p').map (·.data.requestKey) = posts.map (·.data.requestKey) := by
  obtain ⟨hlt, rfl⟩ := List.getElem?_eq_some_iff.1 hp
  rw [List.map_set, hd]
  refine List.ext_getElem (by simp) fun j hj _ => ?_
  rw [List.getElem_set]
  split
  · subst i
    rw [List.getElem_map]
  · rfl

/-! ### Retrying -/

/-- The run under a key of the form: it is the only one, it is what the body asks for, and any submission under the
key is answered with it. -/
structure RunOf (env : Env) (c : Client) (s : State) (p : Post) (r : AnswerRun) : Prop where
  conversation : r.conversationId = c.conversationId
  only : ∀ r' ∈ s.system.chat.tables.runs, r'.requestKey = p.data.requestKey → r' = r
  asked : AnswerRequest.validate env p.data.question p.data.mode = some ⟨r.question, r.mode⟩
  replayed : ∀ q ∈ s.system.chat.submits, q.request.requestKey = p.data.requestKey →
    (∃ repositoryId, q.pc = .byKey repositoryId) ∨ q.pc = .replay →
      ∀ now db, (q.step env now .go db s.system.chat.tables).1 = .done (.ok (r, false))

theorem Inv.asked (h : Inv env c s) (hp : p ∈ s.posts) {r : AnswerRun} (hr : r ∈ s.system.chat.tables.runs)
    (hkey : r.requestKey = p.data.requestKey) :
    r.conversationId = c.conversationId ∧
      AnswerRequest.validate env p.data.question p.data.mode = some ⟨r.question, r.mode⟩ := by
  obtain ⟨q, hq, hconv, hreq⟩ := h.requested.rows r hr
  obtain ⟨-, hc, hv⟩ := h.posts.own q hq p hp (by rw [hreq]; exact hkey)
  rw [hreq] at hv
  exact ⟨hconv.symm.trans hc, hv⟩

/-- A run under a key of the form has the hash of every submission under the key. -/
theorem Inv.hash (h : Inv env c s) (hp : p ∈ s.posts) {r : AnswerRun} (hr : r ∈ s.system.chat.tables.runs)
    (hkey : r.requestKey = p.data.requestKey) {q : Submit} (hq : q ∈ s.system.chat.submits)
    (hqkey : q.request.requestKey = p.data.requestKey) : r.requestHash = fingerprint env q.request := by
  obtain ⟨-, hask⟩ := h.asked hp hr hkey
  have hv := (h.posts.own q hq p hp hqkey).request
  rw [hask] at hv
  obtain ⟨hquestion, hmode⟩ := AnswerRequest.mk.inj (Option.some.inj hv)
  rw [h.chat.submissions.hashes r hr, hquestion, hmode, fingerprint]

/-- Where the run under the key is looked up, it is found and returned. -/
theorem replay_step {now : Time} {db : Db} {t : Tables} {q : Submit} {r : AnswerRun} (hr : r ∈ t.runs)
    (hconv : r.conversationId = q.conversationId) (hkey : r.requestKey = q.request.requestKey)
    (honly : ∀ r' ∈ t.runs, r'.requestKey = q.request.requestKey → r' = r)
    (hhash : r.requestHash = fingerprint env q.request)
    (hpc : (∃ repositoryId, q.pc = .byKey repositoryId) ∨ q.pc = .replay) :
    (q.step env now .go db t).1 = .done (.ok (r, false)) := by
  have hfound : byKey t q.conversationId q.request.requestKey = some r := by
    cases hf : byKey t q.conversationId q.request.requestKey with
    | none =>
      have hno := List.find?_eq_none.1 hf r hr
      simp [hconv, hkey] at hno
    | some r' =>
      obtain ⟨hm, -, hk⟩ := byKey_eq hf
      rw [honly r' hm hk]
  have hreplay : replay r (fingerprint env q.request) = .ok (r, false) := if_neg (not_not.2 hhash)
  rcases hpc with ⟨repositoryId, hpc⟩ | hpc
  · simp only [Submit.step, hpc, hfound, hreplay]
  · simp only [Submit.step, hpc, hfound, hreplay]

theorem Inv.runOf (h : Inv env c s) (hp : p ∈ s.posts) {r : AnswerRun} (hr : r ∈ s.system.chat.tables.runs)
    (hkey : r.requestKey = p.data.requestKey) : RunOf env c s p r := by
  obtain ⟨hconv, hask⟩ := h.asked hp hr hkey
  have honly : ∀ r' ∈ s.system.chat.tables.runs, r'.requestKey = p.data.requestKey → r' = r := fun r' hr' hkey' =>
    h.chat.submissions.keys r' hr' r hr ((h.asked hp hr' hkey').1.trans hconv.symm) (hkey'.trans hkey.symm)
  refine ⟨hconv, honly, hask, fun q hq hqkey hpc now db => ?_⟩
  have hserves := h.posts.own q hq p hp hqkey
  refine replay_step hr (hconv.trans hserves.conversation.symm) (hkey.trans hqkey.symm) (fun r' hr' hkey' => ?_)
    (h.hash hp hr hkey hq hqkey) hpc
  exact honly r' hr' (hkey'.trans hqkey)

/-- A step of the system refuses no submission under a key of the form as a conflict. -/
theorem Unrefused.move (hu : Unrefused s) (h : Inv env c s) {a : System.Action} (hl : Limited (.system a)) :
    Unrefused { s with system := System.step env s.system a } := by
  intro q' hq' hkey e he hc
  rcases System.submits_step a hq' with hold | ⟨i, input, rfl, q, hq, rfl⟩ | ⟨-, howned⟩
  · exact hu q' hold hkey e he hc
  · rcases conflict_step he hc with hold | ⟨limit, rfl, rfl⟩ | ⟨r, hr, -, hrkey, hhash⟩
    · exact hu q hq hkey e hold hc
    · obtain ⟨now, reply, limits, redis, hlimit⟩ := hl
      exact not_conflict_limit hlimit hc
    · obtain ⟨p, hp, hpkey⟩ := List.mem_map.1 hkey
      exact hhash (h.hash hp hr (hrkey.trans hpkey.symm) hq hpkey.symm)
  · rw [howned] at he
    cases he

/-- The form posts under a key it has posted under, or under one that nobody has used. -/
theorem Unrefused.submit (hu : Unrefused s) (h : Inv env c s) {key : Uuid} (hk : s.form.pending = none → s.Unused key) :
    Unrefused { s with
      form := s.form.submit key
      posts := s.posts ++ [⟨s.form.data key, .flying, none⟩]
      posting := some s.posts.length } := by
  intro q hq hkey
  have hkey : q.request.requestKey ∈ s.keys ++ [(s.form.data key).requestKey] := by
    simpa only [State.keys, List.map_append, List.map_cons, List.map_nil] using hkey
  rcases List.mem_append.1 hkey with hold | hnew
  · exact hu q hq hold
  rw [List.mem_singleton] at hnew
  cases hp : s.form.pending with
  | none =>
    have hdata : s.form.data key = ⟨trim s.form.question, s.form.mode, key⟩ := by simp [Form.data, hp]
    rw [hdata] at hnew
    exact absurd hnew ((hk hp).2 q hq)
  | some d =>
    obtain ⟨p, hmem, rfl⟩ := h.posts.kept d hp
    have hdata : s.form.data key = p.data := by simp [Form.data, hp]
    exact hu q hq (List.mem_map.2 ⟨p, hmem, by rw [hnew, hdata]⟩)

theorem unrefused_step (s : State) (a : Action) (hl : Limited a) (h : Inv env c s) (hu : Unrefused s) :
    Unrefused (step env c s a) := by
  cases a with
  | system a =>
    simp only [step]
    split
    · exact hu.move h hl
    · exact hu
  | submit key =>
    simp only [step]
    split
    · rename_i hg
      exact hu.submit h hg.2.2
    · exact hu
  | turnAway i status message =>
    simp only [step]
    split
    · exact hu
    · rename_i p hp
      split
      · exact hu.same rfl (keys_set hp rfl)
      · exact hu
  | serve i settings =>
    simp only [step]
    split
    · exact hu
    · rename_i p hp
      split
      · unfold RunComposer.serve
        split
        · exact hu.same rfl (keys_set hp rfl)
        · have hl : Limited (.system (.chat
              (.submit settings c.userId c.conversationId p.data.requestKey p.data.question p.data.mode))) := trivial
          exact Unrefused.same (hu.move h hl) rfl (keys_set hp rfl)
      · exact hu
  | answer =>
    simp only [step]
    split
    · split
      · exact hu
      · rename_i p hp
        split
        · exact hu
        · exact hu.same rfl (keys_set hp rfl)
    · exact hu.same rfl rfl
    · exact hu
  | lose =>
    simp only [step]
    split
    · split
      · exact hu
      · rename_i p hp
        exact hu.same rfl (keys_set hp rfl)
    · exact hu.same rfl rfl
    · exact hu
  | serveCancel =>
    simp only [step]
    split
    · rename_i runId _
      have hl : Limited (.system (.chat (.cancel c.userId runId))) := trivial
      exact Unrefused.same (hu.move h hl) rfl rfl
    · exact hu
  | _ =>
    simp only [step]
    repeat' split
    all_goals exact hu.same rfl rfl

theorem unrefused (env : Env) (c : Client) (before : List System.Action) {acts : List Action}
    (hl : ∀ a ∈ acts, Limited a) : Unrefused ((machine env c before).run acts) := by
  refine (Machine.invariant_of (P := fun s => Inv env c s ∧ Unrefused s)
    ⟨inv env c before [], fun q hq hkey => ?_⟩
    (fun s a ha h => ⟨inv_step s a h.1, unrefused_step s a ha h.1 h.2⟩) hl).2
  exact absurd hkey List.not_mem_nil

theorem response_error {status : Nat} {text : String} (hc : p.carried = .served i)
    (h : s.response p = some (.apiError status text)) :
    ∃ q e, s.system.chat.submits[i]? = some q ∧ q.pc = .done (.error e) ∧ text = message e := by
  unfold State.response at h
  rw [hc] at h
  dsimp only at h
  split at h
  · cases h
  · rename_i q hq
    split at h
    · rename_i result hpc
      cases result with
      | ok r => cases h
      | error e =>
        cases h
        exact ⟨q, e, hq, hpc, rfl⟩
    · cases h

theorem Inv.not_conflict (h : Inv env c s) (hu : Unrefused s) (hp : p ∈ s.posts) (hc : p.carried = .served i)
    (status : Nat) : s.response p ≠ some (.apiError status idempotencyConflict.message) := by
  intro hr
  obtain ⟨q, e, hq, hpc, hm⟩ := response_error hc hr
  obtain ⟨q', hq', hkey⟩ := h.posts.served p hp i hc
  cases hq.symm.trans hq'
  exact hu q (List.mem_of_getElem? hq) (List.mem_map.2 ⟨p, hp, hkey.symm⟩) e hpc hm.symm

/-- Whatever becomes of its requests, the form posts one body under each key; there is one run for the key, made of
that body, with which every further submission under the key is answered, and never as a conflict; and the form keeps a
submission until a run was created for it or a POST of it was refused for good. It is told of each run once, when the
run has completed and its question and its answer are saved. -/
theorem retries_safe (env : Env) (c : Client) (before : List System.Action) (acts : List Action) :
    let s := (machine env c before).run acts
    (∀ p ∈ s.posts, ∀ q ∈ s.posts, p.data.requestKey = q.data.requestKey → p.data = q.data) ∧
      (∀ p ∈ s.posts, ∀ r ∈ s.system.chat.tables.runs, r.requestKey = p.data.requestKey → RunOf env c s p r) ∧
      ((∀ a ∈ acts, Limited a) → ∀ p ∈ s.posts, ∀ i, p.carried = .served i →
        ∀ status, s.response p ≠ some (.apiError status idempotencyConflict.message)) ∧
      (∀ p ∈ s.posts, ∀ a, s.response p = some (.ok a) →
        AnswerRequest.validate env p.data.question p.data.mode = some ⟨a.question, a.mode⟩ ∧
          ∀ q ∈ s.posts, q.data.requestKey = p.data.requestKey → ∀ b, s.response q = some (.ok b) → b.id = a.id) ∧
      (∀ p ∈ s.posts, s.form.pending = some p.data ∨ Settled c s.system s.posts p.data.requestKey) ∧
      s.notified.Nodup ∧
      ∀ runId ∈ s.notified, ∀ r ∈ s.system.chat.tables.runs, r.id = runId →
        r.status = .completed ∧
          (s.system.chat.tables.turn r.conversationId runId).map (·.role) = [.user, .assistant] := by
  intro s
  have h : Inv env c s := inv env c before acts
  refine ⟨h.posts.bodies, fun p hp r hr hkey => h.runOf hp hr hkey,
    fun hl p hp i hc => h.not_conflict (unrefused env c before hl) hp hc, fun p hp a ha => ?_, h.posts.settled,
    h.lists.once, fun runId hid r hr he => ?_⟩
  · obtain ⟨⟨x, hx, hxc⟩, hask⟩ := h.created hp ha
    refine ⟨hask, fun q hq hkey b hb => ?_⟩
    obtain ⟨⟨y, hy, hyc⟩, -⟩ := h.created hq hb
    rw [hkey] at hyc
    exact System.created_unique h.chat hy hx hyc hxc
  · have hdone := (h.lists.finished runId hid).status r hr he
    have hturn := (h.chat.runs.rows r hr).turn
    rw [if_pos hdone] at hturn
    exact ⟨hdone, he ▸ hturn⟩

/-- The form asks, the reply is lost, and it asks again under the same key. -/
def twice : List Action :=
  [.poll, .list 0, .configure 0 System.offline, .settle 0, .type "question".toList, .submit 11,
    .serve 0 System.offline] ++
  (([.go, .go, .go, .go, .go, .go, .go, .go, .limited none, .go, .insert 12] : List SubmitInput).map fun input =>
    .system (.chat (.submitStep 0 input))) ++
  [.lose, .submit 13, .serve 1 System.offline] ++
  (([.go, .go, .go] : List SubmitInput).map fun input => .system (.chat (.submitStep 1 input)))

/-- The run a POST was answered with. -/
def answered (s : State) (p : Post) : Option Uuid :=
  match s.response p with
  | some (.ok row) => some row.id
  | _ => none

set_option maxRecDepth 4000 in
theorem retries_safe_twice :
    let s := (machine System.characters ⟨0, 1, 10⟩ System.conversing).run twice
    s.posts.map (fun p => (p.data.requestKey, answered s p)) = [(11, some 12), (11, some 12)] ∧
      (∀ p ∈ s.posts, ∀ r ∈ s.system.chat.tables.runs, r.requestKey = p.data.requestKey →
        RunOf System.characters ⟨0, 1, 10⟩ s p r) ∧
      ∀ p ∈ s.posts, ∀ i, p.carried = .served i →
        ∀ status, s.response p ≠ some (.apiError status idempotencyConflict.message) := by
  intro s
  obtain ⟨-, hruns, hconflict, -⟩ := retries_safe System.characters ⟨0, 1, 10⟩ System.conversing twice
  have hlimited : ∀ a ∈ twice, Limited a := by simp [twice, Limited]
  exact ⟨by decide +kernel, hruns, hconflict hlimited⟩

end RunComposer
end RepoPilot
