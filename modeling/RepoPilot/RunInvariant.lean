import RepoPilot.RunChanges

/-! # The invariant of answer runs

`RunInv` is kept by every action of the conversations, and by the deletion of a repository. -/

namespace RepoPilot
open Generation

/-! ### Events are numbered from one -/

namespace Tables
variable {t : Tables} {runId : Uuid}

theorem max?_range' (n : Nat) : ((List.range' 1 n).max?).getD 0 = n := by
  cases n with
  | zero => rfl
  | succ n =>
    have : (List.range' 1 (n + 1)).max? = some (n + 1) := by
      rw [List.max?_eq_some_iff]
      refine ⟨?_, fun b hb => ?_⟩
      · rw [List.mem_range'_1]
        omega
      · rw [List.mem_range'_1] at hb
        omega
    rw [this]
    rfl

theorem lastSequence_of_numbered
    (h : (t.eventsOf runId).map (·.sequence) = List.range' 1 (t.eventsOf runId).length) :
    t.lastSequence runId = (t.eventsOf runId).length := by
  unfold lastSequence
  rw [h, max?_range']

/-- Events do not come from nowhere. -/
theorem Transitioned.mem_events {now : Time} {t' : Tables} {p : AnswerRun → Prop} [DecidablePred p]
    {f : AnswerRun → AnswerRun} (h : Transitioned now p f t t') {e : RunEvent} (he : e ∈ t'.events) :
    e ∈ t.events ∨ ∃ r ∈ t.runs, r.id = e.runId := by
  by_cases hr : ∃ r ∈ t.runs, r.id = e.runId
  · exact .inr hr
  · have hmem : e ∈ t'.eventsOf e.runId := List.mem_filter.2 ⟨he, decide_eq_true rfl⟩
    rw [h.others e.runId fun r hm hid _ => hr ⟨r, hm, hid⟩] at hmem
    exact .inl (List.mem_of_mem_filter hmem)

end Tables

namespace Chat
variable {env : Env} {now : Time} {ids : List Uuid} {db : Db} {w w' : World} {s : Chat} {t' : Tables}
  {as' : List Ask} {sb' : List Runs.Submit} {ws' : List Runs.Worker} {log' : List Entry} {r r' : AnswerRun}

/-! ### Rows -/

theorem numbered_append {es : List RunEvent} {e : RunEvent} (h : es.map (·.sequence) = List.range' 1 es.length)
    (he : e.sequence = es.length + 1) :
    (es ++ [e]).map (·.sequence) = List.range' 1 (es ++ [e]).length := by
  rw [List.map_append, h, List.length_append, List.length_singleton, List.range'_concat, List.map_singleton, he,
    Nat.one_mul, Nat.add_comm]

theorem RunRow.change (h : RunRow s.tables s.workers r) (hs : Runs.Same r r') (hc : Change now s t' ws' r r') :
    RunRow t' ws' r' := by
  have hlast := Tables.lastSequence_of_numbered h.numbered
  cases hc with
  | quiet status lease usage preview bill events turn workers =>
    refine ⟨?_, ?_, ?_, ?_, ?_, ?_, ?_, ?_, ?_⟩
    · rw [lease, status]
      exact h.lease
    · intro hne
      rw [status] at hne
      rcases preview with hp | hp
      · rw [hp]
        exact h.preview hne
      · exact absurd hp hne
    · rw [usage, hs.id, workers]
      exact h.unclaimed
    · rw [status, usage]
      exact h.queued
    · rw [status, usage]
      exact h.running
    · rw [status, usage]
      exact h.recorded
    · rw [hs.id, events]
      exact h.numbered
    · rw [hs.id, events, status]
      exact h.path
    · rw [hs.id, hs.conversationId, turn, status]
      exact h.turn
  | claimed was status lease usage events turn workers =>
    refine ⟨?_, ?_, ?_, ?_, ?_, ?_, ?_, ?_, ?_⟩
    · exact ⟨fun _ => status, fun _ => lease⟩
    · exact fun hne => absurd status hne
    · rw [usage, hs.id]
      exact ⟨fun hne => (by cases hne), fun hno => absurd workers hno⟩
    · rw [status]
      intro hq
      cases hq
    · exact fun _ => usage
    · rw [status, usage]
      exact ⟨fun hq => (by cases hq), fun hq => (by cases hq)⟩
    · rw [hs.id, events]
      exact numbered_append h.numbered (by rw [hlast])
    · rw [hs.id, events, List.map_append, List.map_singleton, status]
      have hpath := h.path
      rw [was] at hpath
      exact .claimed hpath
    · rw [hs.id, hs.conversationId, turn, h.turn, status, was]
      rfl
  | stopped was status lease usage preview events turn workers =>
    have hne : r'.status ≠ .running ∧ r'.status ≠ .queued ∧ r'.status ≠ .completed := by
      rcases status with hst | hst <;> rw [hst] <;> decide
    have hnc : r.status ≠ .completed := by
      rcases was with hst | hst <;> rw [hst] <;> decide
    refine ⟨?_, fun _ => preview, ?_, ?_, ?_, ?_, ?_, ?_, ?_⟩
    · refine iff_of_false ?_ hne.1
      rcases lease with hl | ⟨hq, hl⟩
      · rw [hl]
        decide
      · rw [hl]
        intro hsome
        have hrun := h.lease.1 hsome
        rw [hq] at hrun
        cases hrun
    · rw [usage, hs.id, workers]
      exact h.unclaimed
    · exact fun hq => absurd hq hne.2.1
    · exact fun hq => absurd hq hne.1
    · rw [usage]
      exact iff_of_false (fun hr => hnc (h.recorded.1 hr)) hne.2.2
    · rw [hs.id, events]
      exact numbered_append h.numbered (by rw [hlast])
    · rw [hs.id, events, List.map_append, List.map_singleton]
      exact .stopped h.path was status
    · rw [hs.id, hs.conversationId, turn, h.turn, if_neg hnc, if_neg hne.2.2]
  | completed was status lease usage preview events turn workers bill =>
    refine ⟨?_, fun _ => preview, ?_, ?_, ?_, ?_, ?_, ?_, ?_⟩
    · rw [lease, status]
      decide
    · rw [usage, hs.id, workers]
      refine iff_of_false (by decide) fun hno => ?_
      have hfresh := h.unclaimed.2 hno
      rw [h.running was] at hfresh
      cases hfresh
    · rw [status]
      intro hq
      cases hq
    · rw [status]
      intro hq
      cases hq
    · rw [status, usage]
      decide
    · rw [hs.id, events]
      exact numbered_append h.numbered (by rw [hlast])
    · rw [hs.id, events, List.map_append, List.map_singleton, status]
      have hpath := h.path
      rw [was] at hpath
      exact .completed hpath
    · rw [hs.id, hs.conversationId, turn, h.turn, was, status]
      rfl

theorem RunRow.submitted (h : Submitted now ids t' ws' r') : RunRow t' ws' r' := by
  have hne : r'.status ≠ .running ∧ r'.status ≠ .completed := by rw [h.status]; decide
  refine ⟨?_, fun _ => h.preview, ?_, fun _ => h.usage, fun hr => absurd hr hne.1, ?_, ?_, ?_, ?_⟩
  · rw [h.lease]
    exact iff_of_false (by decide) hne.1
  · exact iff_of_true h.usage h.workers
  · rw [h.usage]
    exact iff_of_false (by decide) hne.2
  · rw [h.events]
    rfl
  · rw [h.events, h.status]
    exact .submitted
  · rw [h.turn, if_neg hne.2]
    rfl

/-! ### Keys and identifiers -/

/-- What an action writes to runs, events and messages. -/
inductive Written (now : Time) (ids : List Uuid) (db : Db) (s : Chat) (t' : Tables) (as' : List Ask) : Prop
  | kept (runs : t'.runs = s.tables.runs) (events : t'.events = s.tables.events)
    (messages : t'.messages = s.tables.messages) (conversations : t'.conversations = s.tables.conversations)
  | created {c : Conversation} (hid : c.id ∈ ids) (hcount : c.messageCount = 0)
    (owns : db.Owns c.userId c.repositoryId)
    (h : t' = { s.tables with conversations := s.tables.conversations ++ [c] })
  | rewritten {p : AnswerRun → Prop} [DecidablePred p] {f : AnswerRun → AnswerRun}
    (runs : t'.runs = Table.update p f s.tables.runs) (hid : ∀ r, (f r).id = r.id)
    (events : t'.events = s.tables.events) (messages : t'.messages = s.tables.messages)
    (conversations : t'.conversations = s.tables.conversations)
  | moved {p : AnswerRun → Prop} [DecidablePred p] {f : AnswerRun → AnswerRun}
    (hid : ∀ r ∈ s.tables.runs, p r → (f r).id = r.id) (h : Tables.Transitioned now p f s.tables t')
  | removed (p : Conversation → Bool) (h : t' = s.tables.deleteConversations p)
  | inserted {run : AnswerRun} (hid : run.id ∈ ids) (hr : ¬ Runs.Rejects s.tables run)
    (h : t' =
      { s.tables with
        runs := s.tables.runs ++ [run]
        events := s.tables.events ++ [⟨run.id, s.tables.lastSequence run.id + 1, run.status, now⟩] })
  | published {k : Runs.Worker} {conversationId : Uuid} {question : Text} {call : Call} {answer : AnswerResponse}
    {run : AnswerRun} {c : Conversation} (hk : k ∈ s.workers)
    (hpc : k.pc = .publish conversationId question call answer) (hrun : run ∈ s.tables.runs)
    (hheld : Tables.Held now k.runId k.token run) (hc : c ∈ s.tables.conversations)
    (hroom : Tables.HasRoom call.userId conversationId c)
    (h : Tables.Transitioned now (Tables.Held now k.runId k.token) (Runs.completed now answer)
      { s.tables with
        conversations := Table.update (Tables.HasRoom call.userId conversationId) (Tables.counted now)
          s.tables.conversations
        messages := s.tables.messages ++ Tables.pair conversationId (c.messageCount + 2) question answer } t')
  | asked {i : Nat} {p : Ask} {answer : AnswerResponse} {c : Conversation} (hp : s.asks[i]? = some p)
    (has : as' = s.asks.set i { p with pc := .done (.ok answer) }) (hpc : p.pc = .append answer)
    (hc : c ∈ s.tables.conversations) (hroom : Tables.HasRoom p.userId p.conversationId c)
    (runs : t'.runs = s.tables.runs) (events : t'.events = s.tables.events)
    (messages : t'.messages = s.tables.messages ++
      Tables.pair p.conversationId (c.messageCount + 2) p.request.question answer)
    (conversations : t'.conversations =
      Table.update (Tables.HasRoom p.userId p.conversationId) (Tables.counted now) s.tables.conversations)

theorem written_of_writes {c : Call} {input : Answers.Input} {pc : Answers.Pc}
    (h : Answers.Writes env now c input pc s.tables t') :
    Written now ids db s t' as' := by
  cases h with
  | none => exact .kept rfl rfl rfl rfl
  | began hrun hin h =>
    obtain ⟨-, -, rfl⟩ := Tables.begin_eq h
    exact .kept rfl rfl rfl rfl
  | finished hr h =>
    obtain ⟨-, -, rfl⟩ := Tables.finish_eq h
    exact .kept rfl rfl rfl rfl
  | previewed hrun => exact .rewritten rfl (fun _ => rfl) rfl rfl rfl

theorem written (hi : RunInv w s) (hf : ∀ i ∈ ids, i ∉ w.issued) (h : Effect env now ids db s t' as' sb' ws' log') :
    Written now ids db s t' as' := by
  have hsame : ∀ {p : AnswerRun → Prop} [DecidablePred p] {f : AnswerRun → AnswerRun},
      (∀ r ∈ s.tables.runs, p r → (f r).id = r.id) → Written now ids db s (s.tables.transition now p f) as' :=
    fun hid => .moved hid (Tables.transitioned now hi.keyed hid)
  cases h with
  | same | asking | submitting => exact .kept rfl rfl rfl rfl
  | created hid hcount hr => exact .created hid hcount hr rfl
  | claimed hid hpc hr => exact hsame fun _ _ _ => rfl
  | worked hk hids h =>
    cases h with
    | idle | ending | loaded => exact .kept rfl rfl rfl rfl
    | answering hpc h => exact written_of_writes h.writes
    | published hpc h =>
      obtain ⟨run, hrun, hheld, c, hc, hroom, ht⟩ := Runs.publish_eq hi.keyed h
      exact .published (Table.mem_of_getElem? hk) hpc hrun hheld hc hroom ht
    | failed hpc hr => exact hsame fun _ _ _ => rfl
  | stopped hm => exact hsame fun r hr hp => (hm r hr hp).same.id
  | stamped => exact .rewritten rfl (fun _ => rfl) rfl rfl rfl
  | removed p => exact .removed p rfl
  | submitted hp hids _ h =>
    cases h with
    | @inserted _ _ runId _ hpc hin h =>
      have hid := hids _ hin
      have hne : ∀ r ∈ s.tables.runs, r.id ≠ runId := fun r hr he => hf _ hid (he ▸ hi.ids r hr)
      obtain ⟨hr, rfl⟩ := Runs.insertRun_eq hi.keyed hne (.inl rfl) h
      exact .inserted hid hr rfl
    | _ => exact .kept rfl rfl rfl rfl
  | asked hp h =>
    cases h with
    | idle | ended | began => exact .kept rfl rfl rfl rfl
    | answering hpc h => exact written_of_writes h.writes
    | appended hpc h =>
      obtain ⟨c, hc, hroom, rfl⟩ := Tables.appendPair_eq h
      exact .asked hp rfl hpc hc hroom rfl rfl rfl rfl

theorem Written.keyed (hi : RunInv w s) (hf : ∀ i ∈ ids, i ∉ w.issued) (h : Written now ids db s t' as') :
    Table.Keyed (·.id) t'.runs := by
  cases h with
  | kept runs | asked _ _ _ _ _ runs => rw [runs]; exact hi.keyed
  | rewritten runs hid => rw [runs]; exact hi.keyed.update fun r _ _ => hid r
  | moved hid h =>
    rw [h.runs]
    exact hi.keyed.update fun r hr hp => (Tables.settled_id _).trans (hid r hr hp)
  | created _ _ _ h => rw [h]; exact hi.keyed
  | removed p h => rw [h]; exact hi.keyed.filter _
  | inserted hid hr h =>
    rw [h]
    exact hi.keyed.insert fun r hr he => hf _ hid (he ▸ hi.ids r hr)
  | published hk hpc hrun hheld hc hroom h =>
    rw [h.runs]
    exact hi.keyed.update fun r _ _ => Tables.settled_id _

/-- Every event belongs to a run whose identifier was drawn. -/
theorem Written.events (hi : RunInv w s) (h : Written now ids db s t' as') {e : RunEvent} (he : e ∈ t'.events) :
    e.runId ∈ w.issued ∨ e.runId ∈ ids := by
  have hkeep : ∀ e ∈ s.tables.events, e.runId ∈ w.issued ∨ e.runId ∈ ids := fun e he => .inl (hi.events e he)
  have hrun : (∃ r ∈ s.tables.runs, r.id = e.runId) → e.runId ∈ w.issued ∨ e.runId ∈ ids := by
    rintro ⟨r, hr, hid⟩
    exact .inl (hid ▸ hi.ids r hr)
  cases h with
  | kept _ events | rewritten _ _ events | asked _ _ _ _ _ _ events => exact hkeep e (events ▸ he)
  | created _ _ _ h =>
    rw [h] at he
    exact hkeep e he
  | moved hid h => exact (h.mem_events he).elim (hkeep e) hrun
  | removed p h =>
    rw [h] at he
    exact hkeep e (List.mem_of_mem_filter he)
  | inserted hid hr h =>
    rw [h] at he
    rcases List.mem_append.1 he with he | he
    · exact hkeep e he
    · rw [List.mem_singleton.1 he]
      exact .inr hid
  | published hk hpc _ hheld hc hroom h => exact (h.mem_events he).elim (hkeep e) hrun

/-- A message is old, or belongs to the answer that is being published. -/
theorem Written.messages (h : Written now ids db s t' as') {m : Message} (hm : m ∈ t'.messages) :
    m ∈ s.tables.messages ∨
      (∃ k ∈ s.workers, ∃ conversationId question call answer c, k.pc = .publish conversationId question call answer ∧
        c ∈ s.tables.conversations ∧ Tables.HasRoom call.userId conversationId c ∧
        (∃ run ∈ s.tables.runs, Tables.Held now k.runId k.token run) ∧
        m ∈ Tables.pair conversationId (c.messageCount + 2) question answer) ∨
      ∃ i p answer c, s.asks[i]? = some p ∧ as' = s.asks.set i { p with pc := .done (.ok answer) } ∧
        p.pc = .append answer ∧ c ∈ s.tables.conversations ∧
        Tables.HasRoom p.userId p.conversationId c ∧
        m ∈ Tables.pair p.conversationId (c.messageCount + 2) p.request.question answer := by
  cases h with
  | kept _ _ messages | rewritten _ _ _ messages => exact .inl (messages ▸ hm)
  | created _ _ _ h =>
    rw [h] at hm
    exact .inl hm
  | moved hid h => exact .inl (h.messages ▸ hm)
  | removed p h =>
    rw [h] at hm
    exact .inl (List.mem_of_mem_filter hm)
  | inserted hid hr h =>
    rw [h] at hm
    exact .inl hm
  | published hk hpc hrun hheld hc hroom h =>
    rw [h.messages] at hm
    rcases List.mem_append.1 hm with hm | hm
    · exact .inl hm
    · exact .inr (.inl ⟨_, hk, _, _, _, _, _, hpc, hc, hroom, ⟨_, hrun, hheld⟩, hm⟩)
  | asked hp has hpc hc hroom _ _ messages =>
    rw [messages] at hm
    rcases List.mem_append.1 hm with hm | hm
    · exact .inl hm
    · exact .inr (.inr ⟨_, _, _, _, hp, has, hpc, hc, hroom, hm⟩)

theorem pair_turnId {conversationId : Uuid} {count : Nat} {question : Text} {answer : AnswerResponse} {m : Message}
    (h : m ∈ Tables.pair conversationId count question answer) : m.turnId = answer.answerId := by
  unfold Tables.pair at h
  simp only [List.mem_cons, List.not_mem_nil, or_false] at h
  rcases h with rfl | rfl <;> rfl

theorem Written.turns (hi : RunInv w s) (h : Written now ids db s t' as') {m : Message} (hm : m ∈ t'.messages) :
    m.turnId ∈ w.issued := by
  rcases h.messages hm with hm | ⟨k, hk, _, _, _, answer, _, hpc, -, -, -, hm⟩ | ⟨i, p, answer, _, hp, -, hpc, -, -, hm⟩
  · exact hi.turns m hm
  · have hserves := hi.workers k hk
    unfold Runs.Worker.Serves at hserves
    rw [hpc] at hserves
    rw [pair_turnId hm, hserves.2]
    exact hi.claims k hk
  · have hsep := hi.asks p (Table.mem_of_getElem? hp)
    rw [pair_turnId hm, hsep.answer hpc]
    exact hsep.issued

/-! ### Workers -/

/-- A worker is old, new, or has taken a step. -/
theorem workers_effect (h : Effect env now ids db s t' as' sb' ws' log') {k' : Runs.Worker} (hk' : k' ∈ ws') :
    k' ∈ s.workers ∨ (k'.pc = .load ∧ ∃ r ∈ s.tables.runs, Runs.ClaimWhere now k'.runId r) ∨
      ∃ k ∈ s.workers, ∃ input pc', k' = { k with pc := pc' } ∧
        Runs.Worker.Effect env now k input db s.tables pc' t' := by
  cases h with
  | claimed hid hpc hr =>
    rcases List.mem_append.1 hk' with hk' | hk'
    · exact .inl hk'
    · rw [List.mem_singleton] at hk'
      subst hk'
      exact .inr (.inl ⟨hpc, hr⟩)
  | worked hk hids h =>
    rcases Table.mem_set_cases hk' with rfl | ⟨j, -, hj⟩
    · exact .inr (.inr ⟨_, Table.mem_of_getElem? hk, _, _, rfl, h⟩)
    · exact .inl (Table.mem_of_getElem? hj)
  | _ => exact .inl hk'

theorem once_effect (hi : RunInv w s) (h : Effect env now ids db s t' as' sb' ws' log') :
    Table.Keyed (·.runId) ws' := by
  cases h with
  | claimed hid hpc hr =>
    obtain ⟨r, hrm, hw⟩ := hr
    refine hi.once.insert fun k hk he => ?_
    have hrow := hi.rows r hrm
    have hfree := hrow.unclaimed.1 (hrow.queued hw.2.1)
    exact hfree (List.mem_map.2 ⟨k, hk, he.trans hw.1.symm⟩)
  | @worked _ k _ pc' _ hk hids h =>
    have hmap := Table.map_set_of_eq (x := { k with pc := pc' }) (·.runId) hk rfl
    unfold Table.Keyed
    rw [hmap]
    exact hi.once
  | _ => exact hi.once

/-- What a worker took from its run agrees with every later row of the run. -/
theorem serves_mono {k : Runs.Worker} (hk : k.runId ∈ w.issued) (hf : ∀ i ∈ ids, i ∉ w.issued)
    (hc : ∀ r' ∈ t'.runs, (∃ r ∈ s.tables.runs, Runs.Same r r') ∨ r'.id ∈ ids) (h : k.Serves s.tables) :
    k.Serves t' := by
  have hbound : ∀ {conversationId : Uuid} {question : Text} {call : Call},
      Runs.Bound s.tables k conversationId question call → Runs.Bound t' k conversationId question call := by
    intro conversationId question call hb
    refine ⟨hb.answerId, hb.run, hb.settings, fun r' hr' hid => ?_⟩
    rcases hc r' hr' with ⟨r, hr, hs⟩ | hnew
    · rw [hs.conversationId, hs.question, hs.sourceIndexId]
      exact hb.row r hr (hs.id.symm.trans hid)
    · exact absurd (hid ▸ hk) (hf _ hnew)
  unfold Runs.Worker.Serves at h ⊢
  split
  · rename_i hpc
    rw [hpc] at h
    exact ⟨hbound h.1, h.2⟩
  · rename_i hpc
    rw [hpc] at h
    exact ⟨hbound h.1, h.2⟩
  · exact trivial

theorem serves_resume {k : Runs.Worker} {conversationId : Uuid} {question : Text} {call : Call} {t : Tables}
    (hb : Runs.Bound t k conversationId question call) {pc : Answers.Pc} (hn : pc.Names k.runId) :
    Runs.Worker.Serves t { k with pc := Runs.Pc.resume conversationId question call pc } := by
  have hb' : ∀ pc', Runs.Bound t { k with pc := pc' } conversationId question call := fun _ =>
    ⟨hb.answerId, hb.run, hb.settings, hb.row⟩
  cases pc with
  | answered answer => exact ⟨hb' _, hn⟩
  | raised e => cases e <;> exact trivial
  | _ => exact ⟨hb' _, trivial⟩

theorem Pc.Ending.serves {k : Runs.Worker} {t : Tables} {pc : Runs.Pc} (h : pc.Ending) :
    Runs.Worker.Serves t { k with pc := pc } := by
  cases pc <;> trivial

theorem serves_step (hi : RunInv w s) {k : Runs.Worker} (hk : k ∈ s.workers) {input : Answers.Input} {pc' : Runs.Pc}
    (h : Runs.Worker.Effect env now k input db s.tables pc' t') :
    Runs.Worker.Serves s.tables { k with pc := pc' } := by
  have hserves := hi.workers k hk
  cases h with
  | idle => exact hserves
  | ending h => exact Pc.Ending.serves h
  | @loaded run conversation request hpc hr hid hs hc hcid =>
    refine ⟨⟨hid, rfl, rfl, fun r hrm hrid => ?_⟩, trivial⟩
    have heq : r = run := hi.keyed.eq hrm hr (hrid.trans hid.symm)
    rw [heq]
    exact ⟨hcid.symm, rfl, rfl⟩
  | answering hpc h =>
    unfold Runs.Worker.Serves at hserves
    rw [hpc] at hserves
    obtain ⟨hb, hn⟩ := hserves
    rw [← hb.answerId] at hn
    have hn' := h.names hn
    rw [hb.answerId] at hn'
    exact serves_resume hb hn'
  | published => exact trivial
  | failed => exact trivial

/-! ### Questions -/

theorem quiet_resume {answerId repositoryId : Uuid} {pc : Answers.Pc} (hr : pc.receipt = none)
    (hn : pc.Names answerId) :
    Ask.Quiet answerId (Ask.resume repositoryId pc) := by
  cases pc with
  | answered answer => exact hn
  | raised e => exact trivial
  | _ => exact ⟨hr, trivial⟩

theorem separate_step (hi : RunInv w s) {p : Ask} (hp : p ∈ s.asks) {input : Answers.Input} {pc' : AskPc}
    (h : Ask.Effect env now p input db s.tables pc' t') : Ask.Separate w s.tables { p with pc := pc' } := by
  have hsep := hi.asks p hp
  refine ⟨hsep.issued, hsep.runs, ?_⟩
  show Ask.Quiet p.answerId pc'
  cases h with
  | idle => exact hsep.quiet
  | ended | appended => exact trivial
  | began => exact ⟨rfl, trivial⟩
  | answering hpc h =>
    obtain ⟨hr, hn⟩ := hsep.receipt hpc
    exact quiet_resume (h.of_none rfl hr).1 (h.names hn)

/-! ### Every action -/

theorem RunInv.empty (w : World) : RunInv w Chat.empty :=
  ⟨.nil, List.forall_mem_nil _, List.forall_mem_nil _, List.forall_mem_nil _, .nil, List.forall_mem_nil _,
    List.forall_mem_nil _, List.forall_mem_nil _, List.forall_mem_nil _⟩

theorem RunInv.mono (h : RunInv w s) (hw : ∀ i ∈ w.issued, i ∈ w'.issued) : RunInv w' s :=
  ⟨h.keyed, fun r hr => hw _ (h.ids r hr), fun e he => hw _ (h.events e he), fun m hm => hw _ (h.turns m hm), h.once,
    fun k hk => hw _ (h.claims k hk), h.rows, h.workers, fun p hp =>
    ⟨hw _ (h.asks p hp).issued, (h.asks p hp).runs, (h.asks p hp).quiet⟩⟩

theorem RunInv.effect (h : RunInv w s) (hf : ∀ i ∈ ids, i ∉ w.issued) (hw : ∀ i ∈ w.issued, i ∈ w'.issued)
    (hids : ∀ i ∈ ids, i ∈ w'.issued) {s' : Chat}
    (he : Effect env now ids db s s'.tables s'.asks s'.submits s'.workers s'.log) :
    RunInv w' s' := by
  have hwr := written h hf he
  have hch : ∀ r' ∈ s'.tables.runs, (∃ r ∈ s.tables.runs, Runs.Same r r') ∨ r'.id ∈ ids := by
    intro r' hr'
    rcases changes h hf he hr' with ⟨r, hr, hs, -⟩ | hn
    · exact .inl ⟨r, hr, hs⟩
    · exact .inr hn.id
  have hclaims : ∀ k' ∈ s'.workers, k'.runId ∈ w.issued := by
    intro k' hk'
    rcases workers_effect he hk' with hk | ⟨-, r, hr, hcw⟩ | ⟨k, hk, input, pc', rfl, -⟩
    · exact h.claims k' hk
    · exact hcw.1 ▸ h.ids r hr
    · exact h.claims k hk
  refine ⟨hwr.keyed h hf, ?_, ?_, fun m hm => hw _ (hwr.turns h hm), once_effect h he, fun k hk => hw _ (hclaims k hk),
    ?_, ?_, ?_⟩
  · intro r' hr'
    rcases hch r' hr' with ⟨r, hr, hs⟩ | hn
    · rw [hs.id]
      exact hw _ (h.ids r hr)
    · exact hids _ hn
  · intro e hem
    exact (hwr.events h hem).elim (hw _) (hids _)
  · intro r' hr'
    rcases changes h hf he hr' with ⟨r, hr, hs, hc⟩ | hn
    · exact (h.rows r hr).change hs hc
    · exact RunRow.submitted hn
  · intro k' hk'
    refine serves_mono (hclaims k' hk') hf hch ?_
    rcases workers_effect he hk' with hk | ⟨hpc, -⟩ | ⟨k, hk, input, pc', rfl, heff⟩
    · exact h.workers k' hk
    · unfold Runs.Worker.Serves
      rw [hpc]
      exact trivial
    · exact serves_step h hk heff
  · intro p hp
    have hold : Ask.Separate w s.tables p ∨ p.pc = .owned ∧ p.answerId ∈ ids ∧ s'.tables = s.tables := by
      rcases asks_effect he hp with hp | hnew | ⟨q, hq, input, pc', rfl, heff⟩
      · exact .inl (h.asks p hp)
      · exact .inr hnew
      · exact .inl (separate_step h hq heff)
    rcases hold with hs | ⟨hpc, hid, ht⟩
    · refine ⟨hw _ hs.issued, fun r' hr' hid => ?_, hs.quiet⟩
      rcases hch r' hr' with ⟨r, hr, hsame⟩ | hn
      · exact hs.runs r hr (hsame.id.symm.trans hid)
      · exact hf _ hn (hid ▸ hs.issued)
    · refine ⟨hids _ hid, fun r hr heq => ?_, ?_⟩
      · rw [ht] at hr
        exact hf _ hid (heq ▸ h.ids r hr)
      · rw [hpc]
        exact trivial

end Chat
end RepoPilot
