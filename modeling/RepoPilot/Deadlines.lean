import RepoPilot.ChatInvariant

/-! # Runs end in time

A queued run waits for an hour at most and a claimed one holds its lease for three minutes. A dispatcher
cycle ends what is over either limit when it starts; no action that interleaves with it can bring such a
run back, since leases end later and runs are submitted later than any cycle under way began. -/

namespace RepoPilot

namespace Runs

/-- How an action leaves a run: in its status, claimed, or ended. -/
inductive Aged (now : Time) (r r' : AnswerRun) : Prop
  | kept (status : r'.status = r.status) (lease : r'.leaseExpiresAt = r.leaseExpiresAt)
  | claimed (was : r.status = .queued) (young : now - hours 1 < r.createdAt) (status : r'.status = .running)
    (lease : r'.leaseExpiresAt = some (now + seconds 180))
  | ended (status : r'.status.Terminal)

/-- Where a run of the next table comes from. -/
def Ages (now : Time) (t : Tables) (r' : AnswerRun) : Prop :=
  (∃ r ∈ t.runs, r'.createdAt = r.createdAt ∧ Aged now r r') ∨ r'.status = .queued ∧ r'.createdAt = now

variable {env : Env} {now : Time} {t t' : Tables} {r' : AnswerRun}

theorem Ages.of_mem (h : r' ∈ t.runs) : Ages now t r' := .inl ⟨r', h, rfl, .kept rfl rfl⟩

/-- An update of the runs whose rows age. -/
theorem Ages.update {p : AnswerRun → Prop} [DecidablePred p] {f : AnswerRun → AnswerRun}
    (h : r' ∈ Table.update p f t.runs)
    (hf : ∀ r ∈ t.runs, p r → (f r).createdAt = r.createdAt ∧ Aged now r (f r)) : Ages now t r' := by
  obtain ⟨r, hr, rfl⟩ := Table.mem_update.1 h
  refine .inl ⟨r, hr, ?_⟩
  split
  · exact hf r hr ‹_›
  · exact ⟨rfl, .kept rfl rfl⟩

theorem settled_aged {r q : AnswerRun} (hc : q.createdAt = r.createdAt) (h : Aged now r q) :
    (Tables.settled q).createdAt = r.createdAt ∧ Aged now r (Tables.settled q) := by
  unfold Tables.settled
  split
  · rename_i ht
    exact ⟨hc, .ended ht⟩
  · exact ⟨hc, h⟩

theorem Ages.transition {p : AnswerRun → Prop} [DecidablePred p] {f : AnswerRun → AnswerRun}
    (h : r' ∈ (t.transition now p f).runs) (hk : Table.Keyed (·.id) t.runs) (hid : ∀ r, (f r).id = r.id)
    (hf : ∀ r ∈ t.runs, p r → (f r).createdAt = r.createdAt ∧ Aged now r (f r)) : Ages now t r' := by
  rw [(Tables.transitioned now hk fun r _ _ => hid r).runs] at h
  exact .update h fun r hr hp => settled_aged (hf r hr hp).1 (hf r hr hp).2

theorem Ages.transitionOne {p : AnswerRun → Prop} [DecidablePred p] {f : AnswerRun → AnswerRun}
    (ht : t.transitionOne now p f = some t') (h : r' ∈ t'.runs) (hk : Table.Keyed (·.id) t.runs)
    (hid : ∀ r, (f r).id = r.id)
    (hf : ∀ r ∈ t.runs, p r → (f r).createdAt = r.createdAt ∧ Aged now r (f r)) : Ages now t r' := by
  obtain ⟨-, rfl⟩ := Tables.transitionOne_eq ht
  exact .transition h hk hid hf

theorem Ages.writes {c : Call} {input : Answers.Input} {pc : Answers.Pc}
    (hw : Answers.Writes env now c input pc t t') (h : r' ∈ t'.runs) : Ages now t r' := by
  cases hw with
  | none => exact .of_mem h
  | began hrun hin hb =>
    obtain ⟨-, -, rfl⟩ := Tables.begin_eq hb
    exact .of_mem h
  | finished hr hf =>
    obtain ⟨-, -, rfl⟩ := Tables.finish_eq hf
    exact .of_mem h
  | previewed hrun => exact .update h fun _ _ _ => ⟨rfl, .kept rfl rfl⟩

theorem Worker.Effect.ages {k : Worker} {input : Answers.Input} {db : Db} {pc' : Pc} (hk : Table.Keyed (·.id) t.runs)
    (he : Worker.Effect env now k input db t pc' t') (h : r' ∈ t'.runs) : Ages now t r' := by
  cases he with
  | idle | ending | loaded => exact .of_mem h
  | answering hpc he => exact .writes he.writes h
  | published hpc hp =>
    obtain ⟨run, -, -, c, -, -, ht⟩ := publish_eq hk hp
    rw [ht.runs] at h
    exact .update h fun _ _ _ => settled_aged rfl (.ended (.inl rfl))
  | failed hpc hr => exact .transition h hk (fun _ => rfl) fun _ _ _ => ⟨rfl, .ended (.inr (.inl rfl))⟩

theorem Cycle.ages {c : Cycle} {succeeded : Bool} (hk : Table.Keyed (·.id) t.runs)
    (h : r' ∈ (c.step now succeeded t).2.runs) : Ages now t r' := by
  unfold Cycle.step at h
  split at h
  · exact .transition h hk (fun _ => rfl) fun _ _ _ => ⟨rfl, .ended (.inr (.inl rfl))⟩
  · exact .transition h hk (fun _ => rfl) fun _ _ _ => ⟨rfl, .ended (.inr (.inl rfl))⟩
  · exact .of_mem h
  · split at h
    · exact .update h fun _ _ _ => ⟨rfl, .kept rfl rfl⟩
    · exact .of_mem h
  · exact .of_mem h

end Runs

namespace Chat
variable {env : Env} {now : Time} {w : World} {s : Chat}

/-- Every action ages the runs. -/
theorem ages (a : Action) (db : Db) (hi : RunInv w s) (hf : ∀ i ∈ a.ids, i ∉ w.issued) {r' : AnswerRun}
    (h : r' ∈ (step env now a db s).tables.runs) : Runs.Ages now s.tables r' := by
  cases a with
  | create userId repositoryId conversationId title limit =>
    simp only [step] at h
    split at h
    · exact .of_mem h
    · split at h
      · exact .of_mem h
      · rename_i hc
        unfold create at hc
        simp only [bind_ok, lift_ok, refuse_ok] at hc
        obtain ⟨-, -, -, -, -, -, hc⟩ := hc
        cases hc
        exact .of_mem h
  | remove userId conversationId =>
    simp only [step] at h
    split at h
    · exact .of_mem h
    · unfold remove at h
      split at h
      · exact .of_mem h
      · exact .of_mem (List.mem_of_mem_filter h)
  | ask => simp only [step] at h; split at h <;> exact .of_mem h
  | submit => simp only [step] at h; split at h <;> exact .of_mem h
  | dispatch => exact .of_mem h
  | askStep i input =>
    simp only [step, askStep] at h
    split at h
    · exact .of_mem h
    · split at h
      · exact .of_mem h
      · rename_i p hp _
        have he := p.step_effect env now input db s.tables
        generalize (p.step env now input db s.tables).1 = pc' at he
        generalize (p.step env now input db s.tables).2 = t' at he h
        cases he with
        | idle | ended | began => exact .of_mem h
        | answering hpc he => exact .writes he.writes h
        | appended hpc ha =>
          obtain ⟨c, -, -, rfl⟩ := Tables.appendPair_eq ha
          exact .of_mem h
  | submitStep i input =>
    simp only [step, submitStep] at h
    split at h
    · exact .of_mem h
    · split at h
      · exact .of_mem h
      · rename_i p hp _
        have he := p.step_effect env now input db s.tables
        generalize (p.step env now input db s.tables).1 = pc' at he
        generalize (p.step env now input db s.tables).2 = t' at he h
        cases he with
        | @inserted source history runId _ hpc hin hins =>
          have hne : ∀ r ∈ s.tables.runs, r.id ≠ runId := by
            intro r hr hid
            refine hf runId ?_ (hid ▸ hi.ids r hr)
            rw [hin]
            exact List.mem_singleton_self runId
          obtain ⟨-, rfl⟩ := Runs.insertRun_eq hi.keyed hne (.inl rfl) hins
          rcases List.mem_append.1 h with h | h
          · exact .of_mem h
          · rw [List.mem_singleton.1 h]
            exact .inr ⟨rfl, rfl⟩
        | _ => exact .of_mem h
  | cancel userId runId =>
    simp only [step] at h
    split at h
    · exact .of_mem h
    · rename_i t' hc
      unfold Runs.cancel at hc
      cases ho : s.tables.ownedRun db userId runId with
      | error e => rw [ho] at hc; cases hc
      | ok run =>
        cases ht : s.tables.transitionOne now (Runs.CancelWhere runId) (Runs.cancelled now) with
        | none => simp only [ho, ht] at hc; cases hc
        | some t₁ =>
          simp only [ho, ht] at hc
          cases hc
          exact .transitionOne ht h hi.keyed (fun _ => rfl) fun _ _ _ => ⟨rfl, .ended (.inr (.inr rfl))⟩
  | deliver settings embedder model streaming runId token =>
    simp only [step, deliver] at h
    split at h
    · exact .of_mem h
    · rename_i t' ht
      exact .transitionOne (p := Runs.ClaimWhere now runId) (f := Runs.claimed now token) ht h hi.keyed (fun _ => rfl)
        fun r _ hr => ⟨rfl, .claimed hr.2.1 hr.2.2 rfl rfl⟩
  | workerStep i input =>
    simp only [step, workerStep] at h
    split at h
    · exact .of_mem h
    · split at h
      · exact .of_mem h
      · rename_i k hk _
        exact (k.step_effect env now input db s.tables).ages hi.keyed h
  | cycleStep i succeeded =>
    simp only [step] at h
    split at h
    · exact .of_mem h
    · exact Runs.Cycle.ages hi.keyed h

/-- A cycle is old, new, or has taken its step. -/
theorem cycles_step (a : Action) (db : Db) {c' : Runs.Cycle} (h : c' ∈ (step env now a db s).cycles) :
    c' ∈ s.cycles ∨ c' = .expireRunning now ∨
      ∃ c ∈ s.cycles, ∃ succeeded, c' = (c.step now succeeded s.tables).1 ∧
        (step env now a db s).tables = (c.step now succeeded s.tables).2 := by
  cases a with
  | dispatch =>
    rcases List.mem_append.1 h with h | h
    · exact .inl h
    · exact .inr (.inl (List.mem_singleton.1 h))
  | cycleStep i succeeded =>
    simp only [step] at h ⊢
    split at h
    · exact .inl h
    · rename_i c hc
      rcases List.mem_or_eq_of_mem_set h with h | rfl
      · exact .inl h
      · exact .inr (.inr ⟨c, Table.mem_of_getElem? hc, succeeded, rfl, rfl⟩)
  | create => simp only [step] at h; split at h <;> (try split at h) <;> exact .inl h
  | remove => simp only [step] at h; split at h <;> exact .inl h
  | ask => simp only [step] at h; split at h <;> exact .inl h
  | submit => simp only [step] at h; split at h <;> exact .inl h
  | askStep => simp only [step, askStep] at h; split at h <;> (try split at h) <;> exact .inl h
  | submitStep => simp only [step, submitStep] at h; split at h <;> (try split at h) <;> exact .inl h
  | cancel => simp only [step] at h; split at h <;> exact .inl h
  | deliver => simp only [step, deliver] at h; split at h <;> exact .inl h
  | workerStep => simp only [step, workerStep] at h; split at h <;> (try split at h) <;> exact .inl h

end Chat

/-! ### Cycles -/

namespace Runs

namespace Cycle

def start : Cycle → Time
  | .expireRunning start | .expireQueued start | .select start | .publishing start _ => start

/-- The sweep of the running runs is over. -/
def SweptRunning : Cycle → Prop
  | .expireRunning _ => False
  | _ => True

/-- So is that of the queued ones. -/
def SweptQueued : Cycle → Prop
  | .expireRunning _ | .expireQueued _ => False
  | _ => True

@[simp] theorem start_step (c : Cycle) (now : Time) (succeeded : Bool) (t : Tables) :
    (c.step now succeeded t).1.start = c.start := by
  unfold step
  split <;> rfl

end Cycle

/-- A run is submitted before now, and its lease ends three minutes after its last chance to be claimed. -/
structure OnTime (clock : Time) (r : AnswerRun) : Prop where
  created : r.createdAt ≤ clock
  lease : r.status = .running → ∃ e, r.leaseExpiresAt = some e ∧ e < r.createdAt + hours 1 + seconds 180

/-- What the sweeps of a cycle have left. -/
structure Clean (t : Tables) (c : Cycle) : Prop where
  running : c.SweptRunning → ∀ r ∈ t.runs, r.status = .running → ∃ e, r.leaseExpiresAt = some e ∧ c.start ≤ e
  queued : c.SweptQueued → ∀ r ∈ t.runs, r.status = .queued → c.start - hours 1 < r.createdAt

section
variable {now clock : Time} {t t' : Tables} {r' : AnswerRun} {c : Cycle}

theorem not_running_of_terminal {s : Status} (h : s.Terminal) : s ≠ .running := by
  rcases h with rfl | rfl | rfl <;> decide

theorem not_queued_of_terminal {s : Status} (h : s.Terminal) : s ≠ .queued := by
  rcases h with rfl | rfl | rfl <;> decide

theorem Ages.onTime (h : Ages now t r') (ht : ∀ r ∈ t.runs, OnTime now r) : OnTime now r' := by
  rcases h with ⟨r, hr, hc, hag⟩ | ⟨hq, hc⟩
  · obtain ⟨hcr, hl⟩ := ht r hr
    refine ⟨hc ▸ hcr, fun hrun => ?_⟩
    rw [hc]
    cases hag with
    | kept status lease =>
      rw [lease]
      exact hl (status.symm.trans hrun)
    | claimed was young status lease => exact ⟨_, lease, by linarith⟩
    | ended status => exact absurd hrun (not_running_of_terminal status)
  · exact ⟨hc.le, fun hrun => by rw [hq] at hrun; cases hrun⟩

/-- What a cycle that has begun has swept stays swept. -/
theorem Clean.ages (h : Clean t c) (hs : c.start ≤ now) (ht : ∀ r' ∈ t'.runs, Ages now t r') : Clean t' c := by
  have h1 : 0 < hours 1 := seconds_pos (by decide)
  have h2 : 0 < seconds 180 := seconds_pos (by decide)
  refine ⟨fun hsw r' hr' hrun => ?_, fun hsw r' hr' hq => ?_⟩
  · rcases ht r' hr' with ⟨r, hr, -, hag⟩ | ⟨hq, -⟩
    · cases hag with
      | kept status lease =>
        rw [lease]
        exact h.running hsw r hr (status.symm.trans hrun)
      | claimed was young status lease => exact ⟨_, lease, by linarith⟩
      | ended status => exact absurd hrun (not_running_of_terminal status)
    · rw [hq] at hrun
      cases hrun
  · rcases ht r' hr' with ⟨r, hr, hc, hag⟩ | ⟨-, hc⟩
    · cases hag with
      | kept status lease =>
        rw [hc]
        exact h.queued hsw r hr (status.symm.trans hq)
      | claimed was young status lease =>
        rw [status] at hq
        cases hq
      | ended status => exact absurd hq (not_queued_of_terminal status)
    · rw [hc]
      linarith

/-- A row that a transition to a terminal status has left active did not match. -/
theorem active_of_swept {p : AnswerRun → Prop} [DecidablePred p] {f : AnswerRun → AnswerRun}
    (hk : Table.Keyed (·.id) t.runs) (hid : ∀ r, (f r).id = r.id) (hf : ∀ r, (f r).status = .failed)
    (h : r' ∈ (t.transition now p f).runs) (ha : r'.status.Active) : r' ∈ t.runs ∧ ¬ p r' := by
  rw [(Tables.transitioned now hk fun r _ _ => hid r).runs] at h
  obtain ⟨r, hr, rfl⟩ := Table.mem_update.1 h
  split at ha
  · rw [Function.comp_apply, Tables.settled_status, hf] at ha
    rcases ha with ha | ha <;> cases ha
  · rename_i hp
    rw [if_neg hp]
    exact ⟨hr, hp⟩

/-- Each step of a cycle sweeps what it is for. -/
theorem Clean.step {succeeded : Bool} (h : Clean t c) (hs : c.start ≤ now) (hk : Table.Keyed (·.id) t.runs)
    (ht : ∀ r ∈ t.runs, OnTime now r) : Clean (c.step now succeeded t).2 (c.step now succeeded t).1 := by
  have hag : ∀ r' ∈ (c.step now succeeded t).2.runs, Ages now t r' := fun r' hr' => Cycle.ages hk hr'
  cases c with
  | expireRunning start =>
    refine ⟨fun _ r' hr' hrun => ?_, fun hsw => absurd hsw id⟩
    obtain ⟨hr, hno⟩ := active_of_swept (p := LostWhere start) (f := lost start) hk (fun _ => rfl) (fun _ => rfl) hr'
      (.inr hrun)
    obtain ⟨e, he, -⟩ := (ht r' hr).lease hrun
    refine ⟨e, he, not_lt.1 fun hlt => hno ⟨hrun, e, he, hlt⟩⟩
  | expireQueued start =>
    refine ⟨fun _ => (h.ages hs hag).running trivial, fun _ r' hr' hq => ?_⟩
    obtain ⟨-, hno⟩ := active_of_swept (p := ExpiredWhere start) (f := queueExpired start) hk (fun _ => rfl)
      (fun _ => rfl) hr' (.inl hq)
    exact not_le.1 fun hle => hno ⟨hq, hle⟩
  | select start => exact ⟨fun _ => h.running trivial, fun _ => h.queued trivial⟩
  | publishing start ids =>
    have hc := h.ages hs hag
    cases ids with
    | nil => exact hc
    | cons id ids => exact ⟨fun _ => hc.running trivial, fun _ => hc.queued trivial⟩

end
end Runs

/-! ### The whole system -/

namespace System
variable {env : Env}

structure DeadlineInv (s : System) : Prop where
  rows : ∀ r ∈ s.chat.tables.runs, Runs.OnTime s.world.clock r
  began : ∀ c ∈ s.chat.cycles, c.start ≤ s.world.clock
  cycles : ∀ c ∈ s.chat.cycles, Runs.Clean s.chat.tables c

theorem cascade_runs (s : System) (a : Jobs.Action) :
    (s.cascade a).cycles = s.chat.cycles ∧ ∀ r ∈ (s.cascade a).tables.runs, r ∈ s.chat.tables.runs := by
  unfold cascade
  split
  · unfold Chat.removeRepository
    split
    · exact ⟨rfl, fun _ h => h⟩
    · exact ⟨rfl, fun _ h => List.mem_of_mem_filter h⟩
  · exact ⟨rfl, fun _ h => h⟩

theorem deadlineInv_step (s : System) (a : Action) (h : ChatInv env s ∧ DeadlineInv s) :
    ChatInv env (step env s a) ∧ DeadlineInv (step env s a) := by
  refine ⟨chatInv_step s a h.1, ?_⟩
  obtain ⟨hc, hrows, hbegan, hcycles⟩ := h
  cases a with
  | tick elapsed =>
    have hle : s.world.clock ≤ s.world.clock + elapsed := le_add_of_nonneg_right (Int.natCast_nonneg _)
    exact ⟨fun r hr => ⟨(hrows r hr).created.trans hle, (hrows r hr).lease⟩, fun c hm => (hbegan c hm).trans hle, hcycles⟩
  | jobs a =>
    obtain ⟨hcyc, hruns⟩ := s.cascade_runs a
    simp only [step]
    split
    · refine ⟨fun r hr => hrows r (hruns r hr), fun c hm => hbegan c (hcyc ▸ hm), fun c hm => ?_⟩
      rw [hcyc] at hm
      exact (hcycles c hm).ages (hbegan c hm) fun r hr => .of_mem (hruns r hr)
    · exact ⟨hrows, hbegan, hcycles⟩
  | chat a =>
    simp only [step]
    split
    · rename_i hfr
      have hages : ∀ r' ∈ (Chat.step env s.world.clock a s.jobs.db s.chat).tables.runs,
          Runs.Ages s.world.clock s.chat.tables r' := fun r' hr' => Chat.ages a s.jobs.db hc.runs hfr.2 hr'
      refine ⟨fun r hr => (hages r hr).onTime hrows, fun c hm => ?_, fun c hm => ?_⟩
      · rcases Chat.cycles_step a s.jobs.db hm with hm | rfl | ⟨c₀, hm₀, succeeded, rfl, -⟩
        · exact hbegan c hm
        · exact le_refl _
        · rw [Runs.Cycle.start_step]
          exact hbegan c₀ hm₀
      · rcases Chat.cycles_step a s.jobs.db hm with hm | rfl | ⟨c₀, hm₀, succeeded, rfl, ht⟩
        · exact (hcycles c hm).ages (hbegan c hm) hages
        · exact ⟨fun hsw => absurd hsw id, fun hsw => absurd hsw id⟩
        · simp only [ht]
          exact (hcycles c₀ hm₀).step (hbegan c₀ hm₀) hc.runs.keyed hrows
    · exact ⟨hrows, hbegan, hcycles⟩

/-- What a dispatcher cycle has left when its sweeps are over. -/
structure InTime (t : Tables) (c : Runs.Cycle) : Prop where
  /-- A run whose lease had ended when the cycle began is not running. -/
  running : c.SweptRunning → ∀ r ∈ t.runs, r.status = .running → ∃ e, r.leaseExpiresAt = some e ∧ c.start ≤ e
  /-- A run that had waited for an hour is not queued. -/
  queued : c.SweptQueued → ∀ r ∈ t.runs, r.status = .queued → c.start - hours 1 < r.createdAt
  /-- A run submitted an hour and three minutes before has ended. -/
  ended : c.SweptQueued → ∀ r ∈ t.runs, r.createdAt + hours 1 + seconds 180 ≤ c.start → r.status.Terminal

/-- However workers, cancellations and other cycles interleave with a dispatcher cycle, and whichever
workers crash, what it has swept never comes back, so every run ends in time. -/
theorem runs_end_in_time (env : Env) (acts : List Action) :
    ∀ c ∈ (run env acts).chat.cycles, InTime (run env acts).chat.tables c := by
  have h : DeadlineInv (run env acts) :=
    (Machine.invariant (P := fun s => ChatInv env s ∧ DeadlineInv s)
      ⟨chatInv env [], List.forall_mem_nil _, List.forall_mem_nil _, List.forall_mem_nil _⟩ deadlineInv_step acts).2
  intro c hc
  have hclean := h.cycles c hc
  have h2 : 0 < seconds 180 := seconds_pos (by decide)
  refine ⟨hclean.running, hclean.queued, fun hsw r hr hold => Status.terminal_iff_not_active.2 fun ha => ?_⟩
  have hrunning : c.SweptRunning := by cases c <;> first | exact trivial | exact hsw
  rcases ha with hq | hrun
  · have := hclean.queued hsw r hr hq
    linarith
  · obtain ⟨e, he, hle⟩ := hclean.running hrunning r hr hrun
    obtain ⟨e', he', hlt⟩ := (h.rows r hr).lease hrun
    cases he.symm.trans he'
    linarith

/-- The worker of a run crashes, and a dispatcher cycle begins after its lease has ended. -/
def sweeping : List Action :=
  asking ++ [.chat (.deliver offline none none true 12 14), .tick 181000000, .chat .dispatch,
    .chat (.cycleStep 0 true), .chat (.cycleStep 0 true)]

theorem runs_end_in_time_swept :
    (run characters sweeping).chat.tables.runs.map (·.status) = [.failed] ∧
      InTime (run characters sweeping).chat.tables (.select 181000000) := by
  have hcycle : .select 181000000 ∈ (run characters sweeping).chat.cycles := by decide +kernel
  exact ⟨by decide +kernel, runs_end_in_time characters sweeping _ hcycle⟩

end System
end RepoPilot
