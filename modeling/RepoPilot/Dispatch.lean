import RepoPilot.JobChanges

/-! # No job gets stuck

Every row that waits or has lost its worker can be claimed or is ended by the dispatcher: the two
`WHERE` clauses cover it. A dispatcher cycle first ends the jobs whose last attempt expired; as leases
granted later expire later, what it then selects can be claimed (`Swept`). -/

namespace RepoPilot

namespace Job
variable {π : Type} {now now' start : Time} {r : Job π} {t : List (Job π)}

theorem ClaimWhere.mono (h : ClaimWhere now r.id r) (hn : now ≤ now') : ClaimWhere now' r.id r := by
  obtain ⟨hid, hcur, hlt, hav, hst⟩ := h
  refine ⟨hid, hcur, hlt, hav.trans hn, hst.imp_right fun hr => ?_⟩
  exact ⟨hr.1, hr.2.mono hn⟩

/-- An active row whose lease, if it has one, has expired and whose time has come can be claimed or is
lost. -/
theorem Ok.claimable (h : Ok r) (ha : r.status.Active) (he : ∀ e, r.leaseExpiresAt = some e → e < now)
    (hav : r.availableAt ≤ now) : ClaimWhere now r.id r ∨ LostWhere now r := by
  have hcur : r.isCurrent = true := by
    by_contra hc
    have := h.current (by simpa using hc)
    exact Status.terminal_iff_not_active.1 this ha
  rcases ha with hq | hr
  · exact .inl ⟨rfl, hcur, h.queued hq, hav, .inl hq⟩
  · have hpast : Past r.leaseExpiresAt now := by
      obtain ⟨e, hs⟩ := Option.isSome_iff_exists.1 (h.expires.2 hr)
      exact ⟨e, hs, he e hs⟩
    by_cases hlt : r.attempts < 3
    · exact .inl ⟨rfl, hcur, hlt, hav, .inr ⟨hr, hpast⟩⟩
    · exact .inr ⟨hr, hpast, not_lt.1 hlt⟩

/-- No lease that expired before `start` is a last attempt's. -/
def Swept (start : Time) (t : List (Job π)) : Prop :=
  ∀ r ∈ t, r.status = .running → Past r.leaseExpiresAt start → r.attempts < 3

theorem swept_workerLost : Swept now (workerLost now t) := by
  intro r hr hrun hp
  obtain ⟨q, hq, rfl⟩ := Table.mem_update.1 hr
  split at hrun
  · cases hrun
  · rename_i hlost
    rw [if_neg hlost] at hp ⊢
    exact not_le.1 fun h3 => hlost ⟨hrun, hp, h3⟩

theorem Swept.changes [JobData π] {a : Actor} {t' : List (Job π)} (h : Swept start t) (hs : start ≤ a.now)
    (hc : Changes a t t') : Swept start t' := by
  induction hc with
  | refl => exact h
  | tail _ hc ih =>
    intro r' hr' hrun hp
    rcases hc.origin hr' with ⟨r, hr, hm⟩ | hr | ⟨-, hq, -⟩
    · obtain ⟨h1, h2, h3⟩ := hm.lapsed hs hrun hp
      rw [h3]
      exact ih r hr h1 h2
    · exact ih r' hr hrun hp
    · rw [hq] at hrun; cases hrun

/-- What is selected after the sweep can be claimed. -/
theorem Swept.selected (h : Swept start t) (hok : ∀ r ∈ t, Ok r) {id : Uuid} (hid : id ∈ dispatchSelect start t) :
    ∃ r ∈ t, ClaimWhere start id r := by
  obtain ⟨r, hr, rfl⟩ := List.mem_map.1 hid
  have hr := (List.mem_insertionSort _).1 (List.mem_of_mem_take hr)
  obtain ⟨hr, hsel⟩ := List.mem_filter.1 hr
  obtain ⟨hcur, hav, hst, -⟩ := of_decide_eq_true hsel
  refine ⟨r, hr, rfl, hcur, ?_, hav, hst⟩
  rcases hst with hq | ⟨hrun, hp⟩
  · exact (hok r hr).queued hq
  · exact h r hr hrun hp

end Job

namespace Cycle
variable {π : Type} {clock clock' now : Time} {input : Input} {t t' : List (Job π)} {cycles : List Cycle}

/-- The cycles that have swept and not yet selected. -/
def Clean (clock : Time) (t : List (Job π)) (cycles : List Cycle) : Prop :=
  ∀ start, .expired start ∈ cycles → start ≤ clock ∧ Job.Swept start t

theorem Clean.mono (h : Clean clock t cycles) (hc : clock ≤ clock') : Clean clock' t cycles :=
  fun start hm => ⟨(h start hm).1.trans hc, (h start hm).2⟩

theorem Clean.changes [JobData π] {a : Actor} (h : Clean a.now t cycles) (hc : Job.Changes a t t') :
    Clean a.now t' cycles :=
  fun start hm => ⟨(h start hm).1, (h start hm).2.changes (h start hm).1 hc⟩

theorem Clean.step [JobData π] (h : Clean now t cycles) :
    Clean now (Cycle.step now input t cycles).1 (Cycle.step now input t cycles).2 := by
  intro start hm
  have hold : Cycle.expired start ∈ cycles → start ≤ now ∧ Job.Swept start (Cycle.step now input t cycles).1 :=
    fun hm => ⟨(h start hm).1, (h start hm).2.changes (h start hm).1 Cycle.step_changes⟩
  cases input with
  | expire =>
    rcases List.mem_append.1 hm with hm | hm
    · exact hold hm
    · cases List.mem_singleton.1 hm
      exact ⟨le_refl _, Job.swept_workerLost⟩
  | select i =>
    refine hold ?_
    simp only [Cycle.step] at hm
    split at hm
    · exact (List.mem_or_eq_of_mem_set hm).resolve_right nofun
    · exact hm
  | publish i succeeded =>
    refine hold ?_
    simp only [Cycle.step] at hm
    split at hm
    · exact (List.mem_or_eq_of_mem_set hm).resolve_right nofun
    · exact hm

end Cycle

namespace Jobs
variable {env : Env} {now : Time} {a : Action} {s : Jobs} {w : World}

/-- The cycles of all three dispatchers are clean. -/
structure CycleInv (clock : Time) (s : Jobs) : Prop where
  imports : Cycle.Clean clock s.db.imports s.importCycles
  indexes : Cycle.Clean clock s.db.indexes s.indexCycles
  searches : Cycle.Clean clock s.db.searches s.searchCycles

namespace CycleInv

theorem empty (clock : Time) : CycleInv clock Jobs.empty := by
  constructor <;> intro start h <;> cases h

theorem mono {clock clock' : Time} (h : CycleInv clock s) (hc : clock ≤ clock') : CycleInv clock' s :=
  ⟨h.imports.mono hc, h.indexes.mono hc, h.searches.mono hc⟩

/-- Only a cycle's own actions change the cycles. -/
theorem cycles_frame (env : Env) (now : Time) (a : Action) (s : Jobs) :
    ((∃ input, a = .importCycle input) ∨ (step env now a s).importCycles = s.importCycles) ∧
      ((∃ input, a = .indexCycle input) ∨ (step env now a s).indexCycles = s.indexCycles) ∧
      ((∃ input, a = .searchCycle input) ∨ (step env now a s).searchCycles = s.searchCycles) := by
  cases a
  case importCycle input => exact ⟨.inl ⟨input, rfl⟩, .inr rfl, .inr rfl⟩
  case indexCycle input => exact ⟨.inr rfl, .inl ⟨input, rfl⟩, .inr rfl⟩
  case searchCycle input => exact ⟨.inr rfl, .inr rfl, .inl ⟨input, rfl⟩⟩
  case claimImport jobId token => simp only [Jobs.step, claimImport]; split <;> exact ⟨.inr rfl, .inr rfl, .inr rfl⟩
  case importStep i input => simp only [Jobs.step, importStep]; split <;> exact ⟨.inr rfl, .inr rfl, .inr rfl⟩
  case claimIndex jobId token => simp only [Jobs.step, claimIndex]; split <;> exact ⟨.inr rfl, .inr rfl, .inr rfl⟩
  case indexStep i input => simp only [Jobs.step, indexStep]; split <;> exact ⟨.inr rfl, .inr rfl, .inr rfl⟩
  case claimSearch jobId token provider =>
    simp only [Jobs.step, claimSearch]; split <;> exact ⟨.inr rfl, .inr rfl, .inr rfl⟩
  case searchStep i input => simp only [Jobs.step, searchStep]; split <;> exact ⟨.inr rfl, .inr rfl, .inr rfl⟩
  all_goals exact ⟨.inr rfl, .inr rfl, .inr rfl⟩

/-- Every action keeps the cycles clean. -/
theorem step (h : CycleInv now s) (hi : Inv w s) (hf : ∀ i ∈ a.ids, i ∉ w.issued) :
    CycleInv now (Jobs.step env now a s) := by
  obtain ⟨h1, h2, h3⟩ := cycles_frame env now a s
  have himports := imports_changes env now hi.imports hi.importClaims hf
  have hindexes := indexes_changes env now hi.indexes hf
  have hsearches := searches_changes env now hi.searches hi.profiled hf
  refine ⟨?_, ?_, ?_⟩
  · rcases h1 with ⟨input, rfl⟩ | he
    · exact h.imports.step
    · rw [he]
      exact Cycle.Clean.changes (a := actor now a s) h.imports himports
  · rcases h2 with ⟨input, rfl⟩ | he
    · exact h.indexes.step
    · rw [he]
      exact Cycle.Clean.changes (a := actor now a s) h.indexes hindexes
  · rcases h3 with ⟨input, rfl⟩ | he
    · exact h.searches.step
    · rw [he]
      exact Cycle.Clean.changes (a := actor now a s) h.searches hsearches

end CycleInv
end Jobs
end RepoPilot
