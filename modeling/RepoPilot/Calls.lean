import RepoPilot.RunInvariant

/-! # Provider calls of a run

`CallInv` is about the log: a worker makes each kind of call at most once, and never before its receipt
was committed. -/

namespace RepoPilot
open Generation

namespace Answers
variable {env : Env} {now : Time} {c : Call} {input : Input} {pc pc' : Pc} {db : Db} {t t' : Tables}
  {kind : ReceiptKind}

/-- The call of this kind may still come. -/
def Pc.Ahead : ReceiptKind → Pc → Prop
  | .queryEmbedding, pc =>
    match pc with
    | .authorize | .source _ | .index _ _ | .active _ _ | .fallback _ _ | .quota _ | .lexical _ | .symbols _ _
    | .beginEmbedding _ _ _ | .embed _ _ _ _ => True
    | _ => False
  | .generation, pc =>
    match pc with
    | .generating _ _ _ _ | .finishGeneration _ _ _ _ | .recordUsage _ _ _ _ | .answered _ | .raised _ => False
    | _ => True

/-- The receipt that the next call needs. -/
def Pc.due : Pc → Option (Option Uuid × ReceiptKind)
  | .embed _ _ _ receipt => some (receipt, .queryEmbedding)
  | .generate _ _ _ receipt => some (receipt, .generation)
  | _ => none

theorem Pc.Raising.not_ahead (h : pc.Raising) : ¬ pc.Ahead kind := by
  cases pc <;> first | exact absurd h id | (cases kind <;> exact id)

theorem Pc.Raising.due (h : pc.Raising) : pc.due = none := by
  cases pc <;> first | rfl | exact absurd h id

theorem due_of_providerCall (h : providerCall pc input = some kind) :
    ∃ receipt, pc.due = some (receipt, kind) := by
  unfold providerCall at h
  split at h
  · cases h
    exact ⟨_, rfl⟩
  · cases h
    exact ⟨_, rfl⟩
  · cases h

theorem ahead_of_due {receipt : Option Uuid} (h : pc.due = some (receipt, kind)) : pc.Ahead kind := by
  unfold Pc.due at h
  split at h
  · cases h
    exact trivial
  · cases h
    exact trivial
  · cases h

/-- A call that may still come could come before. -/
theorem Effect.ahead (h : Effect env now c input pc db t pc' t') (ha : pc'.Ahead kind) : pc.Ahead kind := by
  cases h with
  | idle => exact ha
  | raised h => exact absurd ha h.not_ahead
  | authorized hpc | sourced hpc | indexed hpc | fell hpc | admitted hpc | lexical hpc =>
    subst hpc; cases kind <;> trivial
  | planned hpc => rcases hpc with rfl | rfl <;> cases kind <;> trivial
  | selected hpc h => subst hpc; cases kind <;> trivial
  | beganEmbedding hpc => subst hpc; cases kind <;> trivial
  | calledEmbed hpc => subst hpc; cases kind <;> trivial
  | embedded hpc => subst hpc; cases kind <;> trivial
  | failedCall hpc => cases kind <;> exact absurd ha id
  | finishedEmbedding hpc hf h =>
    subst hpc
    cases h with
    | raised h => exact absurd ha h.not_ahead
    | used => cases kind <;> trivial
  | vectored hpc => subst hpc; cases kind <;> trivial
  | loaded hpc hf h =>
    subst hpc
    cases h with
    | raised h => exact absurd ha h.not_ahead
    | empty => cases kind <;> exact absurd ha id
    | found => cases kind <;> trivial
  | beganGeneration hpc => subst hpc; cases kind <;> trivial
  | calledGenerate hpc => subst hpc; cases kind <;> exact absurd ha id
  | streamed hpc | previewed hpc | generated hpc => cases kind <;> exact absurd ha id
  | finishedGeneration hpc hf h => cases h with
    | raised h => exact absurd ha h.not_ahead
    | answered => cases kind <;> exact absurd ha id
  | recorded => cases kind <;> exact absurd ha id

/-- After a call no other of its kind can come. -/
theorem Effect.called (h : Effect env now c input pc db t pc' t') (hc : providerCall pc input = some kind) :
    ¬ pc'.Ahead kind := by
  cases h with
  | calledEmbed hpc hin =>
    subst hpc hin
    cases hc
    exact id
  | calledGenerate hpc hin =>
    subst hpc hin
    cases hc
    exact id
  | idle hno | raised _ hno =>
    rw [hno] at hc
    cases hc
  | authorized hpc | sourced hpc | indexed hpc | fell hpc | admitted hpc | lexical hpc | selected hpc
  | beganEmbedding hpc | embedded hpc | finishedEmbedding hpc | vectored hpc | loaded hpc | beganGeneration hpc
  | streamed hpc | previewed hpc | generated hpc | finishedGeneration hpc | recorded hpc => subst hpc; cases hc
  | planned hpc => rcases hpc with rfl | rfl <;> cases hc
  | failedCall hpc => rcases hpc with ⟨_, _, _, rfl⟩ | ⟨_, _, _, rfl⟩ <;> cases hc

/-- A receipt falls due when it has just been committed. -/
theorem Effect.due (h : Effect env now c input pc db t pc' t') {runId token : Uuid} (hrun : c.run = some (runId, token))
    {receipt : Option Uuid} (hd : pc'.due = some (receipt, kind)) :
    pc.due = some (receipt, kind) ∨
      ∃ id model i o, t.begin now runId token id kind model i o = .ok t' := by
  have hbegin : ∀ {k : ReceiptKind} {model : Text} {i o : ℚ} {receipt' : Option Uuid},
      beginReceipt now c input k model i o t = some (.ok (receipt', t')) →
        ∃ id, t.begin now runId token id k model i o = .ok t' := by
    intro k model i o receipt' h
    rcases beginReceipt_eq h with ⟨hnone, -⟩ | ⟨runId', token', id, hsome, -, -, hb⟩
    · rw [hrun] at hnone
      cases hnone
    · rw [hrun] at hsome
      cases hsome
      exact ⟨id, hb⟩
  cases h with
  | idle => exact .inl hd
  | raised h =>
    rw [h.due] at hd
    cases hd
  | selected hpc h => cases h with
    | raised h =>
      rw [h.due] at hd
      cases hd
    | _ => cases hd
  | beganEmbedding hpc h =>
    cases hd
    obtain ⟨id, hb⟩ := hbegin h
    exact .inr ⟨id, _, _, _, hb⟩
  | beganGeneration hpc h =>
    cases hd
    obtain ⟨id, hb⟩ := hbegin h
    exact .inr ⟨id, _, _, _, hb⟩
  | finishedEmbedding hpc hf h => cases h with
    | raised h =>
      rw [h.due] at hd
      cases hd
    | _ => cases hd
  | loaded hpc hf h => cases h with
    | raised h =>
      rw [h.due] at hd
      cases hd
    | _ => cases hd
  | finishedGeneration hpc hf h => cases h with
    | raised h =>
      rw [h.due] at hd
      cases hd
    | _ => cases hd
  | _ => cases hd

end Answers

namespace Runs

/-- A worker may still make the call. -/
def Pc.Ahead (kind : ReceiptKind) : Pc → Prop
  | .load => True
  | .answering _ _ _ pc => pc.Ahead kind
  | _ => False

/-- The receipt that the next call of a worker needs. -/
def Pc.due : Pc → Option (Option Uuid × ReceiptKind)
  | .answering _ _ _ pc => pc.due
  | _ => none

theorem resume_ahead {conversationId : Uuid} {question : Text} {call : Call} {pc : Answers.Pc} {kind : ReceiptKind}
    (h : (Pc.resume conversationId question call pc).Ahead kind) : pc.Ahead kind := by
  cases pc with
  | answered answer => exact absurd h id
  | raised e => cases e <;> exact absurd h id
  | _ => exact h

theorem resume_due {conversationId : Uuid} {question : Text} {call : Call} {pc : Answers.Pc}
    {d : Option Uuid × ReceiptKind} (h : (Pc.resume conversationId question call pc).due = some d) :
    pc.due = some d := by
  cases pc with
  | answered answer => cases h
  | raised e => cases e <;> cases h
  | _ => exact h

theorem Pc.Ending.not_ahead {pc : Pc} {kind : ReceiptKind} (h : pc.Ending) : ¬ pc.Ahead kind := by
  cases pc <;> first | exact id | exact absurd h id

theorem Pc.Ending.due {pc : Pc} (h : pc.Ending) : pc.due = none := by
  cases pc <;> first | rfl | exact absurd h id

section Worker
variable {env : Env} {now : Time} {k : Worker} {input : Answers.Input} {db : Db} {t t' : Tables} {pc' : Pc}
  {kind : ReceiptKind}

theorem Worker.Effect.ahead (h : Worker.Effect env now k input db t pc' t') (ha : pc'.Ahead kind) :
    k.pc.Ahead kind := by
  cases h with
  | idle => exact ha
  | ending h => exact absurd ha h.not_ahead
  | loaded hpc =>
    rw [hpc]
    exact trivial
  | answering hpc h =>
    rw [hpc]
    exact h.ahead (resume_ahead ha)
  | published => exact absurd ha id
  | failed => exact absurd ha id

theorem Worker.Effect.called (h : Worker.Effect env now k input db t pc' t') (hc : k.providerCall input = some kind) :
    k.pc.Ahead kind ∧ ¬ pc'.Ahead kind := by
  have hans : ∃ conversationId question call pc, k.pc = .answering conversationId question call pc ∧
      Answers.providerCall pc input = some kind := by
    unfold Worker.providerCall at hc
    split at hc
    · exact ⟨_, _, _, _, ‹_›, hc⟩
    · cases hc
  obtain ⟨conversationId, question, call, pc, hpc, hcall⟩ := hans
  obtain ⟨receipt, hd⟩ := Answers.due_of_providerCall hcall
  constructor
  · rw [hpc]
    exact Answers.ahead_of_due hd
  · cases h with
    | answering hpc' h =>
      rw [hpc] at hpc'
      cases hpc'
      exact fun ha => h.called hcall (resume_ahead ha)
    | idle hno | ending _ _ hno =>
      rw [hno] at hc
      cases hc
    | loaded hpc' | published hpc' | failed hpc' =>
      rw [hpc] at hpc'
      cases hpc'

theorem Worker.due_of_providerCall (hc : k.providerCall input = some kind) :
    ∃ receipt, k.pc.due = some (receipt, kind) := by
  unfold Worker.providerCall at hc
  split at hc
  · rename_i hpc
    rw [hpc]
    exact Answers.due_of_providerCall hc
  · cases hc

/-- A receipt falls due when it has just been committed. -/
theorem Worker.Effect.due (h : Worker.Effect env now k input db t pc' t') (hs : k.Serves t) {receipt : Option Uuid}
    (hd : pc'.due = some (receipt, kind)) :
    k.pc.due = some (receipt, kind) ∨ ∃ id model i o, t.begin now k.runId k.token id kind model i o = .ok t' := by
  cases h with
  | idle => exact .inl hd
  | ending h =>
    rw [h.due] at hd
    cases hd
  | answering hpc h =>
    unfold Worker.Serves at hs
    rw [hpc] at hs
    rw [hpc]
    exact h.due hs.1.run (resume_due hd)
  | loaded | published | failed => cases hd

end Worker
end Runs

namespace Chat
variable {env : Env} {now : Time} {ids : List Uuid} {db : Db} {w : World} {s : Chat} {t' : Tables}
  {as' : List Ask} {sb' : List Runs.Submit} {ws' : List Runs.Worker} {log' : List Entry}

/-- A receipt of the kind was committed for the run. -/
def Committed (log : List Entry) (runId : Uuid) (kind : ReceiptKind) : Prop :=
  ∃ q, .committed q ∈ log ∧ q.runId = runId ∧ q.kind = kind

theorem Committed.mono {log more : List Entry} {runId : Uuid} {kind : ReceiptKind} (h : Committed log runId kind) :
    Committed (log ++ more) runId kind :=
  let ⟨q, hq, hr, hk⟩ := h
  ⟨q, List.mem_append_left _ hq, hr, hk⟩

structure CallInv (ws : List Runs.Worker) (log : List Entry) : Prop where
  owners : ∀ runId kind, .called runId kind ∈ log → Claimed ws runId
  ahead : ∀ k ∈ ws, ∀ kind, k.pc.Ahead kind → .called k.runId kind ∉ log
  once : ∀ runId kind, log.count (.called runId kind) ≤ 1
  due : ∀ k ∈ ws, ∀ receipt kind, k.pc.due = some (receipt, kind) → Committed log k.runId kind
  preceded : ∀ before runId kind after, log = before ++ .called runId kind :: after → Committed before runId kind

theorem CallInv.empty : CallInv Chat.empty.workers Chat.empty.log :=
  ⟨nofun, List.forall_mem_nil _, fun _ _ => Nat.zero_le _, List.forall_mem_nil _, fun before _ _ _ h => by
    cases before <;> cases h⟩

/-- What a step of a worker logs: the receipts it commits, then the call it makes. -/
def entries (t t' : Tables) (k : Runs.Worker) (input : Answers.Input) : List Entry :=
  (t'.receipts.drop t.receipts.length).map .committed ++ ((k.providerCall input).map (.called k.runId ·)).toList

theorem called_not_committed {receipts : List UsageReceipt} {runId : Uuid} {kind : ReceiptKind} :
    .called runId kind ∉ receipts.map Entry.committed := by
  intro h
  obtain ⟨q, -, hq⟩ := List.mem_map.1 h
  cases hq

section Entries
variable {k : Runs.Worker} {input : Answers.Input} {t : Tables} {runId : Uuid} {kind : ReceiptKind}

theorem called_mem_entries : .called runId kind ∈ entries t t' k input ↔
    runId = k.runId ∧ k.providerCall input = some kind := by
  unfold entries
  rw [List.mem_append, or_iff_right called_not_committed]
  cases k.providerCall input with
  | none => simp
  | some kind' => simp [eq_comm]

theorem count_entries : (entries t t' k input).count (.called runId kind) ≤ 1 := by
  unfold entries
  rw [List.count_append, List.count_eq_zero_of_not_mem called_not_committed, Nat.zero_add]
  refine List.count_le_length.trans ?_
  cases k.providerCall input <;> simp

end Entries

theorem CallInv.claimed (hi : RunInv w s) (h : CallInv s.workers s.log) {k : Runs.Worker} (hpc : k.pc = .load)
    (hr : ∃ r ∈ s.tables.runs, Runs.ClaimWhere now k.runId r) : CallInv (s.workers ++ [k]) s.log := by
  have hfree : ¬ Claimed s.workers k.runId := by
    obtain ⟨r, hrm, hw⟩ := hr
    have hrow := hi.rows r hrm
    exact hw.1 ▸ hrow.unclaimed.1 (hrow.queued hw.2.1)
  refine ⟨?_, ?_, h.once, ?_, h.preceded⟩
  · intro runId kind hm
    unfold Claimed
    rw [List.map_append]
    exact List.mem_append_left _ (h.owners runId kind hm)
  · intro k' hk' kind ha hm
    rcases List.mem_append.1 hk' with hk' | hk'
    · exact h.ahead k' hk' kind ha hm
    · rw [List.mem_singleton.1 hk'] at hm
      exact hfree (h.owners _ _ hm)
  · intro k' hk' receipt kind hd
    rcases List.mem_append.1 hk' with hk' | hk'
    · exact h.due k' hk' receipt kind hd
    · rw [List.mem_singleton.1 hk', hpc] at hd
      cases hd

theorem CallInv.worked (hi : RunInv w s) (h : CallInv s.workers s.log) {i : Nat} {k : Runs.Worker}
    {input : Answers.Input} {pc' : Runs.Pc} (hk : s.workers[i]? = some k)
    (he : Runs.Worker.Effect env now k input db s.tables pc' t') :
    CallInv (s.workers.set i { k with pc := pc' }) (s.log ++ entries s.tables t' k input) := by
  have hkm := Table.mem_of_getElem? hk
  have hcalled : ∀ {runId kind}, .called runId kind ∈ entries s.tables t' k input →
      runId = k.runId ∧ k.pc.Ahead kind ∧ ¬ pc'.Ahead kind ∧ Committed s.log runId kind := by
    intro runId kind hm
    obtain ⟨hid, hc⟩ := called_mem_entries.1 hm
    obtain ⟨ha, hna⟩ := he.called hc
    obtain ⟨receipt, hd⟩ := Runs.Worker.due_of_providerCall hc
    exact ⟨hid, ha, hna, hid ▸ h.due k hkm receipt kind hd⟩
  refine ⟨?_, ?_, ?_, ?_, ?_⟩
  · intro runId kind hm
    rw [claimed_set hk pc']
    rcases List.mem_append.1 hm with hm | hm
    · exact h.owners runId kind hm
    · rw [(hcalled hm).1]
      exact List.mem_map.2 ⟨k, hkm, rfl⟩
  · intro k' hk' kind ha hm
    rcases Table.mem_set_cases hk' with rfl | ⟨j, hj, hk'⟩
    · rcases List.mem_append.1 hm with hm | hm
      · exact h.ahead k hkm kind (he.ahead ha) hm
      · exact (hcalled hm).2.2.1 ha
    · rcases List.mem_append.1 hm with hm | hm
      · exact h.ahead k' (Table.mem_of_getElem? hk') kind ha hm
      · exact hi.once.ne_of_ne hk hk' hj (hcalled hm).1
  · intro runId kind
    rw [List.count_append]
    by_cases hm : .called runId kind ∈ entries s.tables t' k input
    · obtain ⟨hid, ha, -, -⟩ := hcalled hm
      have hzero : s.log.count (.called runId kind) = 0 :=
        List.count_eq_zero_of_not_mem (hid ▸ h.ahead k hkm kind ha)
      rw [hzero, Nat.zero_add]
      exact count_entries
    · rw [List.count_eq_zero_of_not_mem hm, Nat.add_zero]
      exact h.once runId kind
  · intro k' hk' receipt kind hd
    rcases Table.mem_set_cases hk' with rfl | ⟨j, -, hk'⟩
    · rcases he.due (hi.workers k hkm) hd with hd | ⟨id, model, i, o, hb⟩
      · exact (h.due k hkm receipt kind hd).mono
      · obtain ⟨-, -, rfl⟩ := Tables.begin_eq hb
        let q : UsageReceipt :=
          ⟨id, k.runId, kind, model, Tables.roundTo 8 i, Tables.roundTo 8 o, none, none, none, now, none⟩
        have hq : q ∈ (s.tables.receipts ++ [q]).drop s.tables.receipts.length := by
          rw [List.drop_left]
          exact List.mem_singleton_self q
        exact ⟨q, List.mem_append_right _ (List.mem_append_left _ (List.mem_map.2 ⟨q, hq, rfl⟩)), rfl, rfl⟩
    · exact (h.due k' (Table.mem_of_getElem? hk') receipt kind hd).mono
  · intro before runId kind after heq
    rcases List.append_eq_append_iff.1 heq with ⟨mid, rfl, hmid⟩ | ⟨mid, hlog, hmid⟩
    · have hm : .called runId kind ∈ entries s.tables t' k input := by
        rw [hmid]
        exact List.mem_append_right _ List.mem_cons_self
      exact (hcalled hm).2.2.2.mono
    · cases mid with
      | nil =>
        have hm : .called runId kind ∈ entries s.tables t' k input := by
          rw [List.nil_append] at hmid
          rw [← hmid]
          exact List.mem_cons_self
        rw [List.append_nil] at hlog
        exact hlog ▸ (hcalled hm).2.2.2
      | cons e mid =>
        rw [List.cons_append] at hmid
        obtain ⟨rfl, -⟩ := List.cons.inj hmid
        exact h.preceded before runId kind mid hlog

theorem CallInv.effect (hi : RunInv w s) (h : CallInv s.workers s.log)
    (he : Effect env now ids db s t' as' sb' ws' log') :
    CallInv ws' log' := by
  cases he with
  | claimed hid hpc hr => exact h.claimed hi hpc hr
  | worked hk hids he =>
    rw [List.append_assoc]
    exact h.worked hi hk he
  | _ => exact h

end Chat
end RepoPilot
