import RepoPilot.Chat

/-! # What the transactions on runs and conversations do

One specification for each operation on the tables: which rows it rewrites, which events and messages it
adds, and what it leaves alone. -/

namespace RepoPilot
open Generation

namespace Tables
variable {now : Time} {t t' : Tables} {r : AnswerRun}

/-! ### Run events -/

/-- The run once its event is written: a terminal run has no preview. -/
def settled (r : AnswerRun) : AnswerRun := if r.status.Terminal then clearPreview r else r

@[simp] theorem settled_id (r : AnswerRun) : (settled r).id = r.id := by unfold settled; split <;> rfl

@[simp] theorem settled_status (r : AnswerRun) : (settled r).status = r.status := by unfold settled; split <;> rfl

theorem settled_of_terminal (h : r.status.Terminal) : settled r = clearPreview r := if_pos h

theorem settled_of_active (h : r.status.Active) : settled r = r :=
  if_neg fun ht => Status.terminal_iff_not_active.1 ht h

theorem appendState_of_mem (now : Time) (hk : Table.Keyed (·.id) t.runs) (hr : r ∈ t.runs) :
    appendState now t r.id =
      { t with
        runs := Table.update (·.id = r.id) settled t.runs
        events := t.events ++ [⟨r.id, t.lastSequence r.id + 1, r.status, now⟩] } := by
  have heq : ∀ q ∈ t.runs, q.id = r.id → q = r := fun q hq h => hk.eq hq hr h
  unfold appendState
  rw [hk.find?_eq hr]
  dsimp only
  congr 1
  unfold Table.update
  split
  · rename_i ht
    refine List.map_congr_left fun q hq => ?_
    split
    · rename_i h
      rw [heq q hq h, settled_of_terminal ht]
    · rfl
  · rename_i ht
    refine ((List.map_congr_left fun q hq => ?_).trans (List.map_id _)).symm
    split
    · rename_i h
      rw [heq q hq h, settled, if_neg ht, id]
    · rfl

theorem eventsOf_append (e : RunEvent) (runs : List AnswerRun) (id : Uuid) :
    eventsOf { t with runs := runs, events := t.events ++ [e] } id =
      t.eventsOf id ++ if e.runId = id then [e] else [] := by
  unfold eventsOf
  dsimp only
  rw [List.filter_append, List.filter_singleton]
  split <;> simp_all

/-- What a loop over `append_state` does. -/
structure Logged (now : Time) (ids : List Uuid) (t t' : Tables) : Prop where
  conversations : t'.conversations = t.conversations
  messages : t'.messages = t.messages
  receipts : t'.receipts = t.receipts
  runs : t'.runs = Table.update (·.id ∈ ids) settled t.runs
  others : ∀ id, id ∉ ids → t'.eventsOf id = t.eventsOf id
  events : ∀ r ∈ t.runs, r.id ∈ ids →
    t'.eventsOf r.id = t.eventsOf r.id ++ [⟨r.id, t.lastSequence r.id + 1, r.status, now⟩]

theorem logged_foldl (hk : Table.Keyed (·.id) t.runs) {ids : List Uuid} (hn : ids.Nodup)
    (hm : ∀ i ∈ ids, ∃ r ∈ t.runs, r.id = i) : Logged now ids t (ids.foldl (appendState now) t) := by
  induction ids generalizing t with
  | nil =>
    refine ⟨rfl, rfl, rfl, ?_, fun _ _ => rfl, fun r _ h => by cases h⟩
    rw [Table.update_of_none fun r _ h => by cases h]
    rfl
  | cons i ids ih =>
    obtain ⟨q, hq, rfl⟩ := hm i List.mem_cons_self
    obtain ⟨hqn, hn⟩ := List.nodup_cons.1 hn
    have hstep := appendState_of_mem now hk hq
    rw [List.foldl_cons, hstep]
    have hk' : Table.Keyed (·.id) (Table.update (·.id = q.id) settled t.runs) := hk.update fun r _ _ => settled_id r
    have hmem : ∀ i ∈ ids, ∃ r ∈ Table.update (·.id = q.id) settled t.runs, r.id = i := by
      intro i hi
      obtain ⟨r, hr, hri⟩ := hm i (List.mem_cons_of_mem _ hi)
      exact ⟨_, Table.mem_update_of_mem hr, by split <;> simpa using hri⟩
    have h := ih (t := { t with
      runs := Table.update (·.id = q.id) settled t.runs
      events := t.events ++ [⟨q.id, t.lastSequence q.id + 1, q.status, now⟩] }) hk' hn hmem
    have hlast : ∀ id, id ≠ q.id → lastSequence { t with
        runs := Table.update (·.id = q.id) settled t.runs
        events := t.events ++ [⟨q.id, t.lastSequence q.id + 1, q.status, now⟩] } id = t.lastSequence id := by
      intro id hid
      unfold lastSequence
      rw [eventsOf_append, if_neg fun he => hid he.symm, List.append_nil]
    refine ⟨h.conversations, h.messages, h.receipts, ?_, ?_, ?_⟩
    · rw [h.runs]
      unfold Table.update
      rw [List.map_map]
      refine List.map_congr_left fun r _ => ?_
      by_cases hrq : r.id = q.id
      · simp [hrq, hqn]
      · simp [hrq]
    · intro id hid
      rw [List.mem_cons, not_or] at hid
      rw [h.others id hid.2, eventsOf_append, if_neg fun he => hid.1 he.symm, List.append_nil]
    · intro r hr hrid
      by_cases hrq : r.id = q.id
      · cases hk.eq hr hq hrq
        rw [h.others _ hqn, eventsOf_append, if_pos rfl]
      · have hrids := (List.mem_cons.1 hrid).resolve_left hrq
        have hr' : r ∈ Table.update (·.id = q.id) settled t.runs := Table.mem_update_of_not hr hrq
        rw [h.events r hr' hrids, hlast _ hrq, eventsOf_append, if_neg fun he => hrq he.symm, List.append_nil]

/-- What one `UPDATE … RETURNING` with its events does: every row that matches moves and gets one event. -/
structure Transitioned (now : Time) (p : AnswerRun → Prop) [DecidablePred p] (f : AnswerRun → AnswerRun)
    (t t' : Tables) : Prop where
  conversations : t'.conversations = t.conversations
  messages : t'.messages = t.messages
  receipts : t'.receipts = t.receipts
  runs : t'.runs = Table.update p (settled ∘ f) t.runs
  others : ∀ id, (∀ r ∈ t.runs, r.id = id → ¬ p r) → t'.eventsOf id = t.eventsOf id
  events : ∀ r ∈ t.runs, p r →
    t'.eventsOf r.id = t.eventsOf r.id ++ [⟨r.id, t.lastSequence r.id + 1, (f r).status, now⟩]

theorem transitioned (now : Time) {p : AnswerRun → Prop} [DecidablePred p] {f : AnswerRun → AnswerRun}
    (hk : Table.Keyed (·.id) t.runs) (hid : ∀ r ∈ t.runs, p r → (f r).id = r.id) :
    Transitioned now p f t (t.transition now p f) := by
  have hk' : Table.Keyed (·.id) (Table.update p f t.runs) := hk.update hid
  have hn : ((t.runs.filter p).map (·.id)).Nodup := hk.filter _
  have hmem : ∀ r ∈ t.runs, r.id ∈ (t.runs.filter p).map (·.id) ↔ p r := by
    intro r hr
    constructor
    · intro h
      obtain ⟨q, hq, hqr⟩ := List.mem_map.1 h
      obtain ⟨hq, hp⟩ := List.mem_filter.1 hq
      cases hk.eq hq hr hqr
      exact of_decide_eq_true hp
    · exact fun hp => List.mem_map_of_mem (List.mem_filter.2 ⟨hr, decide_eq_true hp⟩)
  have hex : ∀ i ∈ (t.runs.filter p).map (·.id), ∃ r ∈ Table.update p f t.runs, r.id = i := by
    intro i hi
    obtain ⟨r, hr, rfl⟩ := List.mem_map.1 hi
    obtain ⟨hr, hp⟩ := List.mem_filter.1 hr
    exact ⟨f r, Table.mem_update_of_pos hr (of_decide_eq_true hp), hid r hr (of_decide_eq_true hp)⟩
  have h : Logged now _ _ (t.transition now p f) :=
    logged_foldl (t := { t with runs := Table.update p f t.runs }) hk' hn hex
  refine ⟨h.conversations, h.messages, h.receipts, ?_, ?_, ?_⟩
  · rw [h.runs]
    unfold Table.update
    rw [List.map_map]
    refine List.map_congr_left fun r hr => ?_
    by_cases hp : p r
    · have : (f r).id ∈ (t.runs.filter p).map (·.id) := hid r hr hp ▸ (hmem r hr).2 hp
      simp only [Function.comp_apply, if_pos hp, if_pos this]
    · have : r.id ∉ (t.runs.filter p).map (·.id) := fun hi => hp ((hmem r hr).1 hi)
      simp only [Function.comp_apply, if_neg hp, if_neg this]
  · intro id hno
    refine h.others id fun hi => ?_
    obtain ⟨r, hr, hri⟩ := List.mem_map.1 hi
    obtain ⟨hr, hp⟩ := List.mem_filter.1 hr
    exact hno r hr hri (of_decide_eq_true hp)
  · intro r hr hp
    have hfr := h.events (f r) (Table.mem_update_of_pos hr hp) (hid r hr hp ▸ (hmem r hr).2 hp)
    rw [hid r hr hp] at hfr
    exact hfr

theorem transitionOne_eq {p : AnswerRun → Prop} [DecidablePred p] {f : AnswerRun → AnswerRun}
    (h : t.transitionOne now p f = some t') : (∃ r ∈ t.runs, p r) ∧ t' = t.transition now p f := by
  unfold transitionOne at h
  split at h
  · cases h
    exact ⟨‹_›, rfl⟩
  · cases h

/-! ### Conversations -/

theorem owned_eq {db : Db} {userId conversationId : Uuid} {c : Conversation}
    (h : t.owned db userId conversationId = .ok c) :
    c ∈ t.conversations ∧ c.id = conversationId ∧ c.userId = userId ∧
      ∃ r ∈ db.repositories, r.id = c.repositoryId ∧ r.userId = userId := by
  unfold owned at h
  split at h
  · cases h
  · rename_i c' hf
    cases h
    have hp := List.find?_some hf
    exact ⟨List.mem_of_find?_eq_some hf, by simpa using hp⟩

/-- A pair is appended to a conversation of the user, and nothing else is written. -/
theorem appendPair_eq {db : Db} {userId conversationId : Uuid} {question : Text} {answer : AnswerResponse}
    (h : t.appendPair now db userId conversationId question answer = .ok t') :
    ∃ c ∈ t.conversations, HasRoom userId conversationId c ∧
      t' = { t with
        conversations := Table.update (HasRoom userId conversationId) (counted now) t.conversations
        messages := t.messages ++ pair conversationId (c.messageCount + 2) question answer } := by
  unfold appendPair at h
  split at h
  · cases ho : t.owned db userId conversationId with
    | error e => rw [ho] at h; cases h
    | ok c => rw [ho] at h; cases h
  · rename_i c hf
    cases h
    exact ⟨c, List.mem_of_find?_eq_some hf, by simpa using List.find?_some hf, rfl⟩

/-! ### Receipts -/

theorem begin_eq {runId token receiptId : Uuid} {kind : ReceiptKind} {model : Text} {inputRate outputRate : ℚ}
    (h : t.begin now runId token receiptId kind model inputRate outputRate = .ok t') :
    (∃ run ∈ t.runs, Held now runId token run) ∧ (∀ r ∈ t.receipts, r.runId = runId → r.kind ≠ kind) ∧
      t' = { t with receipts := t.receipts ++
        [⟨receiptId, runId, kind, model, roundTo 8 inputRate, roundTo 8 outputRate, none, none, none, now,
          none⟩] } := by
  unfold begin at h
  simp only [bind_ok, refuse_ok] at h
  obtain ⟨-, hrun, h⟩ := h
  split at h
  · cases h
  · rename_i hno
    cases h
    exact ⟨not_not.1 hrun, fun r hr hid hkind => hno ⟨r, hr, hid, hkind⟩, rfl⟩

theorem finish_eq {receiptId : Uuid} {inputTokens outputTokens : Int}
    (h : t.finish now receiptId inputTokens outputTokens = .ok t') :
    0 ≤ inputTokens ∧ 0 ≤ outputTokens ∧
      t' = { t with receipts :=
        Table.update (Open receiptId) (recorded now inputTokens.toNat outputTokens.toNat) t.receipts } := by
  unfold finish at h
  simp only [bind_ok, refuse_ok] at h
  obtain ⟨-, hneg, h⟩ := h
  cases h
  rw [not_lt, le_min_iff] at hneg
  exact ⟨hneg.1, hneg.2, rfl⟩

end Tables

namespace Runs
variable {now : Time} {t t' : Tables} {db : Db}

/-- A publication completes the run under its lease and appends the pair; then come event and cleanup. -/
theorem publish_eq {runId token userId conversationId : Uuid} {question : Text} {answer : AnswerResponse}
    (hk : Table.Keyed (·.id) t.runs)
    (h : publish now runId token userId conversationId question answer db t = some (.ok t')) :
    ∃ run ∈ t.runs, Tables.Held now runId token run ∧ ∃ c ∈ t.conversations, Tables.HasRoom userId conversationId c ∧
      Tables.Transitioned now (Tables.Held now runId token) (completed now answer)
        { t with
          conversations := Table.update (Tables.HasRoom userId conversationId) (Tables.counted now) t.conversations
          messages := t.messages ++ Tables.pair conversationId (c.messageCount + 2) question answer } t' := by
  unfold publish at h
  split at h
  swap
  · cases h
  rename_i hheld
  obtain ⟨run, hrun, hh⟩ := hheld
  cases hp : ({ t with runs := Table.update (Tables.Held now runId token) (completed now answer) t.runs } :
      Tables).appendPair now db userId conversationId question answer with
  | error e => rw [hp] at h; cases h
  | ok t₁ =>
    rw [hp] at h
    cases h
    obtain ⟨c, hc, hroom, rfl⟩ := Tables.appendPair_eq hp
    refine ⟨run, hrun, hh, c, hc, hroom, ?_⟩
    have hone : (t.runs.filter (Tables.Held now runId token ·)).map (·.id) = [runId] := by
      have hfilter : t.runs.filter (Tables.Held now runId token ·) = t.runs.filter (·.id = run.id) := by
        refine List.filter_congr fun q hq => ?_
        rw [decide_eq_decide]
        constructor
        · exact fun hq' => hq'.1.trans hh.1.symm
        · intro hid
          rw [hk.eq hq hrun hid]
          exact hh
      rw [hfilter, hk.filter_eq_singleton hrun, List.map_singleton, hh.1]
    have htr := Tables.transitioned now (p := Tables.Held now runId token) (f := completed now answer)
      (t := { t with
        conversations := Table.update (Tables.HasRoom userId conversationId) (Tables.counted now) t.conversations
        messages := t.messages ++ Tables.pair conversationId (c.messageCount + 2) question answer })
      hk fun _ _ _ => rfl
    unfold Tables.transition at htr
    dsimp only at htr
    rw [hone] at htr
    exact htr

/-- An insertion that no constraint rejects adds the run and its first event. -/
theorem insertRun_eq {run : AnswerRun} (hk : Table.Keyed (·.id) t.runs) (hnew : ∀ r ∈ t.runs, r.id ≠ run.id)
    (hact : run.status.Active) (h : insertRun now run t = some t') :
    ¬ Rejects t run ∧ t' =
      { t with
        runs := t.runs ++ [run]
        events := t.events ++ [⟨run.id, t.lastSequence run.id + 1, run.status, now⟩] } := by
  unfold insertRun at h
  split at h
  · cases h
  rename_i hno
  refine ⟨hno, ?_⟩
  have hsame : Table.update (·.id = run.id) Tables.settled (t.runs ++ [run]) = t.runs ++ [run] := by
    unfold Table.update
    refine (List.map_congr_left fun r hr => ?_).trans (List.map_id _)
    rcases List.mem_append.1 hr with hr | hr
    · rw [if_neg (hnew r hr), id]
    · rw [List.mem_singleton.1 hr, if_pos rfl, Tables.settled_of_active hact, id]
  rw [Tables.appendState_of_mem now (t := { t with runs := t.runs ++ [run] }) (hk.insert hnew)
    (List.mem_append_right _ (List.mem_singleton_self _))] at h
  dsimp only at h
  rw [hsame] at h
  exact (Option.some.inj h).symm

end Runs
end RepoPilot
