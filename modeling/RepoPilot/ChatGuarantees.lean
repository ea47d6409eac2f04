import RepoPilot.ChatInvariant

/-! # What the conversations guarantee

In every reachable state, that is after every interleaving of submissions, cancellations, deletions,
deliveries, worker steps and dispatcher cycles. -/

namespace RepoPilot
open Generation

namespace Chat

theorem Change.terminal {now : Time} {s : Chat} {t' : Tables} {ws' : List Runs.Worker} {r r' : AnswerRun}
    (h : Change now s t' ws' r r') (ht : r.status.Terminal) : r'.status = r.status := by
  have hno : ¬ r.status.Active := Status.terminal_iff_not_active.1 ht
  cases h with
  | quiet status => exact status
  | claimed was => exact absurd (.inl was) hno
  | stopped was => exact absurd was hno
  | completed was => exact absurd (.inr was) hno

end Chat

namespace System
variable {env : Env}

/-! ### The history of a run -/

/-- The status of a run in the database, if it exists. -/
def statusOf (runId : Uuid) (s : System) : Option Status :=
  (s.chat.tables.runs.find? (·.id = runId)).map (·.status)

/-- The statuses a run has had since the system started, in order. -/
def statuses (env : Env) (acts : List Action) (runId : Uuid) : List Status :=
  (machine env).history (statusOf runId) acts

/-- The events of a run record the statuses in `past`. -/
def Recorded (runId : Uuid) (s : System) (past : List Status) : Prop :=
  (∀ r ∈ s.chat.tables.runs, r.id = runId → (s.chat.tables.eventsOf runId).map (·.status) = past) ∧
    (statusOf runId s = none → past = [])

theorem statusOf_of_mem {s : System} (hk : Table.Keyed (·.id) s.chat.tables.runs) {r : AnswerRun}
    (hr : r ∈ s.chat.tables.runs) : statusOf r.id s = some r.status := by
  unfold statusOf
  rw [hk.find?_eq hr]
  rfl

theorem statusOf_eq_none {s : System} {runId : Uuid} (h : ∀ r ∈ s.chat.tables.runs, r.id ≠ runId) :
    statusOf runId s = none := by
  unfold statusOf
  rw [Option.map_eq_none_iff, List.find?_eq_none]
  intro r hr
  simpa using h r hr

theorem recorded_step (s : System) (a : Action) (past : List Status) (runId : Uuid) (h : ChatInv env s)
    (hp : Recorded runId s past) :
    Recorded runId (step env s a) (Machine.note (statusOf runId s) (statusOf runId (step env s a)) past) := by
  have h' := chatInv_step s a h
  obtain ⟨ids, hf, -, he⟩ := chatStep env s a
  refine ⟨fun r' hr' hid => ?_, fun hnone => by rw [hnone, Machine.note_none]⟩
  subst hid
  rw [statusOf_of_mem h'.runs.keyed hr']
  rcases Chat.changes h.runs hf he hr' with ⟨r, hr, hs, hc⟩ | hn
  · have hpast := hp.1 r hr hs.id.symm
    have hold : statusOf r'.id s = some r.status := hs.id ▸ statusOf_of_mem h.runs.keyed hr
    rw [hs.id] at hpast ⊢
    have hmoved : (step env s a).chat.tables.eventsOf r.id = s.chat.tables.eventsOf r.id ++
        [⟨r.id, s.chat.tables.lastSequence r.id + 1, r'.status, s.world.clock⟩] → r.status ≠ r'.status →
        ((step env s a).chat.tables.eventsOf r.id).map (·.status) =
          Machine.note (some r.status) (some r'.status) past := by
      intro hevents hne
      rw [Machine.note_of_ne past fun heq => hne (Option.some.inj heq), hevents, List.map_append, hpast]
      rfl
    rw [← hs.id, hold, hs.id]
    cases hc with
    | quiet status _ _ _ _ events =>
      rw [status, Machine.note_same, events]
      exact hpast
    | claimed was status _ _ events =>
      exact hmoved events (by rw [was, status]; decide)
    | stopped was status _ _ _ events =>
      refine hmoved events ?_
      rcases was with was | was <;> rcases status with status | status <;> rw [was, status] <;> decide
    | completed was status _ _ _ events =>
      exact hmoved events (by rw [was, status]; decide)
  · have hgone : statusOf r'.id s = none :=
      statusOf_eq_none fun r hr hid => hf _ hn.id (hid ▸ h.runs.ids r hr)
    have hne : statusOf r'.id s ≠ some r'.status := by simp [hgone]
    rw [Machine.note_of_ne past hne, hp.2 hgone, hn.events, hn.status]
    rfl

/-- The events of a run are its history. -/
theorem events_history (acts : List Action) {r : AnswerRun} (hr : r ∈ (run env acts).chat.tables.runs) :
    ((run env acts).chat.tables.eventsOf r.id).map (·.status) = statuses env acts r.id := by
  have h : Recorded r.id (run env acts) (statuses env acts r.id) :=
    Machine.trail_invariant chatInv_step (fun s a past hs hp => recorded_step s a past r.id hs hp) (chatInv env [])
      ⟨List.forall_mem_nil _, fun _ => rfl⟩ acts
  exact h.1 r hr rfl

/-- The events, the lease and the preview of a run agree with its history. -/
structure Chronicled (t : Tables) (past : List Status) (r : AnswerRun) : Prop where
  sequences : (t.eventsOf r.id).map (·.sequence) = List.range' 1 (t.eventsOf r.id).length
  atMost : (t.eventsOf r.id).length ≤ 3
  statuses : (t.eventsOf r.id).map (·.status) = past
  last : past.getLast? = some r.status
  lease : r.leaseToken.isSome ↔ r.status = .running
  preview : r.status ≠ .running → r.previewText = []

/-- Every run in the database after `acts` is chronicled. -/
def RunsChronicled (env : Env) (acts : List Action) : Prop :=
  ∀ r ∈ (run env acts).chat.tables.runs, Chronicled (run env acts).chat.tables (statuses env acts r.id) r

/-- The events of each run are numbered 1 to at most 3 and are its history, it has a lease exactly while
it is running, and no preview once it is not. -/
theorem run_events (env : Env) (acts : List Action) : RunsChronicled env acts := by
  intro r hr
  have h := (chatInv env acts).runs.rows r hr
  have hevents := events_history acts hr
  have hlen := h.path.length_le
  rw [List.length_map] at hlen
  exact ⟨h.numbered, hlen, hevents, hevents ▸ h.path.getLast?, h.lease, h.preview⟩

/-! ### Runs -/

/-- A run once terminal keeps its status; a receipt once finished does not change. -/
structure ChatLater (s s' : System) : Prop where
  issued : ∀ i ∈ s.world.issued, i ∈ s'.world.issued
  runs : Table.Persists (·.id) s.world.issued (fun r r' => r.status.Terminal → r'.status = r.status)
    s.chat.tables.runs s'.chat.tables.runs
  receipts : Table.Persists (·.id) s.world.issued (fun q q' => q.inputTokens ≠ none → q' = q)
    s.chat.tables.receipts s'.chat.tables.receipts

theorem ChatLater.refl (s : System) : ChatLater s s :=
  ⟨fun _ h => h, .refl (fun _ _ => rfl) _, .refl (fun _ _ => rfl) _⟩

theorem ChatLater.trans {s s' s'' : System} (h : ChatLater s s') (h' : ChatLater s' s'') : ChatLater s s'' := by
  refine ⟨fun i hi => h'.issued i (h.issued i hi), h.runs.trans ?_ h.issued h'.runs,
    h.receipts.trans ?_ h.issued h'.receipts⟩
  · intro r r' r'' hr hr' ht
    have heq := hr ht
    exact (hr' (heq ▸ ht)).trans heq
  · intro q q' q'' hq hq' hne
    have heq := hq hne
    subst heq
    exact hq' hne

theorem chatLater_step (s : System) (a : Action) (h : ChatInv env s) : ChatLater s (step env s a) := by
  obtain ⟨ids, hf, hw, he⟩ := chatStep env s a
  refine ⟨fun i hi => hw ▸ List.mem_append_left _ hi, fun r' hr' hid => ?_, fun q' hq' hid => ?_⟩
  · rcases Chat.changes h.runs hf he hr' with ⟨r, hr, hs, hc⟩ | hn
    · exact ⟨r, hr, hs.id.symm, hc.terminal⟩
    · exact absurd hid (hf _ hn.id)
  · rcases (Chat.receipted h.runs hf he).mem hq' with ⟨q, hq, hqid, -, -, hsame⟩ | ⟨hnew, -⟩
    · exact ⟨q, hq, hqid, hsame⟩
    · exact absurd hid (hf _ hnew)

theorem chatLater (acts more : List Action) : ChatLater (run env acts) ((machine env).exec (run env acts) more) :=
  Machine.relates chatInv_step ChatLater.refl ChatLater.trans chatLater_step (chatInv env acts) more

/-- The columns of a run and the messages of its turn say how far it has come. -/
structure Tracked (s : System) (past : List Status) (r : AnswerRun) : Prop where
  path : Path past r.status
  notStarted : r.usageState = .notStarted ↔ ∀ k ∈ s.chat.workers, k.runId ≠ r.id
  recorded : r.usageState = .recorded ↔ r.status = .completed
  turn : r.status = .completed ↔
    (s.chat.tables.turn r.conversationId r.id).map (·.role) = [.user, .assistant]
  noTurn : r.status ≠ .completed → s.chat.tables.turn r.conversationId r.id = []

theorem tracked_of_row {s : System} {r : AnswerRun} {past : List Status}
    (h : Chat.RunRow s.chat.tables s.chat.workers r) (hp : Path past r.status) : Tracked s past r := by
  refine ⟨hp, ?_, h.recorded, ?_, fun hne => ?_⟩
  · rw [h.unclaimed]
    unfold Chat.Claimed
    simp only [List.mem_map, not_exists, not_and]
  · rw [h.turn]
    constructor
    · exact fun hs => if_pos hs
    · intro hroles
      by_contra hne
      rw [if_neg hne] at hroles
      cases hroles
  · have hturn := h.turn
    rw [if_neg hne] at hturn
    exact List.map_eq_nil_iff.1 hturn

/-- At most one delivery passes the claim of a run and the model is called at most once for it; its status
only moves forward, a terminal status is final, and the messages are there exactly if it completed. -/
theorem runs_run_once (env : Env) (acts more : List Action) :
    let s := run env acts
    let s' := (machine env).exec s more
    (∀ runId, (s.chat.workers.filter (·.runId = runId)).length ≤ 1 ∧
        s.chat.log.count (.called runId .generation) ≤ 1) ∧
      (∀ r ∈ s.chat.tables.runs, Tracked s (statuses env acts r.id) r) ∧
      ∀ r ∈ s.chat.tables.runs, r.status.Terminal →
        ∀ r' ∈ s'.chat.tables.runs, r'.id = r.id → r'.status = r.status := by
  intro s s'
  have h : ChatInv env s := chatInv env acts
  have hl : ChatLater s s' := chatLater acts more
  refine ⟨fun runId => ⟨?_, h.calls.once runId .generation⟩, fun r hr => ?_, ?_⟩
  · refine (h.runs.once.filter _).length_le_one fun k hk k' hk' => ?_
    obtain ⟨hk, hkr⟩ := List.mem_filter.1 hk
    obtain ⟨hk', hkr'⟩ := List.mem_filter.1 hk'
    exact h.runs.once.eq hk hk' ((of_decide_eq_true hkr).trans (of_decide_eq_true hkr').symm)
  · have hrow := h.runs.rows r hr
    exact tracked_of_row hrow (events_history acts hr ▸ hrow.path)
  · intro r hr ht r' hr' hid
    exact hl.runs.of_mem h.runs.keyed hr (h.runs.ids r hr) hr' hid ht

/-! ### Conversations -/

/-- The messages and counters of all conversations are the same. -/
def Unappended (t t' : Tables) : Prop := t'.conversations = t.conversations ∧ t'.messages = t.messages

theorem unappended_of_writes {now : Time} {c : Call} {input : Answers.Input} {pc : Answers.Pc} {t t' : Tables}
    (h : Answers.Writes env now c input pc t t') : Unappended t t' := by
  cases h with
  | none => exact ⟨rfl, rfl⟩
  | began hrun hin h =>
    obtain ⟨-, -, rfl⟩ := Tables.begin_eq h
    exact ⟨rfl, rfl⟩
  | finished hr h =>
    obtain ⟨-, -, rfl⟩ := Tables.finish_eq h
    exact ⟨rfl, rfl⟩
  | previewed hrun => exact ⟨rfl, rfl⟩

/-- A question appends nothing unless it ends in its answer. -/
theorem ask_refused {now : Time} {p : Ask} {input : Answers.Input} {db : Db} {t : Tables}
    (h : ∀ answer, (p.step env now input db t).1 ≠ .done (.ok answer)) :
    Unappended t (p.step env now input db t).2 := by
  have he := p.step_effect env now input db t
  generalize p.step env now input db t = r at he h
  obtain ⟨pc', t'⟩ := r
  cases he with
  | answering hpc he => exact unappended_of_writes he.writes
  | appended hpc he => exact absurd rfl (h _)
  | _ => exact ⟨rfl, rfl⟩

/-- A worker appends nothing unless it publishes. -/
theorem worker_refused {now : Time} {k : Runs.Worker} {input : Answers.Input} {db : Db} {t : Tables}
    (hk : Table.Keyed (·.id) t.runs) (h : ∀ call answer, (k.step env now input db t).1 ≠ .published call answer) :
    Unappended t (k.step env now input db t).2 := by
  have he := k.step_effect env now input db t
  generalize k.step env now input db t = r at he h
  obtain ⟨pc', t'⟩ := r
  cases he with
  | answering hpc he => exact unappended_of_writes he.writes
  | published hpc he => exact absurd rfl (h _ _)
  | @failed code message hpc hr =>
    have ht := Tables.transitioned now (t := t) (p := Runs.FailWhere k.runId k.token)
      (f := Runs.failed now code message) hk fun _ _ _ => rfl
    exact ⟨ht.conversations, ht.messages⟩
  | _ => exact ⟨rfl, rfl⟩

/-- The messages of every conversation are numbered turns of a question and an answer, the counter counts
them, and an append that is refused or fails writes neither. -/
theorem conversations_alternate (env : Env) (acts : List Action) :
    let s := run env acts
    (∀ c ∈ s.chat.tables.conversations, Tables.Transcript c.messageCount (s.chat.tables.messagesOf c.id)) ∧
      (∀ p ∈ s.chat.asks, ∀ input,
        let r := p.step env s.world.clock input s.jobs.db s.chat.tables
        (∀ answer, r.1 ≠ .done (.ok answer)) → Unappended s.chat.tables r.2) ∧
      ∀ k ∈ s.chat.workers, ∀ input,
        let r := k.step env s.world.clock input s.jobs.db s.chat.tables
        (∀ call answer, r.1 ≠ .published call answer) → Unappended s.chat.tables r.2 := by
  intro s
  have h : ChatInv env s := chatInv env acts
  exact ⟨h.conversations.transcripts, fun _ _ _ => ask_refused, fun _ _ _ => worker_refused h.runs.keyed⟩

/-! ### Receipts -/

/-- A number with at most `k` decimals. -/
def Decimals (k : Nat) (q : ℚ) : Prop := ∃ n : Nat, q = n / 10 ^ k

theorem Decimals.mono {k l : Nat} {q : ℚ} (h : Decimals k q) (hkl : k ≤ l) : Decimals l q := by
  obtain ⟨n, rfl⟩ := h
  obtain ⟨d, rfl⟩ := Nat.exists_eq_add_of_le hkl
  refine ⟨n * 10 ^ d, ?_⟩
  rw [pow_add]
  push_cast
  field_simp

theorem Decimals.roundTo {k : Nat} {q : ℚ} (h : Decimals k q) : Tables.roundTo k q = q := by
  obtain ⟨n, rfl⟩ := h
  have hfloor : ⌊(n : ℚ) + 1 / 2⌋ = (n : ℤ) := by
    rw [Int.floor_eq_iff]
    push_cast
    constructor <;> linarith
  unfold Tables.roundTo
  rw [div_mul_cancel₀ _ (by positivity), hfloor, Int.cast_natCast]

/-- The three prices have at most six decimals. -/
structure ExactPrices (settings : Settings) : Prop where
  embedding : Decimals 6 settings.embeddingPrice
  input : Decimals 6 settings.answerInputPrice
  output : Decimals 6 settings.answerOutputPrice

theorem ExactPrices.rates {settings : Settings} (h : ExactPrices settings) (kind : ReceiptKind) :
    Decimals 6 (Receipts.rates settings kind).1 ∧ Decimals 6 (Receipts.rates settings kind).2 := by
  cases kind with
  | queryEmbedding => exact ⟨h.embedding, 0, by simp [Receipts.rates]⟩
  | generation => exact ⟨h.input, h.output⟩

/-- The cost on a finished receipt is exact. -/
theorem closed_cost {settings : Settings} {kind : ReceiptKind} {i o : Nat} {q : UsageReceipt}
    (h : ExactPrices settings) (hc : Receipts.Closed settings kind i o q) :
    q.estimatedCostUsd.getD 0 =
      (i * (Receipts.rates settings kind).1 + o * (Receipts.rates settings kind).2) / 1000000 := by
  obtain ⟨hi, ho⟩ := h.rates kind
  rw [hc.cost, (hi.mono (by decide)).roundTo, (ho.mono (by decide)).roundTo, Option.getD_some]
  obtain ⟨a, ha⟩ := hi
  obtain ⟨b, hb⟩ := ho
  refine Decimals.roundTo ⟨i * a + o * b, ?_⟩
  rw [ha, hb]
  push_cast
  ring

/-- The receipts of a completed run account for what it cost. -/
structure Reconciled (t : Tables) (settings : Settings) (r : AnswerRun) : Prop where
  known : ∀ q ∈ t.receiptsOf r.id, q.inputTokens ≠ none
  generation : ∀ q ∈ t.receiptsOf r.id, q.kind = .generation →
    q.inputTokens = r.inputTokens ∧ q.outputTokens = r.outputTokens
  unknownCalls : t.unknownCalls r.id = 0
  cost : ExactPrices settings → r.estimatedCostUsd = some (t.knownCostUsd r.id)

/-- What the receipts of a query say: all known, none for the generation, and their cost. -/
theorem queried_known {settings : Settings} {qs : List UsageReceipt} {usage : Nat}
    (h : Receipts.Queried settings qs usage) :
    (∀ q ∈ qs, q.kind = .queryEmbedding ∧ q.inputTokens ≠ none) ∧
      (ExactPrices settings →
        (qs.map fun q => q.estimatedCostUsd.getD 0).sum = usage * settings.embeddingPrice / 1000000) := by
  rcases h with ⟨rfl, rfl⟩ | ⟨q, rfl, hc⟩
  · exact ⟨List.forall_mem_nil _, fun _ => by simp⟩
  · refine ⟨fun q' hq' => ?_, fun hp => ?_⟩
    · rw [List.mem_singleton.1 hq']
      exact ⟨hc.same, by rw [hc.inputTokens]; exact Option.some_ne_none _⟩
    · rw [List.map_singleton, List.sum_singleton, closed_cost hp hc]
      simp [Receipts.rates]

theorem reconciled_of_settled {t : Tables} {settings : Settings} {r : AnswerRun} {answer : AnswerResponse}
    (h : Receipts.Settled settings (t.receiptsOf r.id) answer) (hb : Chat.bill r = Chat.billOf answer) :
    Reconciled t settings r := by
  have hin : r.inputTokens = some answer.inputTokens := congrArg Prod.fst hb
  have hout : r.outputTokens = some answer.outputTokens := congrArg (·.2.1) hb
  have hcost : r.estimatedCostUsd =
      some (answer.estimatedGenerationCostUsd + answer.estimatedRetrievalCostUsd) := congrArg (·.2.2) hb
  have hunknown : (∀ q ∈ t.receiptsOf r.id, q.inputTokens ≠ none) → t.unknownCalls r.id = 0 := by
    intro hknown
    unfold Tables.unknownCalls
    rw [List.length_eq_zero_iff, List.filter_eq_nil_iff]
    intro q hq hu
    obtain ⟨hrun, hu⟩ := of_decide_eq_true hu
    exact hknown q (List.mem_filter.2 ⟨hq, decide_eq_true hrun⟩) hu
  have hsum : t.knownCostUsd r.id = ((t.receiptsOf r.id).map fun q => q.estimatedCostUsd.getD 0).sum := rfl
  cases h with
  | empty usage hq hr hi ho hg =>
    obtain ⟨hknown, hq⟩ := queried_known hq
    refine ⟨fun q hq => (hknown q hq).2, fun q hq hk => ?_, hunknown fun q hq => (hknown q hq).2, fun hp => ?_⟩
    · rw [(hknown q hq).1] at hk
      cases hk
    · rw [hcost, hsum, hq hp, hg, hr, zero_add]
  | generated usage qs' g hqs hq hr hc hg =>
    obtain ⟨hknown, hq⟩ := queried_known hq
    have hall : ∀ q ∈ t.receiptsOf r.id, q.inputTokens ≠ none := by
      intro q hm
      rw [hqs] at hm
      rcases List.mem_append.1 hm with hm | hm
      · exact (hknown q hm).2
      · rw [List.mem_singleton.1 hm, hc.inputTokens]
        exact Option.some_ne_none _
    refine ⟨hall, fun q hm hk => ?_, hunknown hall, fun hp => ?_⟩
    · rw [hqs] at hm
      rcases List.mem_append.1 hm with hm | hm
      · rw [(hknown q hm).1] at hk
        cases hk
      · rw [List.mem_singleton.1 hm, hc.inputTokens, hc.outputTokens, hin, hout]
        exact ⟨rfl, rfl⟩
    · rw [hcost, hsum, hqs, List.map_append, List.sum_append, hq hp, List.map_singleton, List.sum_singleton,
        closed_cost hp hc, hg, hr]
      unfold generationCost Receipts.rates
      rw [add_comm]

/-- The receipts of each completed run reconcile with the prices of the worker that published it. -/
theorem reconciled {s : System} (h : ChatInv env s) {r : AnswerRun} (hr : r ∈ s.chat.tables.runs)
    (hdone : r.status = .completed) {k : Runs.Worker} (hk : k ∈ s.chat.workers) (hid : k.runId = r.id) :
    Reconciled s.chat.tables k.settings r := by
  obtain ⟨k', hk', hid', call, answer, hpc, hb⟩ := h.receipts.paid r hr hdone
  cases h.runs.once.eq hk hk' (hid.trans hid'.symm)
  have ha := h.receipts.accounts k hk ⟨r, hr, hid.symm⟩
  rw [hpc, hid] at ha
  exact reconciled_of_settled ha hb

/-- Each call of a provider for a run is preceded by a receipt committed for it, of which there is one for
each kind; a receipt gets its usage once and nothing else is written with it; and the receipts of a
completed run are all finished and account for its tokens and its cost. -/
theorem receipts_account (env : Env) (acts more : List Action) :
    let s := run env acts
    let s' := (machine env).exec s more
    (∀ before runId kind after, s.chat.log = before ++ .called runId kind :: after →
        Chat.Committed before runId kind) ∧
      Table.Keyed (fun q : UsageReceipt => (q.runId, q.kind)) s.chat.tables.receipts ∧
      (∀ q ∈ s.chat.tables.receipts, q.inputTokens ≠ none →
        ∀ q' ∈ s'.chat.tables.receipts, q'.id = q.id → q' = q) ∧
      (∀ a, Chat.Finishes s.chat.tables (step env s a).chat.tables →
        Chat.OnlyReceipts s.chat.tables (step env s a).chat.tables) ∧
      ∀ r ∈ s.chat.tables.runs, r.status = .completed → ∀ k ∈ s.chat.workers, k.runId = r.id →
        Reconciled s.chat.tables k.settings r := by
  intro s s'
  have h : ChatInv env s := chatInv env acts
  have hl : ChatLater s s' := chatLater acts more
  refine ⟨h.calls.preceded, h.receipts.kinds, ?_, ?_, fun r hr hdone k hk hid => reconciled h hr hdone hk hid⟩
  · intro q hq hne q' hq' hid
    exact hl.receipts.of_mem h.receipts.keyed hq (h.receipts.ids q hq) hq' hid hne
  · intro a hfin
    obtain ⟨ids, hf, -, he⟩ := chatStep env s a
    exact (Chat.receipted h.runs hf he).onlyReceipts h.receipts.keyed hfin

/-! ### Submissions -/

/-- `sha256` has no collisions on what is hashed for a request. -/
def NoCollisions (env : Env) : Prop :=
  ∀ question mode question' mode',
    env.sha256 (Runs.fingerprintPayload question mode) = env.sha256 (Runs.fingerprintPayload question' mode') →
      Runs.fingerprintPayload question mode = Runs.fingerprintPayload question' mode'

theorem fingerprintPayload_inj {question question' : Text} {mode mode' : Mode}
    (h : Runs.fingerprintPayload question mode = Runs.fingerprintPayload question' mode') :
    question = question' ∧ mode = mode' := by
  have hobj := Json.dumps_injective .python h
  simp only [Json.obj.injEq, List.cons.injEq, Prod.mk.injEq, true_and, and_true, Json.str.injEq] at hobj
  refine ⟨hobj.2, ?_⟩
  cases mode <;> cases mode' <;> first | rfl | exact absurd hobj.1 (by decide)

/-- The run is bound to the key of the submission with another question or mode. -/
structure BoundTo (p : Runs.Submit) (r : AnswerRun) : Prop where
  conversation : r.conversationId = p.conversationId
  key : r.requestKey = p.request.requestKey
  other : r.question ≠ p.request.question ∨ r.mode ≠ p.request.mode

/-- The submission has not read the key yet, has crashed, or has failed with the conflict. -/
def Refusing : Runs.SubmitPc → Prop
  | .owned | .lock _ | .byKey _ | .aborted => True
  | .done result => result = .error (.app Runs.idempotencyConflict)
  | _ => False

theorem Refusing.not_ok {pc : Runs.SubmitPc} (h : Refusing pc) (run : AnswerRun) (created : Bool) :
    pc ≠ .done (.ok (run, created)) := by
  rintro rfl
  cases h

theorem refusing_step {now : Time} {p : Runs.Submit} {input : Runs.SubmitInput} {db : Db} {t t' : Tables}
    {pc' : Runs.SubmitPc} {r : AnswerRun} (hc : NoCollisions env)
    (hkeys : ∀ r ∈ t.runs, ∀ r' ∈ t.runs, r.conversationId = r'.conversationId → r.requestKey = r'.requestKey → r = r')
    (hash : r.requestHash = env.sha256 (Runs.fingerprintPayload r.question r.mode)) (hr : r ∈ t.runs)
    (hb : BoundTo p r) (ho : ∃ c, t.owned db p.userId p.conversationId = .ok c)
    (h : Runs.Submit.Effect env now p input db t pc' t') (hp : Refusing p.pc) : Refusing pc' ∧ t' = t := by
  cases h with
  | idle => exact ⟨hp, rfl⟩
  | aborted => exact ⟨trivial, rfl⟩
  | refused hin =>
    rcases hin with hin | hin
    · cases hpc : p.pc <;> rw [hpc] at hp hin <;> first | exact absurd hin id | exact absurd hp id
    · rw [hin] at hp
      exact absurd hp id
  | notOwned hpc he =>
    obtain ⟨c, ho⟩ := ho
    cases ho.symm.trans he
  | owned => exact ⟨trivial, rfl⟩
  | locked => exact ⟨trivial, rfl⟩
  | missed hpc hn =>
    have hno := List.find?_eq_none.1 hn r hr
    simp [hb.conversation, hb.key] at hno
  | advanced hin =>
    cases hpc : p.pc <;> rw [hpc] at hp hin <;> first | exact absurd hin id | exact absurd hp id
  | @replayed run hpc hf =>
    obtain ⟨hm, hconv, hkey⟩ := Runs.byKey_eq hf
    cases hkeys run hm r hr (hconv.trans hb.conversation.symm) (hkey.trans hb.key.symm)
    refine ⟨?_, rfl⟩
    unfold Runs.replay
    rw [if_pos, Refusing]
    intro heq
    rw [hash] at heq
    obtain ⟨hq, hm⟩ := fingerprintPayload_inj (hc _ _ _ _ heq)
    exact hb.other.elim (fun hne => hne hq) fun hne => hne hm
  | inserted hpc | lost hpc =>
    rw [hpc] at hp
    exact absurd hp id

/-- The conversation of the submission is there. -/
def Open (s : System) (p : Runs.Submit) : Prop := ∃ c ∈ s.chat.tables.conversations, c.id = p.conversationId

/-- Submission `i`, made by the owner of its conversation as `p₀`, whose key another request holds. -/
structure Conflicting (p₀ : Runs.Submit) (i : Nat) (s : System) : Prop where
  issued : p₀.conversationId ∈ s.world.issued
  owner : ∀ c ∈ s.chat.tables.conversations, c.id = p₀.conversationId → c.userId = p₀.userId
  bound : Open s p₀ → ∃ r ∈ s.chat.tables.runs, BoundTo p₀ r
  kept : ∃ pc, s.chat.submits[i]? = some { p₀ with pc := pc } ∧ (Open s p₀ → Refusing pc) ∧
    ∀ run created, pc ≠ .done (.ok (run, created))

theorem Conflicting.owned {p₀ : Runs.Submit} {i : Nat} {s : System} (h : Conflicting p₀ i s) (hs : ChatInv env s)
    (ho : Open s p₀) : ∃ c, s.chat.tables.owned s.jobs.db p₀.userId p₀.conversationId = .ok c := by
  obtain ⟨c, hc, hid⟩ := ho
  have huser := h.owner c hc hid
  unfold Tables.owned
  split
  · rename_i hnone
    have hno := List.find?_eq_none.1 hnone c hc
    have howns := hs.owners.conversations c hc
    rw [huser] at howns
    exact absurd (decide_eq_true ⟨hid, huser, howns⟩) hno
  · exact ⟨_, rfl⟩

/-- A step of the submission keeps it from success and writes nothing. -/
theorem Conflicting.submit_step {p₀ : Runs.Submit} {i : Nat} {s : System} (h : Conflicting p₀ i s) (hs : ChatInv env s)
    (hc : NoCollisions env) {pc pc' : Runs.SubmitPc} {input : Runs.SubmitInput} {t' : Tables}
    (hf : ∀ id, input = .insert id → ∀ r ∈ s.chat.tables.runs, r.id ≠ id)
    (hpc : Open s p₀ → Refusing pc) (hno : ∀ run created, pc ≠ .done (.ok (run, created)))
    (he : Runs.Submit.Effect env s.world.clock { p₀ with pc := pc } input s.jobs.db s.chat.tables pc' t') :
    (Open s p₀ → Refusing pc') ∧ (∀ run created, pc' ≠ .done (.ok (run, created))) ∧ t' = s.chat.tables := by
  by_cases ho : Open s p₀
  · obtain ⟨r, hr, hb⟩ := h.bound ho
    obtain ⟨hpc', ht⟩ := refusing_step (p := { p₀ with pc := pc }) hc hs.submissions.keys (hs.submissions.hashes r hr)
      hr ⟨hb.conversation, hb.key, hb.other⟩ (h.owned hs ho) he (hpc ho)
    exact ⟨fun _ => hpc', hpc'.not_ok, ht⟩
  · have hok : ∀ run created, pc' ≠ .done (.ok (run, created)) := by
      intro run created hd
      rcases he.succeeded hd with hsame | ⟨-, hm, hconv, -⟩ | ⟨-, source, history, runId, -, hin, rfl, hins⟩
      · exact hno run created (hsame.trans hd)
      · obtain ⟨c, hcm, hid⟩ := hs.conversations.runs run hm
        exact ho ⟨c, hcm, hid.trans hconv⟩
      · obtain ⟨hrej, -⟩ := Runs.insertRun_eq hs.runs.keyed (hf runId hin) (.inl rfl) hins
        exact hrej (.inl ho)
    refine ⟨fun ho' => absurd ho' ho, hok, ?_⟩
    cases he with
    | inserted => exact absurd rfl (hok _ _)
    | _ => rfl

theorem Conflicting.step {p₀ : Runs.Submit} {i : Nat} {s : System} (a : Action) (hs : ChatInv env s)
    (hc : NoCollisions env) (h : Conflicting p₀ i s) : Conflicting p₀ i (step env s a) := by
  obtain ⟨ids, hf, hw, he⟩ := chatStep env s a
  have hconv := Chat.conversed hs.runs hs.conversations (Chat.written hs.runs hf he)
  have hnew : p₀.conversationId ∉ ids := fun hid => hf _ hid h.issued
  have hopen : Open (System.step env s a) p₀ → Open s p₀ := by
    rintro ⟨c', hc', hid⟩
    rcases hconv.mem hc' with ⟨c, hcm, hcid, -⟩ | ⟨hnew', -⟩
    · exact ⟨c, hcm, hcid.trans hid⟩
    · exact absurd (hid ▸ hnew') hnew
  refine ⟨hw ▸ List.mem_append_left _ h.issued, fun c' hc' hid => ?_, fun ho => ?_, ?_⟩
  · rcases hconv.mem hc' with ⟨c, hcm, hcid, hu, -⟩ | ⟨hnew', -⟩
    · exact hu ▸ h.owner c hcm (hcid.trans hid)
    · exact absurd (hid ▸ hnew') hnew
  · obtain ⟨r, hr, hb⟩ := h.bound (hopen ho)
    rcases Chat.runs_stay hs.runs hs.conversations hf he hr with ⟨r', hr', hsame⟩ | hgone
    · exact ⟨r', hr', hsame.conversationId.trans hb.conversation, hsame.requestKey.trans hb.key,
        hsame.question ▸ hsame.mode ▸ hb.other⟩
    · obtain ⟨c', hc', hid⟩ := ho
      exact absurd (hid.trans hb.conversation.symm) (hgone c' hc')
  · obtain ⟨pc, hp, hpc, hno⟩ := h.kept
    obtain ⟨pc', hp', -⟩ := Chat.submits_kept he hp
    refine ⟨pc', hp', ?_⟩
    rcases Chat.submits_effect he hp' with howned | hold | ⟨p, input, pc'', hold, heq, -, hids, heff⟩
    · exact ⟨fun _ => by rw [show pc' = .owned from howned]; trivial, fun run created hd => by
        rw [show pc' = .owned from howned] at hd; cases hd⟩
    · cases hold.symm.trans hp
      exact ⟨fun ho => hpc (hopen ho), hno⟩
    · cases hold.symm.trans hp
      cases heq
      have hne : ∀ id, input = .insert id → ∀ r ∈ s.chat.tables.runs, r.id ≠ id := fun id hin r hr hid =>
        hf _ (hids id hin) (hid ▸ hs.runs.ids r hr)
      obtain ⟨hpc', hno', -⟩ := h.submit_step hs hc hne hpc hno heff
      exact ⟨fun ho => hpc' (hopen ho), hno'⟩

/-- While its conversation is there the submission can only fail with the conflict; it never succeeds, and
none of its steps writes anything. -/
structure Refused (env : Env) (s : System) (i : Nat) (p : Runs.Submit) : Prop where
  place : s.chat.submits[i]? = some p
  refusing : Open s p → Refusing p.pc
  never : ∀ run created, p.pc ≠ .done (.ok (run, created))
  unchanged : ∀ input, (∀ id, input = .insert id → id ∉ s.world.issued) →
    (p.step env s.world.clock input s.jobs.db s.chat.tables).2 = s.chat.tables

theorem Conflicting.refused {p₀ : Runs.Submit} {i : Nat} {s : System} (h : Conflicting p₀ i s) (hs : ChatInv env s)
    (hc : NoCollisions env) : ∃ pc, Refused env s i { p₀ with pc := pc } := by
  obtain ⟨pc, hp, hpc, hno⟩ := h.kept
  refine ⟨pc, hp, hpc, hno, fun input hfresh => ?_⟩
  have hne : ∀ id, input = .insert id → ∀ r ∈ s.chat.tables.runs, r.id ≠ id := fun id hin r hr hid =>
    hfresh id hin (hid ▸ hs.runs.ids r hr)
  exact (h.submit_step hs hc hne hpc hno (Runs.Submit.step_effect env _ { p₀ with pc := pc } input _ _)).2.2

theorem submits_stay (acts more : List Action) {i : Nat} {p : Runs.Submit} {result : Except Raised (AnswerRun × Bool)}
    (hp : (run env acts).chat.submits[i]? = some p) (hd : p.pc = .done result) :
    ((machine env).exec (run env acts) more).chat.submits[i]? = some p := by
  have hstep : ∀ (s : System) (a : Action), s.chat.submits[i]? = some p →
      (step env s a).chat.submits[i]? = some p := by
    intro s a hp
    obtain ⟨ids, -, -, he⟩ := chatStep env s a
    obtain ⟨pc', hp', hkept⟩ := Chat.submits_kept he hp
    rw [hp', hkept result hd, ← hd]
  exact Machine.exec_always (P := fun s : System => s.chat.submits[i]? = some p) hstep hp more

/-- The submission that made the run, and no other, reports that it created a run under the key. -/
def OnlyCreator (s : System) (conversationId requestKey runId : Uuid) : Prop :=
  ∃ (i : Nat) (q : Runs.Submit), s.chat.submits[i]? = some q ∧ q.Created conversationId requestKey runId ∧
    ∀ (j : Nat) (q' : Runs.Submit) runId', s.chat.submits[j]? = some q' →
      q'.Created conversationId requestKey runId' → j = i

theorem onlyCreator {s : System} (h : ChatInv env s) {q : Runs.Submit} (hq : q ∈ s.chat.submits)
    {conversationId requestKey runId : Uuid} (hc : q.Created conversationId requestKey runId) :
    OnlyCreator s conversationId requestKey runId := by
  obtain ⟨i, hi⟩ := List.mem_iff_getElem?.1 hq
  exact ⟨i, q, hi, hc, fun j q' runId' hj hc' => h.submissions.once j i q' q _ _ _ _ hj hi hc' hc⟩

theorem created_unique {s : System} (h : ChatInv env s) {p q : Runs.Submit} (hp : p ∈ s.chat.submits)
    (hq : q ∈ s.chat.submits) {conversationId requestKey runId runId' : Uuid}
    (hc : p.Created conversationId requestKey runId) (hc' : q.Created conversationId requestKey runId') :
    runId = runId' := by
  obtain ⟨i, hi⟩ := List.mem_iff_getElem?.1 hp
  obtain ⟨j, hj⟩ := List.mem_iff_getElem?.1 hq
  cases h.submissions.once i j p q _ _ _ _ hi hj hc hc'
  cases hi.symm.trans hj
  obtain ⟨-, -, run, hrun, rfl⟩ := hc
  obtain ⟨-, -, run', hrun', rfl⟩ := hc'
  cases hrun.symm.trans hrun'
  rfl

/-- There is ever one run for a request key of a conversation, and one active run; every submission that
succeeds returns the run of its key, which exactly one of them created; and a submission whose key is bound
to another request fails with the conflict and writes nothing. -/
theorem submissions_idempotent (env : Env) (acts more : List Action) :
    let s := run env acts
    let s' := (machine env).exec s more
    (∀ r ∈ s.chat.tables.runs, ∀ r' ∈ s'.chat.tables.runs, r'.conversationId = r.conversationId →
        r'.requestKey = r.requestKey → r'.id = r.id) ∧
      (∀ r ∈ s.chat.tables.runs, ∀ r' ∈ s.chat.tables.runs, r'.conversationId = r.conversationId →
        r.status.Active → r'.status.Active → r' = r) ∧
      (∀ p ∈ s.chat.submits, ∀ run created, p.pc = .done (.ok (run, created)) →
        OnlyCreator s p.conversationId p.request.requestKey run.id ∧
          ∀ r ∈ s.chat.tables.runs, r.conversationId = p.conversationId →
            r.requestKey = p.request.requestKey → r.id = run.id) ∧
      (NoCollisions env → ∀ i p, s.chat.submits[i]? = some p → p.pc = .owned →
        ∀ c ∈ s.chat.tables.conversations, c.id = p.conversationId → c.userId = p.userId →
          ∀ r ∈ s.chat.tables.runs, BoundTo p r → ∃ pc, Refused env s' i { p with pc := pc }) := by
  intro s s'
  have h : ChatInv env s := chatInv env acts
  have h' : ChatInv env s' := Machine.exec_always chatInv_step h more
  refine ⟨?_, ?_, ?_, ?_⟩
  · intro r hr r' hr' hconv hkey
    obtain ⟨p, hp, hc⟩ := h.submissions.creators r hr
    obtain ⟨q, hq, hc'⟩ := h'.submissions.creators r' hr'
    obtain ⟨i, hi⟩ := List.mem_iff_getElem?.1 hp
    obtain ⟨run, hd, -⟩ := hc.2.2
    rw [hconv, hkey] at hc'
    exact created_unique h' hq (List.mem_of_getElem? (submits_stay acts more hi hd)) hc' hc
  · exact fun r hr r' hr' hconv ha ha' => h.submissions.active r' hr' r hr hconv ha' ha
  · intro p hp run created hd
    obtain ⟨q, hq, hc⟩ := h.submissions.results p hp run created hd
    refine ⟨onlyCreator h hq hc, fun r hr hconv hkey => ?_⟩
    obtain ⟨q', hq', hc'⟩ := h.submissions.creators r hr
    rw [hconv, hkey] at hc'
    exact created_unique h hq' hq hc' hc
  · intro hcol i p hp hpc c hc hcid hcu r hr hb
    have howned : p = { p with pc := .owned } := by rw [← hpc]
    have hstart : Conflicting p i s := by
      refine ⟨hcid ▸ h.conversations.ids c hc, fun c' hc' hid => ?_, fun _ => ⟨r, hr, hb⟩, .owned, howned ▸ hp,
        fun _ => trivial, fun run created hd => by cases hd⟩
      cases h.conversations.keyed.eq hc' hc (hid.trans hcid.symm)
      exact hcu
    have hend : ChatInv env s' ∧ Conflicting p i s' :=
      Machine.exec_always (P := fun s => ChatInv env s ∧ Conflicting p i s)
        (fun s a hs => ⟨chatInv_step s a hs.1, hs.2.step a hs.1 hcol⟩) ⟨h, hstart⟩ more
    exact hend.2.refused hend.1 hcol

/-- Another question is submitted under the key of a run. -/
def conflicting : List Action := asking ++ [.chat (.submit offline 0 10 11 ['q'] .keyword)]

theorem submissions_idempotent_conflict :
    ∃ p, (run characters conflicting).chat.submits[1]? = some p ∧ p.request = ⟨11, ['q'], .keyword⟩ ∧
      ∀ more, ∃ pc, Refused characters ((machine characters).exec (run characters conflicting) more) 1
        { p with pc := pc } := by
  have hv : AnswerRequest.validate characters ['q'] .keyword = some ⟨['q'], .keyword⟩ := by rfl
  have hlast : (run characters conflicting).chat.submits = (run characters asking).chat.submits ++
      [⟨offline, 0, 10, ⟨11, ['q'], .keyword⟩, .owned⟩] := by
    unfold run conflicting
    rw [Machine.run_append]
    simp [machine, step, Fresh, Chat.Action.ids, Chat.step, hv]
  have hone : (run characters asking).chat.submits.length = 1 := by decide +kernel
  have hp : (run characters conflicting).chat.submits[1]? =
      some ⟨offline, 0, 10, ⟨11, ['q'], .keyword⟩, .owned⟩ := by
    rw [hlast, ← hone, List.getElem?_concat_length]
  obtain ⟨c, hc, hid, huser⟩ : ∃ c ∈ (run characters conflicting).chat.tables.conversations,
      c.id = 10 ∧ c.userId = 0 := by
    decide +kernel
  obtain ⟨r, hr, hconv, hkey, hother⟩ : ∃ r ∈ (run characters conflicting).chat.tables.runs,
      r.conversationId = 10 ∧ r.requestKey = 11 ∧ r.question ≠ ['q'] := by
    decide +kernel
  refine ⟨_, hp, rfl, fun more => ?_⟩
  exact (submissions_idempotent characters conflicting more).2.2.2 (fun _ _ _ _ h => h) 1 _ hp rfl c hc hid huser r hr
    ⟨hconv, hkey, .inl hother⟩

end System
end RepoPilot
