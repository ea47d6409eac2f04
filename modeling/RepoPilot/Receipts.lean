import RepoPilot.Calls

/-! # The receipts of a run

What the receipts of a run say at each point of its worker, and that the two ways of computing its cost
agree. -/

namespace RepoPilot
open Generation

namespace Tables
variable {now : Time} {t t' : Tables}

def receiptsOf (t : Tables) (runId : Uuid) : List UsageReceipt := t.receipts.filter (·.runId = runId)

theorem receiptsOf_congr (h : t'.receipts = t.receipts) (runId : Uuid) : t'.receiptsOf runId = t.receiptsOf runId := by
  unfold receiptsOf
  rw [h]

theorem transition_receipts {p : AnswerRun → Prop} [DecidablePred p] {f : AnswerRun → AnswerRun}
    (hk : Table.Keyed (·.id) t.runs) (hid : ∀ r ∈ t.runs, p r → (f r).id = r.id) :
    (t.transition now p f).receipts = t.receipts :=
  (transitioned now hk hid).receipts

theorem receiptsOf_append {q : UsageReceipt} (h : t'.receipts = t.receipts ++ [q]) (runId : Uuid) :
    t'.receiptsOf runId = t.receiptsOf runId ++ if q.runId = runId then [q] else [] := by
  unfold receiptsOf
  rw [h, List.filter_append, List.filter_singleton]
  simp only [Bool.cond_decide]

theorem receiptsOf_update {receiptId : Uuid} {i o : Nat}
    (h : t'.receipts = Table.update (Open receiptId) (recorded now i o) t.receipts) (runId : Uuid) :
    t'.receiptsOf runId = Table.update (Open receiptId) (recorded now i o) (t.receiptsOf runId) := by
  have hkeep : ∀ q ∈ t.receipts, Open receiptId q →
      decide ((recorded now i o q).runId = runId) = decide (q.runId = runId) := fun _ _ _ => rfl
  unfold receiptsOf
  rw [h]
  exact Table.filter_update hkeep

/-- The receipts of other runs are not touched. -/
theorem receiptsOf_update_of_ne {receiptId : Uuid} {i o : Nat} {runId : Uuid}
    (h : t'.receipts = Table.update (Open receiptId) (recorded now i o) t.receipts)
    (hq : ∀ q ∈ t.receipts, q.id = receiptId → q.runId ≠ runId) : t'.receiptsOf runId = t.receiptsOf runId := by
  rw [receiptsOf_update h, Table.update_of_none]
  intro q hm ho
  obtain ⟨hm, hrun⟩ := List.mem_filter.1 hm
  exact hq q hm ho.1 (of_decide_eq_true hrun)

end Tables

/-! ### Accounts -/

namespace Receipts
open Tables

/-- The prices of a call of this kind, per million tokens. -/
def rates (settings : Settings) : ReceiptKind → ℚ × ℚ
  | .queryEmbedding => (settings.embeddingPrice, 0)
  | .generation => (settings.answerInputPrice, settings.answerOutputPrice)

/-- A receipt before the usage of its call is known. -/
structure Opened (settings : Settings) (kind : ReceiptKind) (q : UsageReceipt) : Prop where
  same : q.kind = kind
  inputRate : q.inputRate = roundTo 8 (rates settings kind).1
  outputRate : q.outputRate = roundTo 8 (rates settings kind).2
  inputTokens : q.inputTokens = none

/-- A receipt with the usage of its call. -/
structure Closed (settings : Settings) (kind : ReceiptKind) (i o : Nat) (q : UsageReceipt) : Prop where
  same : q.kind = kind
  inputTokens : q.inputTokens = some i
  outputTokens : q.outputTokens = some o
  cost : q.estimatedCostUsd = some (roundTo 12
    ((i * roundTo 8 (rates settings kind).1 + o * roundTo 8 (rates settings kind).2) / 1000000))

theorem Opened.closed {settings : Settings} {kind : ReceiptKind} {q : UsageReceipt} (h : Opened settings kind q)
    (now : Time) (i o : Nat) : Closed settings kind i o (recorded now i o q) := by
  refine ⟨h.same, rfl, rfl, ?_⟩
  unfold recorded receiptCost
  rw [h.inputRate, h.outputRate]

/-- The receipts of a run whose query was embedded with `usage` tokens, or not at all. -/
def Queried (settings : Settings) (qs : List UsageReceipt) (usage : Nat) : Prop :=
  qs = [] ∧ usage = 0 ∨ ∃ q, qs = [q] ∧ Closed settings .queryEmbedding usage 0 q

/-- The receipts of a run that has retrieved its sources. -/
structure Billed (settings : Settings) (qs : List UsageReceipt) (retrieved : Retrieved) : Prop where
  queried : Queried settings qs retrieved.queryTokens
  cost : retrieved.estimatedQueryCostUsd = retrieved.queryTokens * settings.embeddingPrice / 1000000

/-- The receipts of a run that has called the answer model. -/
def Generating (settings : Settings) (qs : List UsageReceipt) (retrieved : Retrieved) (receipt : Option Uuid) : Prop :=
  ∃ qs' g, qs = qs' ++ [g] ∧ Billed settings qs' retrieved ∧ receipt = some g.id ∧ Opened settings .generation g

/-- The receipts of a run that has its answer. -/
inductive Settled (settings : Settings) (qs : List UsageReceipt) (answer : AnswerResponse) : Prop
  | empty (usage : Nat) (hq : Queried settings qs usage)
    (hr : answer.estimatedRetrievalCostUsd = usage * settings.embeddingPrice / 1000000)
    (hi : answer.inputTokens = 0) (ho : answer.outputTokens = 0) (hg : answer.estimatedGenerationCostUsd = 0)
  | generated (usage : Nat) (qs' : List UsageReceipt) (g : UsageReceipt) (hqs : qs = qs' ++ [g])
    (hq : Queried settings qs' usage)
    (hr : answer.estimatedRetrievalCostUsd = usage * settings.embeddingPrice / 1000000)
    (hc : Closed settings .generation answer.inputTokens answer.outputTokens g)
    (hg : answer.estimatedGenerationCostUsd = generationCost settings answer.inputTokens answer.outputTokens)

end Receipts

namespace Answers
open Receipts Tables

/-- What the receipts `qs` of the run say when the process is at `pc`. -/
def Pc.Accounts (settings : Settings) (qs : List UsageReceipt) : Pc → Prop
  | .authorize | .source _ | .index _ _ | .active _ _ | .fallback _ _ | .quota _ | .lexical _ | .symbols _ _
  | .beginEmbedding _ _ _ => qs = []
  | .embed _ _ _ receipt | .embedding _ _ _ receipt | .finishEmbedding _ _ _ receipt _ =>
    ∃ q, qs = [q] ∧ receipt = some q.id ∧ Opened settings .queryEmbedding q
  | .vector _ _ _ usage | .load _ _ usage => Queried settings qs usage
  | .beginGeneration retrieved _ _ _ => Billed settings qs retrieved
  | .generate retrieved _ _ receipt | .generating retrieved _ receipt _ | .finishGeneration retrieved _ receipt _ =>
    Generating settings qs retrieved receipt
  | .answered answer => Settled settings qs answer
  | .recordUsage _ _ _ _ | .raised _ => True

variable {env : Env} {now : Time} {c : Call} {input : Input} {pc pc' : Pc} {db : Db} {t t' : Tables}

theorem Pc.Raising.accounts {settings : Settings} {qs : List UsageReceipt} (h : pc.Raising) :
    pc.Accounts settings qs := by
  cases pc <;> trivial

/-- A receipt that is begun is the last of its run. -/
theorem beginReceipt_opened (kind : ReceiptKind) {runId token : Uuid} (hrun : c.run = some (runId, token))
    {model : Text} {receipt : Option Uuid}
    (h : beginReceipt now c input kind model (rates c.settings kind).1 (rates c.settings kind).2 t =
      some (.ok (receipt, t'))) :
    ∃ q, t'.receiptsOf runId = t.receiptsOf runId ++ [q] ∧ receipt = some q.id ∧ Opened c.settings kind q := by
  rcases beginReceipt_eq h with ⟨hnone, -⟩ | ⟨runId', token', id, hsome, -, hreceipt, hb⟩
  · rw [hrun] at hnone
    cases hnone
  · rw [hrun] at hsome
    cases hsome
    obtain ⟨-, -, rfl⟩ := begin_eq hb
    refine ⟨⟨id, runId, kind, model, roundTo 8 (rates c.settings kind).1, roundTo 8 (rates c.settings kind).2, none,
      none, none, now, none⟩, ?_, hreceipt, rfl, rfl, rfl, rfl⟩
    rw [receiptsOf_append rfl, if_pos rfl]

/-- Finishing the last receipt of a run closes it, and leaves the others. -/
theorem finishReceipt_closed (qs : List UsageReceipt) {settings : Settings} {kind : ReceiptKind} {runId : Uuid}
    {q : UsageReceipt} {i o : Int} (hk : Table.Keyed (·.id) t.receipts) (hqs : t.receiptsOf runId = qs ++ [q])
    (hq : Opened settings kind q) (h : finishReceipt now (some q.id) i o t = .ok t') :
    ∃ q', t'.receiptsOf runId = qs ++ [q'] ∧ Closed settings kind i.toNat o.toNat q' := by
  obtain ⟨-, -, rfl⟩ := finish_eq h
  refine ⟨recorded now i.toNat o.toNat q, ?_, hq.closed now _ _⟩
  have hk' : Table.Keyed (·.id) (t.receiptsOf runId) := hk.filter _
  rw [receiptsOf_update rfl, hqs]
  rw [hqs] at hk'
  unfold Table.update
  rw [List.map_append, List.map_singleton, if_pos ⟨rfl, hq.inputTokens⟩]
  congr 1
  refine (List.map_congr_left fun p hp => ?_).trans (List.map_id _)
  rw [if_neg, id]
  rintro ⟨hid, -⟩
  have hpq : p = q := hk'.eq (List.mem_append_left _ hp) (List.mem_append_right _ (List.mem_singleton_self q)) hid
  unfold Table.Keyed at hk'
  rw [List.map_append, List.nodup_append] at hk'
  exact hk'.2.2 p.id (List.mem_map_of_mem hp) q.id (List.mem_singleton_self _) hid

theorem respond_settled_empty {settings : Settings} {qs : List UsageReceipt} {answerId : Uuid} {retrieved : Retrieved}
    {history included : List HistoryTurn} {answer : AnswerResponse} (hb : Billed settings qs retrieved)
    (h : respond env settings answerId retrieved none history included = some answer) : Settled settings qs answer := by
  unfold respond at h
  split at h
  · cases h
    exact .empty _ hb.queried hb.cost rfl rfl rfl
  · cases h

theorem respond_settled_generated {settings : Settings} {qs : List UsageReceipt} {g : UsageReceipt} {answerId : Uuid}
    {retrieved : Retrieved} {result : GenerationResult} {history included : List HistoryTurn} {answer : AnswerResponse}
    (hb : Billed settings qs retrieved) (hg : Closed settings .generation result.inputTokens result.outputTokens g)
    (h : respond env settings answerId retrieved (some result) history included = some answer) :
    Settled settings (qs ++ [g]) answer := by
  unfold respond at h
  split at h
  · cases h
    exact .generated _ qs g rfl hb.queried hb.cost hg rfl
  · cases h

/-- Every step keeps the account of its run. -/
theorem Effect.accounts (h : Effect env now c input pc db t pc' t') {runId token : Uuid}
    (hrun : c.run = some (runId, token)) (hk : Table.Keyed (·.id) t.receipts)
    (ha : pc.Accounts c.settings (t.receiptsOf runId)) : pc'.Accounts c.settings (t'.receiptsOf runId) := by
  cases h with
  | idle => exact ha
  | raised h => exact h.accounts
  | authorized hpc | sourced hpc | indexed hpc | fell hpc | admitted hpc | lexical hpc => subst hpc; exact ha
  | planned hpc => rcases hpc with rfl | rfl <;> exact ha
  | selected hpc h =>
    subst hpc
    cases h with
    | raised h => exact h.accounts
    | keyword => exact .inl ⟨ha, rfl⟩
    | hybrid => exact ha
  | beganEmbedding hpc h =>
    subst hpc
    obtain ⟨q, hqs, hid, hq⟩ := beginReceipt_opened .queryEmbedding hrun h
    rw [show t.receiptsOf runId = [] from ha] at hqs
    exact ⟨q, hqs, hid, hq⟩
  | calledEmbed hpc | embedded hpc => subst hpc; exact ha
  | failedCall | recorded => exact trivial
  | finishedEmbedding hpc hf h =>
    subst hpc
    obtain ⟨q, hqs, rfl, hq⟩ := ha
    obtain ⟨q', hqs', hc⟩ := finishReceipt_closed [] hk hqs hq hf
    cases h with
    | raised h => exact h.accounts
    | used query husage =>
      rw [husage] at hc
      exact .inr ⟨q', hqs', hc⟩
  | vectored hpc => subst hpc; exact ha
  | loaded hpc hf h =>
    subst hpc
    have hb : ∀ plan found usage, Queried c.settings (t.receiptsOf runId) usage →
        Billed c.settings (t.receiptsOf runId) (retrievedOf env c plan found usage) := fun _ _ _ hq => ⟨hq, rfl⟩
    cases h with
    | raised h => exact h.accounts
    | empty hs h => exact respond_settled_empty (hb _ _ _ ha) h
    | found => exact hb _ _ _ ha
  | beganGeneration hpc h =>
    subst hpc
    obtain ⟨q, hqs, hid, hq⟩ := beginReceipt_opened .generation hrun h
    exact ⟨_, q, hqs, ha, hid, hq⟩
  | calledGenerate hpc | streamed hpc | generated hpc => subst hpc; exact ha
  | previewed hpc => subst hpc; exact ha
  | finishedGeneration hpc hf h =>
    subst hpc
    obtain ⟨qs, g, hqs, hb, rfl, hg⟩ := ha
    obtain ⟨g', hqs', hc⟩ := finishReceipt_closed _ hk hqs hg hf
    rw [hqs']
    cases h with
    | raised h => exact h.accounts
    | answered hcited h => exact respond_settled_generated hb hc h

/-- A receipt that a process holds was just begun, or was held before. -/
theorem Effect.receipt (h : Effect env now c input pc db t pc' t') {runId token : Uuid}
    (hrun : c.run = some (runId, token)) {id : Uuid} (hid : pc'.receipt = some id) :
    pc.receipt = some id ∨ input = .receipt id ∧ ∃ kind model i o,
      t.begin now runId token id kind model i o = .ok t' := by
  have hbegin : ∀ {k : ReceiptKind} {model : Text} {i o : ℚ},
      beginReceipt now c input k model i o t = some (.ok (some id, t')) →
        input = .receipt id ∧ ∃ kind model i o, t.begin now runId token id kind model i o = .ok t' := by
    intro k model i o h
    rcases beginReceipt_eq h with ⟨-, hnone, -⟩ | ⟨runId', token', id', hsome, hin, hr, hb⟩
    · cases hnone
    · rw [hrun] at hsome
      cases hsome
      cases hr
      exact ⟨hin, _, _, _, _, hb⟩
  cases h with
  | idle => exact .inl hid
  | raised h =>
    rw [h.receipt] at hid
    cases hid
  | selected hpc h => cases h with
    | raised h =>
      rw [h.receipt] at hid
      cases hid
    | _ => cases hid
  | beganEmbedding hpc h =>
    cases hid
    exact .inr (hbegin h)
  | beganGeneration hpc h =>
    cases hid
    exact .inr (hbegin h)
  | calledEmbed hpc | embedded hpc | calledGenerate hpc | streamed hpc | generated hpc => subst hpc; exact .inl hid
  | previewed hpc => subst hpc; exact .inl hid
  | failedCall hpc => rcases hpc with ⟨_, _, _, rfl⟩ | ⟨_, _, _, rfl⟩ <;> exact .inl hid
  | finishedEmbedding hpc hf h => cases h with
    | raised h =>
      rw [h.receipt] at hid
      cases hid
    | _ => cases hid
  | loaded hpc hf h => cases h with
    | raised h =>
      rw [h.receipt] at hid
      cases hid
    | _ => cases hid
  | finishedGeneration hpc hf h => cases h with
    | raised h =>
      rw [h.receipt] at hid
      cases hid
    | _ => cases hid
  | _ => cases hid

end Answers

namespace Runs
open Receipts Tables

/-- The receipt that a worker holds. -/
def Pc.receipt : Pc → Option Uuid
  | .answering _ _ _ pc => pc.receipt
  | _ => none

/-- What the receipts `qs` of the run say when its worker is at `pc`. -/
def Pc.Accounts (settings : Settings) (qs : List UsageReceipt) : Pc → Prop
  | .load => qs = []
  | .answering _ _ _ pc => pc.Accounts settings qs
  | .publish _ _ _ answer | .published _ answer => Settled settings qs answer
  | .failing _ _ | .done => True

/-- As long as its run exists, the receipts of a worker say what it did. -/
def Worker.Accounts (t : Tables) (k : Worker) : Prop :=
  (∃ r ∈ t.runs, r.id = k.runId) → k.pc.Accounts k.settings (t.receiptsOf k.runId)

variable {env : Env} {now : Time} {k : Worker} {input : Answers.Input} {db : Db} {t t' : Tables} {pc' : Pc}

theorem Pc.Ending.accounts {settings : Settings} {qs : List UsageReceipt} {pc : Pc} (h : pc.Ending) :
    pc.Accounts settings qs := by
  cases pc <;> trivial

theorem Pc.Ending.receipt {pc : Pc} (h : pc.Ending) : pc.receipt = none := by
  cases pc <;> first | rfl | exact absurd h id

theorem resume_accounts {settings : Settings} {qs : List UsageReceipt} {conversationId : Uuid} {question : Text}
    {call : Call} {pc : Answers.Pc} (h : pc.Accounts settings qs) :
    (Pc.resume conversationId question call pc).Accounts settings qs := by
  cases pc with
  | raised e => cases e <;> exact trivial
  | _ => exact h

theorem resume_receipt {conversationId : Uuid} {question : Text} {call : Call} {pc : Answers.Pc} {id : Uuid}
    (h : (Pc.resume conversationId question call pc).receipt = some id) : pc.receipt = some id := by
  cases pc with
  | answered answer => cases h
  | raised e => cases e <;> cases h
  | _ => exact h

/-- What a step of a worker does to the receipts. -/
inductive Receipted (now : Time) (k : Worker) (input : Answers.Input) (t t' : Tables) : Prop
  | kept (h : t'.receipts = t.receipts)
  | began {id : Uuid} {kind : ReceiptKind} {model : Text} {i o : ℚ} (hin : input = .receipt id)
    (h : t.begin now k.runId k.token id kind model i o = .ok t')
  | finished {id : Uuid} {i o : Nat} (hid : k.pc.receipt = some id)
    (h : t' = { t with receipts := Table.update (Open id) (recorded now i o) t.receipts })

theorem Worker.Effect.receipted (h : Worker.Effect env now k input db t pc' t') (hs : k.Serves t)
    (hk : Table.Keyed (·.id) t.runs) : Receipted now k input t t' := by
  cases h with
  | idle | ending | loaded => exact .kept rfl
  | answering hpc h =>
    unfold Worker.Serves at hs
    rw [hpc] at hs
    cases h.writes with
    | none | previewed => exact .kept rfl
    | began hrun hin hb =>
      rw [hs.1.run] at hrun
      cases hrun
      exact .began hin hb
    | finished hr hf =>
      obtain ⟨-, -, rfl⟩ := finish_eq hf
      refine .finished ?_ rfl
      rw [hpc]
      exact hr
  | published hpc h =>
    obtain ⟨run, -, -, c, -, -, ht⟩ := publish_eq hk h
    exact .kept ht.receipts
  | failed => exact .kept (transition_receipts hk fun _ _ _ => rfl)

/-- The receipts of other runs are not touched. -/
theorem Receipted.others (h : Receipted now k input t t')
    (hheld : ∀ id, k.pc.receipt = some id → ∀ q ∈ t.receipts, q.id = id → q.runId = k.runId) {runId : Uuid}
    (hne : runId ≠ k.runId) : t'.receiptsOf runId = t.receiptsOf runId := by
  cases h with
  | kept h => exact receiptsOf_congr h runId
  | began hin h =>
    obtain ⟨-, -, rfl⟩ := begin_eq h
    rw [receiptsOf_append rfl, if_neg fun he => hne he.symm, List.append_nil]
  | finished hid h =>
    refine receiptsOf_update_of_ne (congrArg Tables.receipts h) fun q hq he => ?_
    rw [hheld _ hid q hq he]
    exact fun he => hne he.symm

/-- A worker keeps its account. -/
theorem Worker.Effect.accounts (h : Worker.Effect env now k input db t pc' t') (hs : k.Serves t)
    (hk : Table.Keyed (·.id) t.runs) (hr : Table.Keyed (·.id) t.receipts)
    (ha : k.pc.Accounts k.settings (t.receiptsOf k.runId)) :
    pc'.Accounts k.settings (t'.receiptsOf k.runId) := by
  cases h with
  | idle => exact ha
  | ending h => exact h.accounts
  | loaded hpc =>
    rw [hpc] at ha
    exact ha
  | answering hpc h =>
    unfold Worker.Serves at hs
    rw [hpc] at hs ha
    have hset := hs.1.settings
    have hstep := h.accounts hs.1.run hr (hset.symm ▸ ha)
    rw [hset] at hstep
    exact resume_accounts hstep
  | published hpc h =>
    rw [hpc] at ha
    obtain ⟨run, -, -, c, -, -, ht⟩ := publish_eq hk h
    rw [receiptsOf_congr ht.receipts]
    exact ha
  | failed => exact trivial

/-- A receipt that a worker holds was just begun, or was held before. -/
theorem Worker.Effect.receipt (h : Worker.Effect env now k input db t pc' t') (hs : k.Serves t) {id : Uuid}
    (hid : pc'.receipt = some id) :
    k.pc.receipt = some id ∨
      input = .receipt id ∧ ∃ kind model i o, t.begin now k.runId k.token id kind model i o = .ok t' := by
  cases h with
  | idle => exact .inl hid
  | ending h =>
    rw [h.receipt] at hid
    cases hid
  | answering hpc h =>
    unfold Worker.Serves at hs
    rw [hpc] at hs
    rw [hpc]
    exact h.receipt hs.1.run (resume_receipt hid)
  | loaded | published | failed => cases hid

end Runs

namespace Chat
open Receipts Tables
variable {env : Env} {now : Time} {ids : List Uuid} {db : Db} {w w' : World} {s : Chat} {t' : Tables}
  {as' : List Ask} {sb' : List Runs.Submit} {ws' : List Runs.Worker} {log' : List Entry}

structure ReceiptInv (w : World) (s : Chat) : Prop where
  keyed : Table.Keyed (·.id) s.tables.receipts
  ids : ∀ q ∈ s.tables.receipts, q.id ∈ w.issued
  kinds : Table.Keyed (fun q => (q.runId, q.kind)) s.tables.receipts
  owners : ∀ q ∈ s.tables.receipts, Claimed s.workers q.runId
  held : ∀ k ∈ s.workers, ∀ id, k.pc.receipt = some id →
    id ∈ w.issued ∧ ∀ q ∈ s.tables.receipts, q.id = id → q.runId = k.runId
  accounts : ∀ k ∈ s.workers, k.Accounts s.tables
  paid : ∀ r ∈ s.tables.runs, r.status = .completed →
    ∃ k ∈ s.workers, k.runId = r.id ∧ ∃ call answer, k.pc = .published call answer ∧ bill r = billOf answer

/-- What an action does to the receipts. -/
inductive Receipted (now : Time) (ids : List Uuid) (s : Chat) (t' : Tables) : Prop
  | kept (h : t'.receipts = s.tables.receipts)
  | began {q : UsageReceipt} (hid : q.id ∈ ids) (hc : Claimed s.workers q.runId)
    (hnew : ∀ p ∈ s.tables.receipts, p.runId = q.runId → p.kind ≠ q.kind) (hopen : q.inputTokens = none)
    (h : t'.receipts = s.tables.receipts ++ [q])
  | finished {id : Uuid} {i o : Nat}
    (h : t' = { s.tables with receipts := Table.update (Open id) (recorded now i o) s.tables.receipts })
  | removed (p : Conversation → Bool) (h : t' = s.tables.deleteConversations p)

theorem receipted (hi : RunInv w s) (hf : ∀ i ∈ ids, i ∉ w.issued) (h : Effect env now ids db s t' as' sb' ws' log') :
    Receipted now ids s t' := by
  cases h with
  | same | stamped | created | asking | submitting => exact .kept rfl
  | claimed hid hpc hr => exact .kept (transition_receipts hi.keyed fun _ _ _ => rfl)
  | @worked _ k _ _ _ hk hids h =>
    have hkm := Table.mem_of_getElem? hk
    cases h.receipted (hi.workers k hkm) hi.keyed with
    | kept h => exact .kept h
    | began hin h =>
      obtain ⟨-, hnew, rfl⟩ := begin_eq h
      exact .began (q := ⟨_, _, _, _, _, _, _, _, _, _, _⟩) (hids _ hin) (List.mem_map.2 ⟨k, hkm, rfl⟩) hnew rfl rfl
    | finished hid h => exact .finished h
  | stopped hm => exact .kept (transition_receipts hi.keyed fun r hr hp => (hm r hr hp).same.id)
  | removed p => exact .removed p rfl
  | submitted hp hids _ h =>
    cases h with
    | @inserted _ _ runId _ hpc hin h =>
      have hne : ∀ r ∈ s.tables.runs, r.id ≠ runId := fun r hr he => hf _ (hids _ hin) (he ▸ hi.ids r hr)
      obtain ⟨-, rfl⟩ := Runs.insertRun_eq hi.keyed hne (.inl rfl) h
      exact .kept rfl
    | _ => exact .kept rfl
  | asked hp h =>
    cases h with
    | idle | ended | began => exact .kept rfl
    | answering hpc h =>
      obtain ⟨-, rfl⟩ := h.of_none rfl ((hi.asks _ (Table.mem_of_getElem? hp)).receipt hpc).1
      exact .kept rfl
    | appended hpc h =>
      obtain ⟨c, -, -, rfl⟩ := appendPair_eq h
      exact .kept rfl

theorem receiptsOf_deleteConversations (p : Conversation → Bool) {t : Tables} (hk : Table.Keyed (·.id) t.runs)
    {r' : AnswerRun} (hr' : r' ∈ (t.deleteConversations p).runs) :
    (t.deleteConversations p).receiptsOf r'.id = t.receiptsOf r'.id :=
  kept_deleteConversations p hk hr' UsageReceipt.runId t.receipts

theorem mem_receipts_deleteConversations {p : Conversation → Bool} {t : Tables} {q : UsageReceipt}
    (h : q ∈ (t.deleteConversations p).receipts) : q ∈ t.receipts := List.mem_of_mem_filter h

/-- A row of the later table: an old one, an old one with its usage, or the new one. -/
theorem Receipted.mem (h : Receipted now ids s t') {q' : UsageReceipt} (hq' : q' ∈ t'.receipts) :
    (∃ q ∈ s.tables.receipts, q.id = q'.id ∧ q.runId = q'.runId ∧ q.kind = q'.kind ∧
      (q.inputTokens ≠ none → q' = q)) ∨
    q'.id ∈ ids ∧ Claimed s.workers q'.runId := by
  cases h with
  | kept h => exact .inl ⟨q', h ▸ hq', rfl, rfl, rfl, fun _ => rfl⟩
  | began hid hc hnew hopen h =>
    rw [h] at hq'
    rcases List.mem_append.1 hq' with hq' | hq'
    · exact .inl ⟨q', hq', rfl, rfl, rfl, fun _ => rfl⟩
    · rw [List.mem_singleton.1 hq']
      exact .inr ⟨hid, hc⟩
  | finished h =>
    rw [h] at hq'
    obtain ⟨q, hq, rfl⟩ := Table.mem_update.1 hq'
    refine .inl ⟨q, hq, ?_⟩
    split
    · rename_i ho
      exact ⟨rfl, rfl, rfl, fun hne => absurd ho.2 hne⟩
    · exact ⟨rfl, rfl, rfl, fun _ => rfl⟩
  | removed p h =>
    rw [h] at hq'
    exact .inl ⟨q', mem_receipts_deleteConversations hq', rfl, rfl, rfl, fun _ => rfl⟩

/-- A receipt that was open has got its usage. -/
def Finishes (t t' : Tables) : Prop :=
  ∃ q ∈ t.receipts, q.inputTokens = none ∧ ∃ q' ∈ t'.receipts, q'.id = q.id ∧ q'.inputTokens ≠ none

/-- Nothing but receipts and previews was written. -/
structure OnlyReceipts (t t' : Tables) : Prop where
  runs : t'.runs = t.runs
  events : t'.events = t.events
  messages : t'.messages = t.messages

theorem Receipted.onlyReceipts (h : Receipted now ids s t') (hk : Table.Keyed (·.id) s.tables.receipts)
    (hfin : Finishes s.tables t') : OnlyReceipts s.tables t' := by
  obtain ⟨q, hq, hnone, q', hq', hid, hsome⟩ := hfin
  have hno : q' ∉ s.tables.receipts := by
    intro hold
    rw [hk.eq hold hq hid] at hsome
    exact hsome hnone
  cases h with
  | kept h => exact absurd (h ▸ hq') hno
  | began hid hc hnew hopen h =>
    rw [h] at hq'
    rcases List.mem_append.1 hq' with hq' | hq'
    · exact absurd hq' hno
    · rw [List.mem_singleton.1 hq'] at hsome
      exact absurd hopen hsome
  | finished h =>
    rw [h]
    exact ⟨rfl, rfl, rfl⟩
  | removed p h =>
    rw [h] at hq'
    exact absurd (mem_receipts_deleteConversations hq') hno

theorem Receipted.keyed (hi : ReceiptInv w s) (hf : ∀ i ∈ ids, i ∉ w.issued) (h : Receipted now ids s t') :
    Table.Keyed (·.id) t'.receipts ∧ Table.Keyed (fun q => (q.runId, q.kind)) t'.receipts := by
  cases h with
  | kept h =>
    rw [h]
    exact ⟨hi.keyed, hi.kinds⟩
  | began hid hc hnew hopen h =>
    rw [h]
    refine ⟨hi.keyed.insert fun q hq he => hf _ hid (he ▸ hi.ids q hq), hi.kinds.insert fun q hq he => ?_⟩
    exact hnew q hq (Prod.mk.inj he).1 (Prod.mk.inj he).2
  | finished h =>
    rw [h]
    exact ⟨hi.keyed.update fun _ _ _ => rfl, hi.kinds.update fun _ _ _ => rfl⟩
  | removed p h =>
    rw [h]
    exact ⟨hi.keyed.filter _, hi.kinds.filter _⟩

theorem claimed_effect (h : Effect env now ids db s t' as' sb' ws' log') {runId : Uuid} (hc : Claimed s.workers runId) :
    Claimed ws' runId := by
  cases h with
  | claimed =>
    unfold Claimed
    rw [List.map_append]
    exact List.mem_append_left _ hc
  | worked hk => exact (claimed_set hk _ runId).2 hc
  | _ => exact hc

/-- The worker that published stays where it is. -/
theorem published_kept (h : Effect env now ids db s t' as' sb' ws' log') {k : Runs.Worker} (hk : k ∈ s.workers)
    {call : Call}
    {answer : AnswerResponse} (hpc : k.pc = .published call answer) : k ∈ ws' := by
  cases h with
  | claimed => exact List.mem_append_left _ hk
  | @worked i k' input pc' _ hk' hids h =>
    obtain ⟨j, hj⟩ := List.mem_iff_getElem?.1 hk
    by_cases hij : i = j
    · subst hij
      cases hk'.symm.trans hj
      have hsame : pc' = k.pc := by
        cases h with
        | idle => rfl
        | ending _ hne => exact absurd hpc (hne call answer)
        | loaded hpc' | answering hpc' | published hpc' | failed hpc' =>
          rw [hpc] at hpc'
          cases hpc'
      rw [hsame]
      exact Table.mem_set_self hk'
    · exact List.mem_iff_getElem?.2 ⟨j, by rw [List.getElem?_set_ne hij]; exact hj⟩
  | _ => exact hk

/-- A worker whose run is not touched keeps its account. -/
theorem accounts_mono {k : Runs.Worker} (hk : k.runId ∈ w.issued) (hf : ∀ i ∈ ids, i ∉ w.issued)
    (hc : ∀ r' ∈ t'.runs, (∃ r ∈ s.tables.runs, Runs.Same r r') ∨ r'.id ∈ ids)
    (hsame : ∀ r' ∈ t'.runs, r'.id = k.runId → t'.receiptsOf k.runId = s.tables.receiptsOf k.runId)
    (h : k.Accounts s.tables) : k.Accounts t' := by
  rintro ⟨r', hr', hid⟩
  rw [hsame r' hr' hid]
  refine h ?_
  rcases hc r' hr' with ⟨r, hr, hs⟩ | hnew
  · exact ⟨r, hr, hs.id.symm.trans hid⟩
  · exact absurd (hid ▸ hk) (hf _ hnew)

theorem ReceiptInv.accounts_effect (h : ReceiptInv w s) (hi : RunInv w s) (hf : ∀ i ∈ ids, i ∉ w.issued)
    (he : Effect env now ids db s t' as' sb' ws' log') : ∀ k' ∈ ws', k'.Accounts t' := by
  have hc : ∀ r' ∈ t'.runs, (∃ r ∈ s.tables.runs, Runs.Same r r') ∨ r'.id ∈ ids := by
    intro r' hr'
    rcases changes hi hf he hr' with ⟨r, hr, hs, -⟩ | hn
    · exact .inl ⟨r, hr, hs⟩
    · exact .inr hn.id
  have hquiet : t'.receipts = s.tables.receipts → ∀ k' ∈ s.workers, k'.Accounts t' := fun hsame k' hk' =>
    accounts_mono (hi.claims k' hk') hf hc (fun _ _ _ => receiptsOf_congr hsame _) (h.accounts k' hk')
  cases he with
  | same | stamped | created | asking | submitting => exact hquiet rfl
  | @claimed k hid hpc hr =>
    intro k' hk'
    have hsame : (s.tables.transition now (Runs.ClaimWhere now k.runId) (Runs.claimed now k.token)).receipts =
        s.tables.receipts := transition_receipts hi.keyed fun _ _ _ => rfl
    rcases List.mem_append.1 hk' with hk' | hk'
    · exact hquiet hsame k' hk'
    · rw [List.mem_singleton.1 hk']
      intro _
      rw [hpc, receiptsOf_congr hsame]
      obtain ⟨r, hrm, hw⟩ := hr
      have hrow := hi.rows r hrm
      have hfree : ¬ Claimed s.workers k.runId := hw.1 ▸ hrow.unclaimed.1 (hrow.queued hw.2.1)
      refine List.filter_eq_nil_iff.2 fun q hq hrun => hfree ?_
      rw [← of_decide_eq_true hrun]
      exact h.owners q hq
  | @worked i k input pc' _ hk hids he =>
    have hkm := Table.mem_of_getElem? hk
    intro k' hk'
    rcases Table.mem_set_cases hk' with rfl | ⟨j, hj, hk'⟩
    · rintro ⟨r', hr', hid⟩
      refine he.accounts (hi.workers k hkm) hi.keyed h.keyed (h.accounts k hkm ?_)
      rcases hc r' hr' with ⟨r, hr, hs⟩ | hnew
      · exact ⟨r, hr, hs.id.symm.trans hid⟩
      · exact absurd (hid ▸ hi.claims k hkm) (hf _ hnew)
    · have hk'm := Table.mem_of_getElem? hk'
      refine accounts_mono (hi.claims k' hk'm) hf hc (fun _ _ _ => ?_) (h.accounts k' hk'm)
      exact (he.receipted (hi.workers k hkm) hi.keyed).others (fun id hid => (h.held k hkm id hid).2)
        (hi.once.ne_of_ne hk hk' hj)
  | stopped hm => exact hquiet (transition_receipts hi.keyed fun r hr hp => (hm r hr hp).same.id)
  | removed p =>
    intro k' hk'
    refine accounts_mono (hi.claims k' hk') hf hc (fun r' hr' hid => ?_) (h.accounts k' hk')
    exact hid ▸ receiptsOf_deleteConversations p hi.keyed hr'
  | submitted hp hids _ he =>
    cases he with
    | @inserted _ _ runId _ hpc hin he =>
      have hne : ∀ r ∈ s.tables.runs, r.id ≠ runId := fun r hr he => hf _ (hids _ hin) (he ▸ hi.ids r hr)
      obtain ⟨-, rfl⟩ := Runs.insertRun_eq hi.keyed hne (.inl rfl) he
      exact hquiet rfl
    | _ => exact hquiet rfl
  | asked hp he =>
    cases he with
    | idle | ended | began => exact hquiet rfl
    | answering hpc he =>
      obtain ⟨-, rfl⟩ := he.of_none rfl ((hi.asks _ (Table.mem_of_getElem? hp)).receipt hpc).1
      exact hquiet rfl
    | appended hpc he =>
      obtain ⟨c, -, -, rfl⟩ := appendPair_eq he
      exact hquiet rfl

theorem ReceiptInv.held_effect (h : ReceiptInv w s) (hi : RunInv w s) (hf : ∀ i ∈ ids, i ∉ w.issued)
    (hw : ∀ i ∈ w.issued, i ∈ w'.issued) (hids : ∀ i ∈ ids, i ∈ w'.issued)
    (he : Effect env now ids db s t' as' sb' ws' log') : ∀ k' ∈ ws', ∀ id, k'.pc.receipt = some id →
      id ∈ w'.issued ∧ ∀ q ∈ t'.receipts, q.id = id → q.runId = k'.runId := by
  have hold : ∀ k' ∈ s.workers, ∀ id, k'.pc.receipt = some id →
      id ∈ w'.issued ∧ ∀ q ∈ t'.receipts, q.id = id → q.runId = k'.runId := by
    intro k' hk' id hid
    obtain ⟨hissued, hown⟩ := h.held k' hk' id hid
    refine ⟨hw _ hissued, fun q' hq' hqid => ?_⟩
    rcases (receipted hi hf he).mem hq' with ⟨q, hq, hqq, hrun, -⟩ | ⟨hnew, -⟩
    · rw [← hrun]
      exact hown q hq (hqq.trans hqid)
    · exact absurd (hqid ▸ hissued) (hf _ hnew)
  intro k' hk' id hid
  cases he with
  | claimed hid' hpc hr =>
    rcases List.mem_append.1 hk' with hk' | hk'
    · exact hold k' hk' id hid
    · rw [List.mem_singleton.1 hk', hpc] at hid
      cases hid
  | @worked i k input pc' _ hk hin he =>
    have hkm := Table.mem_of_getElem? hk
    rcases Table.mem_set_cases hk' with rfl | ⟨j, -, hj⟩
    · rcases he.receipt (hi.workers k hkm) hid with hid | ⟨hreceipt, kind, model, i, o, hb⟩
      · exact hold k hkm id hid
      · have hmem := hin id hreceipt
        refine ⟨hids _ hmem, fun q hq hqid => ?_⟩
        obtain ⟨-, -, rfl⟩ := begin_eq hb
        rcases List.mem_append.1 hq with hq | hq
        · exact absurd (hqid ▸ h.ids q hq) (hf _ hmem)
        · rw [List.mem_singleton.1 hq]
    · exact hold k' (Table.mem_of_getElem? hj) id hid
  | _ => exact hold k' hk' id hid

theorem ReceiptInv.paid_effect (h : ReceiptInv w s) (hi : RunInv w s) (hf : ∀ i ∈ ids, i ∉ w.issued)
    (he : Effect env now ids db s t' as' sb' ws' log') : ∀ r' ∈ t'.runs, r'.status = .completed →
      ∃ k ∈ ws', k.runId = r'.id ∧ ∃ call answer, k.pc = .published call answer ∧ bill r' = billOf answer := by
  intro r' hr' hdone
  rcases changes hi hf he hr' with ⟨r, hr, hs, hc⟩ | hn
  · cases hc with
    | quiet status _ _ _ hbill =>
      obtain ⟨k, hk, hrun, call, answer, hpc, hb⟩ := h.paid r hr (status ▸ hdone)
      exact ⟨k, published_kept he hk hpc, hrun.trans hs.id.symm, call, answer, hpc, hbill.trans hb⟩
    | claimed _ status =>
      rw [hdone] at status
      cases status
    | stopped _ status =>
      rw [hdone] at status
      rcases status with status | status <;> cases status
    | completed _ _ _ _ _ _ _ _ hbill =>
      obtain ⟨k, hk, conversationId, question, call, answer, hrun, hpc, hb, hmem⟩ := hbill
      exact ⟨_, hmem, hrun.trans hs.id.symm, call, answer, rfl, hb⟩
  · rw [hn.status] at hdone
    cases hdone

theorem ReceiptInv.empty (w : World) : ReceiptInv w Chat.empty :=
  ⟨.nil, List.forall_mem_nil _, .nil, List.forall_mem_nil _, List.forall_mem_nil _, List.forall_mem_nil _,
    List.forall_mem_nil _⟩

theorem ReceiptInv.mono (h : ReceiptInv w s) (hw : ∀ i ∈ w.issued, i ∈ w'.issued) : ReceiptInv w' s :=
  ⟨h.keyed, fun q hq => hw _ (h.ids q hq), h.kinds, h.owners,
    fun k hk id hid => ⟨hw _ (h.held k hk id hid).1, (h.held k hk id hid).2⟩, h.accounts, h.paid⟩

theorem ReceiptInv.effect (h : ReceiptInv w s) (hi : RunInv w s) (hf : ∀ i ∈ ids, i ∉ w.issued)
    (hw : ∀ i ∈ w.issued, i ∈ w'.issued) (hids : ∀ i ∈ ids, i ∈ w'.issued) {s' : Chat}
    (he : Effect env now ids db s s'.tables s'.asks s'.submits s'.workers s'.log) : ReceiptInv w' s' := by
  have hr := receipted hi hf he
  obtain ⟨hkeyed, hkinds⟩ := hr.keyed h hf
  refine ⟨hkeyed, fun q' hq' => ?_, hkinds, fun q' hq' => ?_, h.held_effect hi hf hw hids he,
    h.accounts_effect hi hf he, h.paid_effect hi hf he⟩
  · rcases hr.mem hq' with ⟨q, hq, hid, -⟩ | ⟨hid, -⟩
    · exact hw _ (hid ▸ h.ids q hq)
    · exact hids _ hid
  · rcases hr.mem hq' with ⟨q, hq, -, hrun, -⟩ | ⟨-, hc⟩
    · exact claimed_effect he (hrun ▸ h.owners q hq)
    · exact claimed_effect he hc

end Chat
end RepoPilot
