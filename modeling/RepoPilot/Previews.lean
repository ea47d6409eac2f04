import RepoPilot.ChatInvariant
import RepoPilot.PreviewWriter

/-! # Previews over whole runs

Only the writer of the worker that claimed a run writes its preview columns. So the revision of a run counts the
writes of one writer, and the writer's pace bounds it. -/

namespace RepoPilot
open Generation PreviewText

/-! ### What leaves the preview columns alone -/

namespace Tables
variable {now : Time} {new : List Uuid} {t t' : Tables} {r r' : AnswerRun}

/-- The revision stays; the text stays or is cleared. -/
structure SamePreview (r r' : AnswerRun) : Prop where
  id : r'.id = r.id
  revision : r'.previewRevision = r.previewRevision
  text : r'.previewText = r.previewText ∨ r'.previewText = []

/-- Runs keep their preview columns, and a new run has none. -/
def Keeps (new : List Uuid) (t t' : Tables) : Prop :=
  ∀ r' ∈ t'.runs, (∃ r ∈ t.runs, SamePreview r r') ∨ (r'.id ∈ new ∧ r'.previewRevision = 0 ∧ r'.previewText = [])

theorem SamePreview.refl (r : AnswerRun) : SamePreview r r := ⟨rfl, rfl, .inl rfl⟩

theorem Keeps.of_sub (h : ∀ r ∈ t'.runs, r ∈ t.runs) : Keeps new t t' := fun r hr => .inl ⟨r, h r hr, .refl r⟩

theorem Keeps.of_eq (h : t'.runs = t.runs) : Keeps new t t' := .of_sub fun _ hr => h ▸ hr

theorem samePreview_settled (h : SamePreview r r') : SamePreview r (settled r') := by
  unfold settled
  split
  · exact ⟨h.id, h.revision, .inr rfl⟩
  · exact h

theorem Transitioned.keeps {p : AnswerRun → Prop} [DecidablePred p] {f : AnswerRun → AnswerRun}
    (h : Transitioned now p f t t') (hf : ∀ r, SamePreview r (f r)) : Keeps new t t' := by
  intro r' hr'
  rw [h.runs] at hr'
  obtain ⟨r, hr, rfl⟩ := Table.mem_update.1 hr'
  refine .inl ⟨r, hr, ?_⟩
  split
  · exact samePreview_settled (hf r)
  · exact .refl r

theorem transition_keeps {p : AnswerRun → Prop} [DecidablePred p] {f : AnswerRun → AnswerRun}
    (hk : Table.Keyed (·.id) t.runs) (hf : ∀ r, SamePreview r (f r)) : Keeps new t (t.transition now p f) :=
  (transitioned now hk fun r _ _ => (hf r).id).keeps hf

end Tables

namespace Answers
variable {env : Env} {now : Time} {c : Call} {input : Input} {pc pc' : Pc} {db : Db} {t t' : Tables} {g : Stream}

theorem beginReceipt_runs {kind : ReceiptKind} {model : Text} {inputRate outputRate : ℚ} {receipt : Option Uuid}
    (h : beginReceipt now c input kind model inputRate outputRate t = some (.ok (receipt, t'))) : t'.runs = t.runs := by
  rcases beginReceipt_eq h with ⟨-, -, rfl⟩ | ⟨runId, token, id, -, -, -, hb⟩
  · rfl
  · obtain ⟨-, -, rfl⟩ := Tables.begin_eq hb
    rfl

theorem finishReceipt_runs {receipt : Option Uuid} {i o : Int} (h : finishReceipt now receipt i o t = .ok t') :
    t'.runs = t.runs := by
  unfold finishReceipt at h
  split at h
  · cases h
    rfl
  · obtain ⟨-, -, rfl⟩ := Tables.finish_eq h
    rfl

/-! ### Where a process is, and its writer -/

/-- Nothing goes through the writer before the provider streams; while it does, the fields of the writer agree. -/
def Pc.Stage (g : Stream) : Pc → Prop
  | .generating _ _ _ p => g.Matches p
  | .finishGeneration _ _ _ _ | .recordUsage _ _ _ _ | .answered _ | .raised _ => True
  | _ => g = .empty

/-- The provider streams to the process. -/
def Pc.Streaming : Pc → Prop
  | .generating _ _ _ _ => True
  | _ => False

theorem Pc.Raising.stage (h : pc.Raising) : pc.Stage g := by
  cases pc <;> first | exact trivial | cases h

theorem Selected.stage {plan : Plan} {channels : List (String × List Uuid)} (h : Selected c plan channels pc)
    (hg : g = .empty) : pc.Stage g := by
  cases h with
  | raised h => exact h.stage
  | keyword => exact hg
  | hybrid => exact hg

theorem Embedded.stage {plan : Plan} {channels : List (String × List Uuid)} {p : EmbeddingProvider}
    {response : EmbeddingBatch} (h : Embedded plan channels p response pc) (hg : g = .empty) : pc.Stage g := by
  cases h with
  | raised h => exact h.stage
  | used => exact hg

theorem Retrieving.stage {retrieved : Retrieved} (h : Retrieving env c retrieved pc) (hg : g = .empty) : pc.Stage g := by
  cases h with
  | raised h => exact h.stage
  | empty => exact trivial
  | found => exact hg

theorem Concluding.stage {retrieved : Retrieved} {included : List HistoryTurn} {result : GenerationResult}
    (h : Concluding env c retrieved included result pc) : pc.Stage g := by
  cases h with
  | raised h => exact h.stage
  | answered => exact trivial

/-- Without a stream, nothing goes through the writer. -/
theorem Effect.stage (h : Effect env now c input pc db t pc' t') (hno : ¬ pc.Streaming) (hs : pc.Stage g) :
    pc'.Stage g ∧ t'.runs = t.runs := by
  cases h with
  | idle => exact ⟨hs, rfl⟩
  | raised h => exact ⟨h.stage, rfl⟩
  | authorized hpc => subst hpc; exact ⟨hs, rfl⟩
  | sourced hpc => subst hpc; exact ⟨hs, rfl⟩
  | indexed hpc h => subst hpc; exact ⟨hs, rfl⟩
  | fell hpc => subst hpc; exact ⟨hs, rfl⟩
  | planned hpc => rcases hpc with rfl | rfl <;> exact ⟨hs, rfl⟩
  | admitted hpc => subst hpc; exact ⟨hs, rfl⟩
  | lexical hpc => subst hpc; exact ⟨hs, rfl⟩
  | selected hpc h => subst hpc; exact ⟨h.stage hs, rfl⟩
  | beganEmbedding hpc h => subst hpc; exact ⟨hs, beginReceipt_runs h⟩
  | calledEmbed hpc => subst hpc; exact ⟨hs, rfl⟩
  | embedded hpc => subst hpc; exact ⟨hs, rfl⟩
  | failedCall => exact ⟨trivial, rfl⟩
  | finishedEmbedding hpc hf h => subst hpc; exact ⟨h.stage hs, finishReceipt_runs hf⟩
  | vectored hpc => subst hpc; exact ⟨hs, rfl⟩
  | loaded hpc hf h => subst hpc; exact ⟨h.stage hs, rfl⟩
  | beganGeneration hpc h => subst hpc; exact ⟨hs, beginReceipt_runs h⟩
  | calledGenerate hpc =>
    subst hpc
    have hg : g = .empty := hs
    rw [hg]
    exact ⟨Stream.matches_empty, rfl⟩
  | streamed hpc => subst hpc; exact absurd trivial hno
  | previewed hpc => subst hpc; exact absurd trivial hno
  | generated hpc => exact ⟨trivial, rfl⟩
  | finishedGeneration hpc hf h => exact ⟨h.stage, finishReceipt_runs hf⟩
  | recorded hpc hf => exact ⟨trivial, finishReceipt_runs hf⟩

/-- While the provider streams, only a delta reaches the writer. -/
theorem step_streaming (env : Env) (now : Time) (db : Db) (t : Tables) (retrieved : Retrieved) (included : List HistoryTurn)
    (receipt : Option Uuid) {p : Preview}
    (hno : ∀ value clock, input = .delta value clock → c.streaming = false)
    (hs : g.Matches p) :
    (step env now c input (.generating retrieved included receipt p) db t).1.Stage g ∧
      (step env now c input (.generating retrieved included receipt p) db t).2 = t := by
  cases input with
  | delta value clock =>
    have hstream := hno value clock rfl
    unfold step
    dsimp only
    split
    · exact ⟨hs, rfl⟩
    · rw [if_pos hstream]
      exact ⟨hs, rfl⟩
  | generated raw =>
    unfold step
    dsimp only
    split <;> exact ⟨trivial, rfl⟩
  | raised e => exact ⟨(answerRaise_raising e).stage, rfl⟩
  | usageError e i o => exact ⟨trivial, rfl⟩
  | _ => exact ⟨hs, rfl⟩

end Answers

namespace Runs
variable {env : Env} {now : Time} {k : Worker} {input : Answers.Input} {db : Db} {t : Tables} {g : Stream}

/-- What the writer of a worker holds while the provider streams to it. -/
def Worker.preview (k : Worker) : Option Answers.Preview :=
  match k.pc with
  | .answering _ _ call (.generating _ _ _ p) => if call.streaming then some p else none
  | _ => none

def Pc.Stage (g : Stream) : Pc → Prop
  | .load => g = .empty
  | .answering _ _ _ pc => pc.Stage g
  | _ => True

theorem Pc.Ending.stage {pc : Pc} (h : pc.Ending) : pc.Stage g := by
  cases pc <;> first | exact trivial | cases h

theorem stage_resume {conversationId : Uuid} {question : Text} {call : Call} {pc : Answers.Pc} (h : pc.Stage g) :
    (Pc.resume conversationId question call pc).Stage g := by
  cases pc with
  | answered answer => exact trivial
  | raised e => exact (handler_ending e).stage
  | _ => exact h

/-- A worker changes the preview columns of its own run only, and only by a preview. -/
theorem Worker.previews (hk : Table.Keyed (·.id) t.runs) (hserves : k.Serves t) {pc' : Pc} {t' : Tables}
    (h : Worker.Effect env now k input db t pc' t') {r' : AnswerRun} (hr' : r' ∈ t'.runs) :
    (∃ r ∈ t.runs, Tables.SamePreview r r') ∨
      ∃ r ∈ t.runs, ∃ raw, r.id = k.runId ∧ r.previewRevision < 256 ∧
        r' = Answers.previewed (previewText env raw) r := by
  have hkept : ∀ {t'' : Tables}, Tables.Keeps [] t t'' → r' ∈ t''.runs → ∃ r ∈ t.runs, Tables.SamePreview r r' :=
    fun h hr => (h r' hr).resolve_right fun hn => by cases hn.1
  cases h with
  | idle | ending | loaded => exact .inl ⟨r', hr', .refl r'⟩
  | answering hpc h =>
    unfold Worker.Serves at hserves
    rw [hpc] at hserves
    cases h.writes with
    | none => exact .inl ⟨r', hr', .refl r'⟩
    | began hrun hin h =>
      obtain ⟨-, -, rfl⟩ := Tables.begin_eq h
      exact .inl ⟨r', hr', .refl r'⟩
    | finished hr h =>
      obtain ⟨-, -, rfl⟩ := Tables.finish_eq h
      exact .inl ⟨r', hr', .refl r'⟩
    | @previewed runId token raw hrun =>
      have hmine : runId = k.runId := by
        have heq := hrun.symm.trans hserves.1.run
        cases heq
        rfl
      obtain ⟨r, hr, rfl⟩ := Table.mem_update.1 hr'
      by_cases hp : Answers.AcceptsPreview now runId token r
      · rw [if_pos hp]
        exact .inr ⟨r, hr, raw, hp.1.1.trans hmine, hp.2, rfl⟩
      · rw [if_neg hp]
        exact .inl ⟨r, hr, .refl r⟩
  | published hpc h =>
    obtain ⟨_, -, -, _, -, -, ht⟩ := publish_eq hk h
    exact .inl (hkept (ht.keeps fun r => ⟨rfl, rfl, .inl rfl⟩) hr')
  | @failed code message hpc hr =>
    have hsame : ∀ r, Tables.SamePreview r (Runs.failed now code message r) := fun r => ⟨rfl, rfl, .inl rfl⟩
    exact .inl (hkept (Tables.transition_keeps hk hsame) hr')

/-- A step that is not a delta to a streaming worker leaves the writer alone. -/
theorem Worker.quiet (env : Env) (now : Time) (db : Db) (hk : Table.Keyed (·.id) t.runs)
    (hno : ∀ value clock, input = .delta value clock → k.preview = none) (hs : k.pc.Stage g) :
    (k.step env now input db t).1.Stage g ∧ Tables.Keeps [] t (k.step env now input db t).2 := by
  by_cases hstream : ∃ conversationId question call retrieved included receipt p,
      k.pc = .answering conversationId question call (.generating retrieved included receipt p)
  · obtain ⟨conversationId, question, call, retrieved, included, receipt, p, hpc⟩ := hstream
    have hdelta : ∀ value clock, input = .delta value clock → call.streaming = false := fun value clock hin => by
      have hnone := hno value clock hin
      unfold Worker.preview at hnone
      rw [hpc] at hnone
      by_contra hc
      rw [Bool.not_eq_false] at hc
      simp [hc] at hnone
    rw [hpc] at hs
    obtain ⟨hstage, htables⟩ := Answers.step_streaming env now db t retrieved included receipt hdelta hs
    unfold Worker.step
    rw [hpc]
    dsimp only
    exact ⟨stage_resume hstage, .of_eq (congrArg Tables.runs htables)⟩
  · have heffect := k.step_effect env now input db t
    generalize (k.step env now input db t).1 = pc' at heffect
    generalize (k.step env now input db t).2 = t' at heffect
    cases heffect with
    | idle => exact ⟨hs, .of_eq rfl⟩
    | ending h => exact ⟨h.stage, .of_eq rfl⟩
    | loaded hpc =>
      rw [hpc] at hs
      exact ⟨hs, .of_eq rfl⟩
    | answering hpc h =>
      rw [hpc] at hs
      have hidle : ∀ pc : Answers.Pc, (∃ conversationId question call, k.pc = .answering conversationId question call pc) →
          ¬ pc.Streaming := by
        rintro pc ⟨_, _, _, hpc⟩ hpc'
        cases pc with
        | generating => exact hstream ⟨_, _, _, _, _, _, _, hpc⟩
        | _ => exact hpc'
      obtain ⟨hstage, hruns⟩ := h.stage (hidle _ ⟨_, _, _, hpc⟩) hs
      exact ⟨stage_resume hstage, .of_eq hruns⟩
    | published hpc h =>
      obtain ⟨_, -, -, _, -, -, ht⟩ := publish_eq hk h
      exact ⟨trivial, ht.keeps fun r => ⟨rfl, rfl, .inl rfl⟩⟩
    | failed hpc hr => exact ⟨trivial, Tables.transition_keeps hk fun r => ⟨rfl, rfl, .inl rfl⟩⟩

end Runs

namespace Chat
variable {env : Env} {now : Time} {w : World} {db : Db} {s : Chat} {a : Action}

/-- The other actions keep the preview columns. -/
theorem step_keeps (hi : RunInv w s) (hf : ∀ i ∈ a.ids, i ∉ w.issued) (ha : ∀ j input, a ≠ .workerStep j input) :
    s.tables.Keeps a.ids (step env now a db s).tables := by
  cases a with
  | create userId repositoryId conversationId title limit =>
    simp only [step]
    split
    · exact .of_eq rfl
    · split
      · exact .of_eq rfl
      · rename_i h
        unfold create at h
        simp only [bind_ok, lift_ok, refuse_ok] at h
        obtain ⟨-, -, -, -, -, -, h⟩ := h
        cases h
        exact .of_eq rfl
  | remove userId conversationId =>
    simp only [step]
    split
    · exact .of_eq rfl
    · unfold remove
      split
      · exact .of_eq rfl
      · exact .of_sub fun r hr => List.mem_of_mem_filter hr
  | ask settings embedder model userId conversationId question mode answerId =>
    simp only [step]
    split <;> exact .of_eq rfl
  | askStep i input =>
    simp only [step, askStep]
    split
    · exact .of_eq rfl
    · rename_i p hp
      split
      · exact .of_eq rfl
      · have heffect := p.step_effect env now input db s.tables
        dsimp only
        generalize (p.step env now input db s.tables).1 = pc' at heffect
        generalize (p.step env now input db s.tables).2 = t' at heffect ⊢
        cases heffect with
        | idle | ended | began => exact .of_eq rfl
        | answering hpc h =>
          obtain ⟨-, rfl⟩ := h.of_none rfl ((hi.asks _ (Table.mem_of_getElem? hp)).receipt hpc).1
          exact .of_eq rfl
        | appended hpc h =>
          obtain ⟨c, -, -, rfl⟩ := Tables.appendPair_eq h
          exact .of_eq rfl
  | submit settings userId conversationId requestKey question mode =>
    simp only [step]
    split <;> exact .of_eq rfl
  | submitStep i input =>
    simp only [step, submitStep]
    split
    · exact .of_eq rfl
    · rename_i p hp
      split
      · exact .of_eq rfl
      · have heffect := p.step_effect env now input db s.tables
        dsimp only
        generalize (p.step env now input db s.tables).1 = pc' at heffect
        generalize (p.step env now input db s.tables).2 = t' at heffect ⊢
        cases heffect with
        | @inserted source history runId t' hpc hin h =>
          subst hin
          have hnew : runId ∉ w.issued := hf _ (List.mem_singleton_self _)
          have hne : ∀ r ∈ s.tables.runs, r.id ≠ runId := fun r hr he => hnew (he ▸ hi.ids r hr)
          obtain ⟨-, rfl⟩ := Runs.insertRun_eq hi.keyed hne (.inl rfl) h
          intro r' hr'
          rcases List.mem_append.1 hr' with hr | hr
          · exact .inl ⟨r', hr, .refl r'⟩
          · rw [List.mem_singleton.1 hr]
            exact .inr ⟨List.mem_singleton_self _, rfl, rfl⟩
        | _ => exact .of_eq rfl
  | cancel userId runId =>
    simp only [step]
    split
    · exact .of_eq rfl
    · rename_i t' h
      unfold Runs.cancel at h
      cases ho : s.tables.ownedRun db userId runId with
      | error e => rw [ho] at h; cases h
      | ok run =>
        cases ht : s.tables.transitionOne now (Runs.CancelWhere runId) (Runs.cancelled now) with
        | none =>
          simp only [ho, ht] at h
          cases h
        | some t₁ =>
          simp only [ho, ht] at h
          cases h
          obtain ⟨-, rfl⟩ := Tables.transitionOne_eq ht
          exact Tables.transition_keeps hi.keyed fun r => ⟨rfl, rfl, .inl rfl⟩
  | deliver settings embedder model streaming runId token =>
    simp only [step, deliver]
    split
    · exact .of_eq rfl
    · rename_i t' h
      obtain ⟨-, rfl⟩ := Tables.transitionOne_eq h
      exact Tables.transition_keeps hi.keyed fun r => ⟨rfl, rfl, .inl rfl⟩
  | workerStep j input => exact absurd rfl (ha j input)
  | dispatch => exact .of_eq rfl
  | cycleStep i succeeded =>
    simp only [step]
    split
    · exact .of_eq rfl
    · unfold Runs.Cycle.step
      split
      · exact Tables.transition_keeps hi.keyed fun r => ⟨rfl, rfl, .inl rfl⟩
      · exact Tables.transition_keeps hi.keyed fun r => ⟨rfl, rfl, .inl rfl⟩
      · exact .of_eq rfl
      · split
        · intro r' hr'
          obtain ⟨r, hr, rfl⟩ := Table.mem_update.1 hr'
          refine .inl ⟨r, hr, ?_⟩
          split
          · exact ⟨rfl, rfl, .inl rfl⟩
          · exact .refl r
        · exact .of_eq rfl
      · exact .of_eq rfl

/-- The other actions leave the workers alone, except that a delivery adds the worker of a queued run. -/
theorem step_workers (ha : ∀ j input, a ≠ .workerStep j input) :
    (step env now a db s).workers = s.workers ∨
      ∃ k, k.pc = .load ∧ (∃ r ∈ s.tables.runs, Runs.ClaimWhere now k.runId r) ∧
        (step env now a db s).workers = s.workers ++ [k] := by
  cases a with
  | deliver settings embedder model streaming runId token =>
    simp only [step, deliver]
    split
    · exact .inl rfl
    · rename_i t' h
      obtain ⟨hr, -⟩ := Tables.transitionOne_eq h
      exact .inr ⟨⟨runId, token, settings, embedder, model, streaming, .load⟩, rfl, hr, rfl⟩
  | workerStep j input => exact absurd rfl (ha j input)
  | askStep i input =>
    simp only [step, askStep]
    split
    · exact .inl rfl
    · split <;> exact .inl rfl
  | submitStep i input =>
    simp only [step, submitStep]
    split
    · exact .inl rfl
    · split <;> exact .inl rfl
  | create userId repositoryId conversationId title limit =>
    simp only [step]
    split
    · exact .inl rfl
    · split <;> exact .inl rfl
  | dispatch => exact .inl rfl
  | _ =>
    simp only [step]
    split <;> exact .inl rfl

/-! ### One worker and its writer -/

/-- What went through the writer of worker `i` agrees with the worker and with its run; the preview columns of every
run fit, and are untouched before a worker claims the run. -/
structure Watched (env : Env) (i : Nat) (s : Chat) (g : Stream) : Prop where
  paced : g.Paced env
  fits : ∀ r ∈ s.tables.runs, r.previewRevision ≤ 256 ∧ Storable r.previewText
  unclaimed : ∀ r ∈ s.tables.runs, ¬ Claimed s.workers r.id → r.previewRevision = 0
  idle : s.workers[i]? = none → g = .empty
  stage : ∀ k, s.workers[i]? = some k → k.pc.Stage g
  revision : ∀ k, s.workers[i]? = some k → ∀ r ∈ s.tables.runs, r.id = k.runId → r.previewRevision = g.writes.length

section Watched
variable {i j : Nat} {g : Stream} {s' : Chat} {new : List Uuid} {k : Runs.Worker} {input : Answers.Input}

theorem Watched.empty (env : Env) (i : Nat) : Watched env i .empty .empty := by
  have hrun : ∀ r, r ∉ Chat.empty.tables.runs := fun r => List.not_mem_nil
  have hworker : ∀ k, Chat.empty.workers[i]? ≠ some k := fun k hk => by
    unfold Chat.empty at hk
    simp at hk
  exact ⟨Stream.paced_empty, fun r hr => absurd hr (hrun r), fun r hr => absurd hr (hrun r), fun _ => rfl,
    fun k hk => absurd hk (hworker k), fun k hk => absurd hk (hworker k)⟩

theorem storable_of_same {r r' : AnswerRun} (h : Tables.SamePreview r r') (hr : Storable r.previewText) :
    Storable r'.previewText := by
  rcases h.text with ht | ht
  · rw [ht]
    exact hr
  · rw [ht]
    exact ⟨Nat.zero_le _, nofun⟩

/-- A queued run has no worker, and nothing has been written to its preview. -/
theorem Watched.queued (h : Watched env i s g) (hi : RunInv w s) {r : AnswerRun} (hr : r ∈ s.tables.runs)
    (hq : r.status = .queued) : r.previewRevision = 0 :=
  h.unclaimed r hr ((hi.rows r hr).unclaimed.1 ((hi.rows r hr).queued hq))

theorem Watched.frame (now : Time) (h : Watched env i s g) (hi : RunInv w s) (hnew : ∀ x ∈ new, x ∉ w.issued)
    (hkeeps : s.tables.Keeps new s'.tables)
    (hw : s'.workers = s.workers ∨ ∃ k, k.pc = .load ∧ (∃ r ∈ s.tables.runs, Runs.ClaimWhere now k.runId r) ∧
      s'.workers = s.workers ++ [k]) : Watched env i s' g := by
  have hclaimed : ∀ id, Claimed s.workers id → Claimed s'.workers id := by
    intro id hc
    rcases hw with hw | ⟨k, -, -, hw⟩
    · rw [hw]
      exact hc
    · unfold Claimed at hc ⊢
      rw [hw, List.map_append]
      exact List.mem_append_left _ hc
  -- a worker at `i` was there before, or is the new one of a queued run
  have hworker : ∀ k, s'.workers[i]? = some k →
      s.workers[i]? = some k ∨ s.workers[i]? = none ∧ k.pc = .load ∧ ∃ r ∈ s.tables.runs, Runs.ClaimWhere now k.runId r := by
    intro k hk
    rcases hw with hw | ⟨k', hpc, hr, hw⟩
    · rw [hw] at hk
      exact .inl hk
    · rw [hw] at hk
      cases hold : s.workers[i]? with
      | some x =>
        rw [List.getElem?_append_left (List.getElem?_eq_some_iff.1 hold).1, hold] at hk
        exact .inl hk
      | none =>
        rw [List.getElem?_append_right (List.getElem?_eq_none_iff.1 hold)] at hk
        have hk' : k = k' := List.mem_singleton.1 (List.mem_of_getElem? hk)
        rw [hk']
        exact .inr ⟨rfl, hpc, hr⟩
  refine ⟨h.paced, fun r' hr' => ?_, fun r' hr' hno => ?_, fun hnone => ?_, fun k hk => ?_, fun k hk r' hr' hid => ?_⟩
  · rcases hkeeps r' hr' with ⟨r, hr, hsame⟩ | ⟨-, hzero, hempty⟩
    · rw [hsame.revision]
      exact ⟨(h.fits r hr).1, storable_of_same hsame (h.fits r hr).2⟩
    · rw [hzero, hempty]
      exact ⟨Nat.zero_le _, Nat.zero_le _, nofun⟩
  · rcases hkeeps r' hr' with ⟨r, hr, hsame⟩ | ⟨-, hzero, -⟩
    · rw [hsame.revision]
      exact h.unclaimed r hr fun hc => hno (hclaimed _ (hsame.id ▸ hc))
    · exact hzero
  · refine h.idle ?_
    rcases hw with hw | ⟨k, -, -, hw⟩
    · rwa [hw] at hnone
    · rw [hw, List.getElem?_eq_none_iff, List.length_append] at hnone
      rw [List.getElem?_eq_none_iff]
      omega
  · rcases hworker k hk with hk | ⟨hnone, hpc, -⟩
    · exact h.stage k hk
    · rw [hpc]
      exact h.idle hnone
  · rcases hworker k hk with hk | ⟨hnone, -, q, hq, hclaim⟩
    · rcases hkeeps r' hr' with ⟨r, hr, hsame⟩ | ⟨hmem, -, -⟩
      · rw [hsame.revision]
        exact h.revision k hk r hr (hsame.id.symm.trans hid)
      · exact absurd (hi.claims k (List.mem_of_getElem? hk)) (hid ▸ hnew _ hmem)
    · rw [h.idle hnone]
      rcases hkeeps r' hr' with ⟨r, hr, hsame⟩ | ⟨-, hzero, -⟩
      · have hrq : r = q := hi.keyed.eq hr hq (hsame.id.symm.trans (hid.trans hclaim.1.symm))
        rw [hsame.revision, hrq]
        exact h.queued hi hq hclaim.2.1
      · exact hzero

/-- The preview columns of all runs after a step of a worker. -/
theorem Watched.rows_worked (h : Watched env i s g) (hi : RunInv w s) (hj : s.workers[j]? = some k) {pc' : Runs.Pc}
    {t' : Tables} (heffect : Runs.Worker.Effect env now k input db s.tables pc' t') {r' : AnswerRun} (hr' : r' ∈ t'.runs) :
    (r'.previewRevision ≤ 256 ∧ Storable r'.previewText) ∧
      (¬ Claimed (s.workers.set j { k with pc := pc' }) r'.id → r'.previewRevision = 0) := by
  have hmem := List.mem_of_getElem? hj
  have hclaimed := claimed_set hj pc'
  rcases Runs.Worker.previews hi.keyed (hi.workers k hmem) heffect hr' with
    ⟨r, hr, hsame⟩ | ⟨r, hr, raw, hid, hlt, rfl⟩
  · rw [hsame.revision]
    refine ⟨⟨(h.fits r hr).1, storable_of_same hsame (h.fits r hr).2⟩, fun hno => h.unclaimed r hr fun hc => hno ?_⟩
    rw [hclaimed, hsame.id]
    exact hc
  · refine ⟨⟨hlt, storable env raw⟩, fun hno => absurd ((hclaimed _).2 ?_) hno⟩
    exact List.mem_map.2 ⟨k, hmem, hid.symm⟩

/-- A step of another worker. -/
theorem Watched.other (h : Watched env i s g) (hi : RunInv w s) (hj : s.workers[j]? = some k) (hne : j ≠ i)
    {pc' : Runs.Pc} {t' : Tables} (heffect : Runs.Worker.Effect env now k input db s.tables pc' t') (log : List Entry) :
    Watched env i { s with tables := t', workers := s.workers.set j { k with pc := pc' }, log := log } g := by
  have hsame : (s.workers.set j { k with pc := pc' })[i]? = s.workers[i]? := List.getElem?_set_ne hne
  refine ⟨h.paced, fun r' hr' => (h.rows_worked hi hj heffect hr').1, fun r' hr' => (h.rows_worked hi hj heffect hr').2,
    fun hnone => h.idle (hsame ▸ hnone), fun x hx => h.stage x (hsame ▸ hx), fun x hx r' hr' hid => ?_⟩
  have hx : s.workers[i]? = some x := hsame ▸ hx
  rcases Runs.Worker.previews hi.keyed (hi.workers k (List.mem_of_getElem? hj)) heffect hr' with
    ⟨r, hr, hsame⟩ | ⟨r, hr, raw, hmine, -, rfl⟩
  · rw [hsame.revision]
    exact h.revision x hx r hr (hsame.id.symm.trans hid)
  · exact absurd (hmine.symm.trans hid) (hi.once.ne_of_ne hx hj hne)

/-- A step of the worker itself. -/
theorem Watched.own (h : Watched env i s g) (hi : RunInv w s) (hk : s.workers[i]? = some k) {pc' : Runs.Pc}
    {t' : Tables} (heffect : Runs.Worker.Effect env now k input db s.tables pc' t') {g' : Stream} (hp : g'.Paced env)
    (hs : pc'.Stage g') (hr : ∀ r ∈ t'.runs, r.id = k.runId → r.previewRevision = g'.writes.length) (log : List Entry) :
    Watched env i { s with tables := t', workers := s.workers.set i { k with pc := pc' }, log := log } g' := by
  have hnew : (s.workers.set i { k with pc := pc' })[i]? = some { k with pc := pc' } :=
    List.getElem?_set_self (List.getElem?_eq_some_iff.1 hk).1
  refine ⟨hp, fun r' hr' => (h.rows_worked hi hk heffect hr').1, fun r' hr' => (h.rows_worked hi hk heffect hr').2,
    fun hnone => ?_, fun x hx => ?_, fun x hx => ?_⟩
  · cases hnew.symm.trans hnone
  · cases hnew.symm.trans hx
    exact hs
  · cases hnew.symm.trans hx
    exact hr

theorem Watched.quiet (h : Watched env i s g) (hi : RunInv w s) (hk : s.workers[i]? = some k)
    (hno : ∀ value clock, input = .delta value clock → k.preview = none) (log : List Entry) :
    Watched env i { s with
      tables := (k.step env now input db s.tables).2
      workers := s.workers.set i { k with pc := (k.step env now input db s.tables).1 }
      log := log } g := by
  obtain ⟨hstage, hkeeps⟩ := Runs.Worker.quiet env now db hi.keyed hno (h.stage k hk)
  refine h.own hi hk (k.step_effect env now input db s.tables) h.paced hstage (fun r' hr' hid => ?_) log
  obtain ⟨r, hr, hsame⟩ := (hkeeps r' hr').resolve_right fun hn => by cases hn.1
  rw [hsame.revision]
  exact h.revision k hk r hr (hsame.id.symm.trans hid)

end Watched

/-! ### Deltas -/

/-- The text that a step stores as the preview of a run. -/
def storedBy (runId : Uuid) (t t' : Tables) : Option Text :=
  match t.runs.find? (·.id = runId), t'.runs.find? (·.id = runId) with
  | some r, some r' => if r'.previewRevision = r.previewRevision then none else some r'.previewText
  | _, _ => none

theorem storedBy_self (runId : Uuid) (t : Tables) : storedBy runId t t = none := by
  unfold storedBy
  cases t.runs.find? (·.id = runId) with
  | none => rfl
  | some r => exact if_pos rfl

theorem storedBy_previewed {runId token : Uuid} {t : Tables} (hk : Table.Keyed (·.id) t.runs)
    (hr : ∃ r ∈ t.runs, Answers.AcceptsPreview now runId token r) (text : Text) :
    storedBy runId t { t with
      runs := Table.update (Answers.AcceptsPreview now runId token) (Answers.previewed text) t.runs } = some text := by
  obtain ⟨r, hr, haccepts⟩ := hr
  have hk' : Table.Keyed (·.id) (Table.update (Answers.AcceptsPreview now runId token) (Answers.previewed text) t.runs) :=
    hk.update fun _ _ _ => rfl
  have hbefore := hk.find?_eq hr
  have hafter := hk'.find?_eq (Table.mem_update_of_pos hr haccepts)
  have hid : r.id = runId := haccepts.1.1
  have hid' : (Answers.previewed text r).id = runId := hid
  rw [hid] at hbefore
  rw [hid'] at hafter
  unfold storedBy
  rw [hbefore, hafter]
  exact if_neg (Nat.succ_ne_self _)

end Chat

namespace Runs
variable {env : Env} {now : Time} {k : Worker} {db : Db} {t : Tables} {p : Answers.Preview}

/-- A delta goes to `delta`, and what that raises ends the answer. -/
theorem Worker.step_delta (env : Env) (now : Time) (db : Db) (hserves : k.Serves t) (hp : k.preview = some p) (value : Text) (clock : Time) :
    ∃ conversationId question call retrieved included receipt,
      k.step env now (.delta value clock) db t =
        match Answers.delta env now k.runId k.token value clock p t with
        | .error e => (.failing e.code e.message, t)
        | .ok (p', t') => (.answering conversationId question call (.generating retrieved included receipt p'), t') := by
  unfold Worker.preview at hp
  split at hp
  · rename_i conversationId question call retrieved included receipt q hpc
    split at hp
    · rename_i hstreaming
      cases hp
      unfold Worker.Serves at hserves
      rw [hpc] at hserves
      refine ⟨conversationId, question, call, retrieved, included, receipt, ?_⟩
      unfold Worker.step
      rw [hpc]
      dsimp only
      unfold Answers.step
      dsimp only
      rw [hserves.1.run]
      dsimp only
      rw [if_neg (by rw [hstreaming]; decide)]
      cases Answers.delta env now k.runId k.token value clock p t with
      | error e => rfl
      | ok x => rfl
    · cases hp
  · cases hp

end Runs

namespace Chat
variable {env : Env} {now : Time} {w : World} {db : Db} {s : Chat} {i : Nat} {g : Stream} {k : Runs.Worker}
  {p : Answers.Preview}

/-- A delta to the worker. -/
theorem Watched.streamed (h : Watched env i s g) (hi : RunInv w s) (hk : s.workers[i]? = some k)
    (hp : k.preview = some p) (value : Text) (clock : Time) (log : List Entry) :
    Watched env i
      { s with
        tables := (k.step env now (.delta value clock) db s.tables).2
        workers := s.workers.set i { k with pc := (k.step env now (.delta value clock) db s.tables).1 }
        log := log }
      (g.delivered value clock (storedBy k.runId s.tables (k.step env now (.delta value clock) db s.tables).2)) := by
  have hserves := hi.workers k (List.mem_of_getElem? hk)
  have hmatches : g.Matches p := by
    have hstage := h.stage k hk
    unfold Runs.Worker.preview at hp
    split at hp
    · rename_i hpc
      rw [hpc] at hstage
      split at hp
      · cases hp
        exact hstage
      · cases hp
    · cases hp
  have heffect := k.step_effect env now (.delta value clock) db s.tables
  obtain ⟨conversationId, question, call, retrieved, included, receipt, hstep⟩ :=
    Runs.Worker.step_delta env now db hserves hp value clock
  have hkept : ∀ r ∈ s.tables.runs, r.id = k.runId → r.previewRevision = (g.delivered value clock none).writes.length :=
    fun r hr hid => (h.revision k hk r hr hid).trans (by simp [Stream.delivered])
  rcases Stream.delta_cases env now k.runId k.token value clock p s.tables with hd | hd | ⟨hd, -⟩ | ⟨hd, hrun, hwait, hnew⟩
  · rw [hd] at hstep
    rw [hstep] at heffect ⊢
    rw [storedBy_self]
    exact h.own hi hk heffect h.paced.skipped trivial hkept log
  · rw [hd] at hstep
    rw [hstep] at heffect ⊢
    rw [storedBy_self]
    exact h.own hi hk heffect h.paced.skipped hmatches.skipped hkept log
  · rw [hd] at hstep
    rw [hstep] at heffect ⊢
    rw [storedBy_self]
    exact h.own hi hk heffect h.paced.skipped trivial hkept log
  · rw [hd] at hstep
    rw [hstep] at heffect ⊢
    rw [storedBy_previewed hi.keyed hrun]
    refine h.own hi hk heffect (h.paced.written hmatches hwait hnew) (hmatches.written _) (fun r' hr' hid => ?_) log
    obtain ⟨r, hr, rfl⟩ := Table.mem_update.1 hr'
    obtain ⟨q, hq, haccepts⟩ := hrun
    have hrid : r.id = k.runId := by
      rw [← hid]
      split <;> rfl
    have hrq : r = q := hi.keyed.eq hr hq (hrid.trans haccepts.1.1.symm)
    have haccepts' : Answers.AcceptsPreview now k.runId k.token r := by
      rw [hrq]
      exact haccepts
    rw [if_pos haccepts']
    show r.previewRevision + 1 = _
    rw [h.revision k hk r hr hrid]
    simp [Stream.delivered]

/-- What goes through the writer of worker `i` at an action. -/
def observe (env : Env) (now : Time) (i : Nat) (s : Chat) (a : Action) (db : Db) (g : Stream) : Stream :=
  match a with
  | .workerStep j (.delta value clock) =>
    match s.workers[j]? with
    | some k =>
      if j = i ∧ k.preview.isSome then
        g.delivered value clock (storedBy k.runId s.tables (step env now a db s).tables)
      else g
    | none => g
  | _ => g

theorem observe_of_not {a : Action} (ha : ∀ j value clock, a ≠ .workerStep j (.delta value clock)) :
    observe env now i s a db g = g := by
  unfold observe
  split
  · exact absurd rfl (ha _ _ _)
  · rfl

/-- Nothing goes through the writer unless a delta comes to the worker while it streams. -/
theorem observe_idle {j : Nat} {input : Answers.Input}
    (h : ∀ value clock, input = .delta value clock → ∀ k, s.workers[j]? = some k → ¬ (j = i ∧ k.preview.isSome)) :
    observe env now i s (.workerStep j input) db g = g := by
  cases input with
  | delta value clock =>
    unfold observe
    dsimp only
    split
    · exact if_neg (h value clock rfl _ ‹_›)
    · rfl
  | _ => rfl

theorem observe_delta {value : Text} {clock : Time} (hk : s.workers[i]? = some k) (hp : k.preview.isSome) :
    observe env now i s (.workerStep i (.delta value clock)) db g =
      g.delivered value clock
        (storedBy k.runId s.tables (Chat.step env now (.workerStep i (.delta value clock)) db s).tables) := by
  unfold observe
  dsimp only
  rw [hk]
  exact if_pos ⟨rfl, hp⟩

theorem Watched.step (h : Watched env i s g) (hi : RunInv w s) (a : Action) (hf : ∀ x ∈ a.ids, x ∉ w.issued) :
    Watched env i (step env now a db s) (observe env now i s a db g) := by
  by_cases ha : ∃ j input, a = .workerStep j input
  swap
  · rw [not_exists] at ha
    have ha' : ∀ j input, a ≠ .workerStep j input := fun j input he => ha j ⟨input, he⟩
    rw [observe_of_not fun j value clock => ha' j _]
    exact h.frame now hi hf (step_keeps hi hf ha') (step_workers ha')
  obtain ⟨j, input, rfl⟩ := ha
  cases hk : s.workers[j]? with
  | none =>
    have hstep : Chat.step env now (.workerStep j input) db s = s := by
      show workerStep env now j input db s = s
      unfold workerStep
      rw [hk]
    rw [hstep, observe_idle fun _ _ _ k hk' => by cases hk.symm.trans hk']
    exact h
  | some k =>
    by_cases hlock : ∃ conversationId ∈ k.pc.waits input, Locked env s conversationId
    · have hstep : Chat.step env now (.workerStep j input) db s = s := by
        show workerStep env now j input db s = s
        unfold workerStep
        rw [hk]
        exact if_pos hlock
      rw [hstep, observe_of_not]
      · exact h
      · intro j' value clock he
        cases he
        obtain ⟨_, hw, -⟩ := hlock
        unfold Runs.Pc.waits at hw
        split at hw
        · rename_i hin
          cases hin
        · cases hw
    have hstep : Chat.step env now (.workerStep j input) db s =
        { s with
          tables := (k.step env now input db s.tables).2
          workers := s.workers.set j { k with pc := (k.step env now input db s.tables).1 }
          log := s.log ++ ((k.step env now input db s.tables).2.receipts.drop s.tables.receipts.length).map .committed ++
            ((k.providerCall input).map (.called k.runId ·)).toList } := by
      show workerStep env now j input db s = _
      unfold workerStep
      rw [hk]
      exact if_neg hlock
    by_cases hji : j = i
    swap
    · rw [hstep, observe_idle fun _ _ _ _ _ hc => hji hc.1]
      exact h.other hi hk hji (k.step_effect env now input db s.tables) _
    subst hji
    by_cases hdelta : ∃ value clock, input = .delta value clock ∧ k.preview.isSome
    · obtain ⟨value, clock, rfl, hsome⟩ := hdelta
      obtain ⟨p, hp⟩ := Option.isSome_iff_exists.1 hsome
      rw [observe_delta hk hsome, hstep]
      exact h.streamed hi hk hp value clock _
    · have hno : ∀ value clock, input = .delta value clock → k.preview = none := fun value clock hin => by
        cases hp : k.preview with
        | none => rfl
        | some p => exact absurd ⟨value, clock, hin, hp ▸ rfl⟩ hdelta
      have hidle : ∀ value clock, input = .delta value clock → ∀ k', s.workers[j]? = some k' →
          ¬ (j = j ∧ k'.preview.isSome) := fun value clock hin k' hk' hc => by
        cases hk.symm.trans hk'
        exact hdelta ⟨value, clock, hin, hc.2⟩
      rw [hstep, observe_idle hidle]
      exact h.quiet hi hk hno _

end Chat

/-! ### Whole runs -/

/-- `AnswerPreview`. -/
structure AnswerPreview where
  runId : Uuid
  revision : Nat
  text : Text
  bounded : revision ≤ 256
  fits : text.length ≤ 8000

/-- The validation of the fields; `none` is a validation error. -/
def AnswerPreview.validate (runId : Uuid) (revision : Nat) (text : Text) : Option AnswerPreview :=
  if h : revision ≤ 256 ∧ text.length ≤ 8000 then some ⟨runId, revision, text, h.1, h.2⟩ else none

namespace System
variable {env : Env}

/-- What goes through the writer of worker `i` at an action of the system. -/
def observe (env : Env) (i : Nat) (s : System) : Action → Stream → Stream
  | .chat a, g => if Fresh s.world.issued a.ids then Chat.observe env s.world.clock i s.chat a s.jobs.db g else g
  | _, g => g

/-- What went through the writer of worker `i` in a run. -/
def stream (env : Env) (i : Nat) (acts : List Action) : Stream :=
  (((machine env).watch (observe env i) .empty).run acts).2

theorem watched_step {i : Nat} {g : Stream} (s : System) (a : Action) (hi : ChatInv env s)
    (h : Chat.Watched env i s.chat g) : Chat.Watched env i (step env s a).chat (observe env i s a g) := by
  cases a with
  | tick elapsed => exact h
  | jobs a =>
    simp only [step]
    split
    · have hkeeps : s.chat.tables.Keeps [] (s.cascade a).tables ∧ (s.cascade a).workers = s.chat.workers := by
        unfold cascade
        split
        · unfold Chat.removeRepository
          split
          · exact ⟨.of_eq rfl, rfl⟩
          · exact ⟨.of_sub fun r hr => List.mem_of_mem_filter hr, rfl⟩
        · exact ⟨.of_eq rfl, rfl⟩
      exact h.frame s.world.clock hi.runs (List.forall_mem_nil _) hkeeps.1 (.inl hkeeps.2)
    · exact h
  | chat a =>
    simp only [step, observe]
    split
    · rename_i hfr
      exact h.step hi.runs a hfr.2
    · exact h

theorem watched (env : Env) (i : Nat) (acts : List Action) :
    Chat.Watched env i (run env acts).chat (stream env i acts) := by
  have hrun := (machine env).watch_run (observe env i) Stream.empty acts
  have hboth : ChatInv env (((machine env).watch (observe env i) .empty).run acts).1 ∧
      Chat.Watched env i (((machine env).watch (observe env i) .empty).run acts).1.chat (stream env i acts) :=
    Machine.invariant (m := (machine env).watch (observe env i) .empty)
      (P := fun p => ChatInv env p.1 ∧ Chat.Watched env i p.1.chat p.2)
      ⟨chatInv env [], Chat.Watched.empty env i⟩
      (fun p a h => ⟨chatInv_step p.1 a h.1, watched_step p.1 a h.1 h.2⟩) acts
  rw [hrun] at hboth
  exact hboth.2

/-- What is promised of the previews of worker `i`, when `g` went through its writer. -/
structure Previewed (env : Env) (i : Nat) (s : System) (g : Stream) : Prop where
  /-- Writes are a quarter of a second apart, and no two in a row store the same text. -/
  apart : g.writes.IsChain fun a b => a.clock + 250000 ≤ b.clock ∧ a.text ≠ b.text
  /-- What is stored is the preview of a prefix of the output, and can be stored. -/
  shown : ∀ w ∈ g.writes, Storable w.text ∧ ∃ raw, raw <+: g.output ∧ w.text = previewText env raw
  /-- The revision counts the writes. -/
  revision : ∀ k ∈ s.chat.workers[i]?, ∀ r ∈ s.chat.tables.runs, r.id = k.runId → r.previewRevision = g.writes.length
  /-- Within the deadline there are at most 241 writes. -/
  few : Stream.Within g.readings → g.writes.length ≤ 241
  /-- Within the deadline a delta to a run that is running under the worker's lease is not refused. -/
  accepted : ∀ k ∈ s.chat.workers[i]?, ∀ p ∈ k.preview, ∀ now value clock, Stream.Within (g.readings ++ [clock]) →
    (∃ r ∈ s.chat.tables.runs, Tables.Held now k.runId k.token r) →
      Answers.delta env now k.runId k.token value clock p s.chat.tables ≠ .error Stream.stopped
  /-- The columns of every run pass the checks of the table and of the schema, with and without the text. -/
  checked : ∀ r ∈ s.chat.tables.runs, Storable r.previewText ∧ r.previewRevision ≤ 256 ∧
    ∀ live : Bool, (AnswerPreview.validate r.id r.previewRevision (if live then r.previewText else [])).isSome

/-- In every run of the system, for every worker. -/
theorem previews_bounded (env : Env) (i : Nat) (acts : List Action) :
    Previewed env i (run env acts) (stream env i acts) := by
  have h := watched env i acts
  refine ⟨h.paced.apart, fun w hw => ?_, fun k hk => h.revision k hk, h.paced.length_le,
    fun k hk p hp now value clock hwithin hheld => ?_, fun r hr => ?_⟩
  · obtain ⟨raw, hraw, ht⟩ := h.paced.shown w hw
    rw [ht]
    exact ⟨storable env raw, raw, hraw, rfl⟩
  · have hbefore : Stream.Within (stream env i acts).readings := fun a ha b hb =>
      hwithin a (List.mem_append_left _ ha) b (List.mem_append_left _ hb)
    have hfew := h.paced.length_le hbefore
    obtain ⟨r, hr, hheld⟩ := hheld
    have hrevision := h.revision k hk r hr hheld.1
    have haccepts : ∃ r ∈ (run env acts).chat.tables.runs, Answers.AcceptsPreview now k.runId k.token r :=
      ⟨r, hr, hheld, by omega⟩
    rcases Stream.delta_cases env now k.runId k.token value clock p (run env acts).chat.tables with
      hd | hd | ⟨-, hno⟩ | ⟨hd, -⟩
    · rw [hd]
      simp [Stream.stopped]
    · rw [hd]
      exact nofun
    · exact absurd haccepts hno
    · rw [hd]
      exact nofun
  · obtain ⟨hrevision, htext⟩ := h.fits r hr
    refine ⟨htext, hrevision, fun live => ?_⟩
    unfold AnswerPreview.validate
    rw [dif_pos]
    · rfl
    · cases live with
      | true => exact ⟨hrevision, htext.1⟩
      | false => exact ⟨hrevision, Nat.zero_le _⟩

end System
end RepoPilot
