import RepoPilot.History
import RepoPilot.Pages
import RepoPilot.Previews
import RepoPilot.Terms

/-! # What a conversation remembers

A snapshot reads a transcript backwards, two messages at a time, and stops at the first exchange it may not
remember. `Told`: what is saved is a question of a turn and an answer that makes claims if it answers, so that
every exchange can be read again. -/

namespace RepoPilot
open Generation

/-! ### The last elements that pass -/

section Block
variable {α : Type} {p : α → Bool} {xs ys : List α}

theorem prefix_takeWhile (h : ys <+: xs) (hp : ∀ y ∈ ys, p y = true) : ys <+: xs.takeWhile p := by
  obtain ⟨zs, rfl⟩ := h
  rw [List.takeWhile_append_of_pos hp]
  exact List.prefix_append _ _

/-- Read backwards until an element does not pass: the longest end of at most `n` elements that all pass. -/
theorem longest_takeWhile (p : α → Bool) (n : Nat) (xs : List α) :
    Longest (fun ys => ys.length ≤ n ∧ ∀ y ∈ ys, p y = true) xs ((xs.reverse.take n).takeWhile p).reverse where
  ending := by
    have hpre : (xs.reverse.take n).takeWhile p <+: xs.reverse :=
      (List.takeWhile_prefix p).trans (List.take_prefix n _)
    rw [← List.reverse_reverse xs, List.reverse_suffix, List.reverse_reverse]
    exact hpre
  passes := by
    refine ⟨?_, fun y hy => List.mem_takeWhile_imp (List.mem_reverse.1 hy)⟩
    rw [List.length_reverse]
    exact (List.takeWhile_prefix p).length_le.trans (List.length_take_le _ _)
  longest := by
    rintro ys hys ⟨hlength, hp⟩
    have hpre : ys.reverse <+: xs.reverse := List.reverse_prefix.2 hys
    have htake : ys.reverse <+: xs.reverse.take n := by
      refine List.prefix_of_prefix_length_le hpre (List.take_prefix n _) ?_
      have hle := hpre.length_le
      rw [List.length_take, List.length_reverse]
      rw [List.length_reverse] at hle
      omega
    have h := (prefix_takeWhile htake fun y hy => hp y (List.mem_reverse.1 hy)).length_le
    rwa [List.length_reverse] at h ⊢

end Block

/-! ### Answers that are saved -/

/-- A question that a turn can hold. -/
def Sized (question : Text) : Prop := 1 ≤ question.length ∧ question.length ≤ 512

/-- An answer that answers makes claims. -/
def Claiming (answer : AnswerResponse) : Prop := answer.status = .answered → answer.claims ≠ []

/-- The texts of the claims, a line each. -/
def claimsText (answer : AnswerResponse) : Text := "\n".toList.intercalate (answer.claims.map (·.text))

theorem claimsText_ne_nil {answer : AnswerResponse} (h : answer.claims ≠ []) : claimsText answer ≠ [] := by
  unfold claimsText
  cases hclaims : answer.claims with
  | nil => exact absurd hclaims h
  | cons c cs =>
    intro hnil
    have hlength := c.textLength.1
    cases cs <;> simp_all [List.intercalate]

theorem claiming_of_respond {env : Env} {settings : Settings} {answerId : Uuid} {retrieved : Retrieved}
    {result : Option GenerationResult} {history included : List HistoryTurn} {answer : AnswerResponse}
    (h : respond env settings answerId retrieved result history included = some answer) : Claiming answer := by
  unfold respond at h
  split at h
  · cases h
    intro hstatus
    change statusOf result = .answered at hstatus
    show claimsOf result ≠ []
    cases result with
    | none => cases hstatus
    | some r =>
      unfold statusOf at hstatus
      unfold claimsOf
      cases hdraft : r.draft with
      | none => simp [hdraft] at hstatus
      | some d =>
        simp only [hdraft] at hstatus
        rw [Option.bind_some, hdraft]
        refine d.answered.1 ?_
        by_contra hnot
        rw [if_neg hnot] at hstatus
        cases hstatus
  · cases h

/-! ### Answers that are read again -/

/-- `AnswerResponse.model_validate` of a stored answer: the fields with bounds are checked again. -/
def Generation.AnswerResponse.validate (answer : AnswerResponse) (claims : List (Text × List Text))
    (historyTurnIds : List Uuid) (historyTokens : Int) : Option AnswerResponse :=
  (claims.mapM Generation.Claim.validate).bind fun claims =>
    if h : historyTurnIds.length ≤ 3 ∧ 0 ≤ historyTokens ∧ historyTokens ≤ 1000 then
      some
        { answer with
          claims := claims
          historyTurnIds := historyTurnIds
          historyTokens := historyTokens.toNat
          turnCount := h.1
          turnTokens := Int.toNat_le.2 h.2.2 }
    else none

/-- What is read of an answer that was dumped. -/
def Generation.AnswerResponse.revalidate (answer : AnswerResponse) : Option AnswerResponse :=
  answer.validate (answer.claims.map fun c => (c.text, c.citationIds)) answer.historyTurnIds answer.historyTokens

theorem validate_claims (claims : List Generation.Claim) :
    (claims.map fun c => (c.text, c.citationIds)).mapM Generation.Claim.validate = some claims := by
  induction claims with
  | nil => rfl
  | cons c cs ih =>
    have hc : Generation.Claim.validate (c.text, c.citationIds) = some c := dif_pos ⟨c.textLength, c.citationCount⟩
    rw [List.map_cons, List.mapM_cons, hc, ih]
    rfl

theorem revalidate_eq (answer : AnswerResponse) : answer.revalidate = some answer := by
  have hbounds : answer.historyTurnIds.length ≤ 3 ∧ (0 : Int) ≤ answer.historyTokens ∧
      (answer.historyTokens : Int) ≤ 1000 :=
    ⟨answer.turnCount, Int.natCast_nonneg _, Int.ofNat_le.2 answer.turnTokens⟩
  unfold AnswerResponse.revalidate AnswerResponse.validate
  rw [validate_claims, Option.bind_some]
  exact dif_pos hbounds

namespace Answers
variable {env : Env} {now : Time} {c : Call} {input : Input} {pc pc' : Pc} {db : Db} {t t' : Tables}

def Pc.Claiming : Pc → Prop
  | .answered answer => RepoPilot.Claiming answer
  | _ => True

theorem Pc.Raising.claiming (h : pc.Raising) : pc.Claiming := by
  cases pc <;> first | exact trivial | cases h

theorem Selected.claiming {plan : Plan} {channels : List (String × List Uuid)} (h : Selected c plan channels pc) :
    pc.Claiming := by
  cases h with
  | raised h => exact h.claiming
  | keyword | hybrid => exact trivial

theorem Embedded.claiming {plan : Plan} {channels : List (String × List Uuid)} {p : EmbeddingProvider}
    {response : EmbeddingBatch} (h : Embedded plan channels p response pc) : pc.Claiming := by
  cases h with
  | raised h => exact h.claiming
  | used => exact trivial

theorem Retrieving.claiming {retrieved : Retrieved} (h : Retrieving env c retrieved pc) : pc.Claiming := by
  cases h with
  | raised h => exact h.claiming
  | empty hs h => exact claiming_of_respond h
  | found => exact trivial

theorem Concluding.claiming {retrieved : Retrieved} {included : List HistoryTurn} {result : GenerationResult}
    (h : Concluding env c retrieved included result pc) : pc.Claiming := by
  cases h with
  | raised h => exact h.claiming
  | answered hc h => exact claiming_of_respond h

theorem Effect.claiming (h : Effect env now c input pc db t pc' t') (hp : pc.Claiming) : pc'.Claiming := by
  cases h with
  | idle => exact hp
  | raised h => exact h.claiming
  | selected hpc h => exact h.claiming
  | finishedEmbedding hpc hf h => exact h.claiming
  | loaded hpc hf h => exact h.claiming
  | finishedGeneration hpc hf h => exact h.claiming
  | _ => exact trivial

end Answers

/-! ### Processes -/

/-- What a question will save. -/
def Ask.Telling (p : Ask) : Prop :=
  match p.pc with
  | .answering _ pc => pc.Claiming
  | .append answer => Claiming answer
  | _ => True

/-- What a worker will save. -/
def Runs.Worker.Telling (k : Runs.Worker) : Prop :=
  match k.pc with
  | .answering _ question _ pc => Sized question ∧ pc.Claiming
  | .publish _ question _ answer => Sized question ∧ Claiming answer
  | _ => True

/-- What a message holds. -/
structure Message.Told (m : Message) : Prop where
  question : m.role = .user → Sized m.content
  answer : m.role = .assistant → ∃ answer, m.answer = some answer ∧ Claiming answer

theorem Ask.Telling.step {env : Env} {now : Time} {p : Ask} {input : Answers.Input} {db : Db} {t : Tables}
    (h : p.Telling) : ({ p with pc := (p.step env now input db t).1 } : Ask).Telling := by
  have heffect := Ask.step_effect env now p input db t
  generalize (p.step env now input db t).1 = pc' at heffect ⊢
  generalize (p.step env now input db t).2 = t' at heffect
  cases heffect with
  | idle => exact h
  | ended | began | appended => exact trivial
  | @answering repositoryId pc pc' t' hpc heffect =>
    unfold Telling at h
    rw [hpc] at h
    have hclaiming := heffect.claiming h
    cases pc' <;> exact hclaiming

theorem Runs.load_telling {env : Env} {k : Runs.Worker} {t : Tables} :
    ({ k with pc := Runs.load env k t } : Runs.Worker).Telling := by
  have hfail : ∀ e, ({ k with pc := Runs.handler e } : Runs.Worker).Telling := fun e => by cases e <;> exact trivial
  unfold Runs.load
  split
  · exact trivial
  · split
    · exact trivial
    · split
      · exact trivial
      · split
        · exact hfail _
        · rename_i request hv
          split
          · exact hfail _
          · obtain ⟨text, hu, -⟩ := Option.map_eq_some_iff.1 hv
            unfold usable at hu
            split at hu
            · rename_i hchecks
              exact ⟨⟨hchecks.1, hchecks.2.1⟩, trivial⟩
            · cases hu

theorem Runs.Worker.Telling.step {env : Env} {now : Time} {k : Runs.Worker} {input : Answers.Input} {db : Db}
    {t : Tables} (h : k.Telling) : ({ k with pc := (k.step env now input db t).1 } : Runs.Worker).Telling := by
  have hfail : ∀ e, ({ k with pc := Runs.handler e } : Runs.Worker).Telling := fun e => by cases e <;> exact trivial
  have hsame : ({ k with pc := k.pc } : Runs.Worker).Telling := h
  unfold Runs.Worker.step
  split
  · exact Runs.load_telling
  · rename_i conversationId question call pc hpc
    unfold Telling at h
    rw [hpc] at h
    have hresume : ∀ pc' : Answers.Pc, pc'.Claiming →
        ({ k with pc := Pc.resume conversationId question call pc' } : Runs.Worker).Telling := by
      intro pc' hclaiming
      cases pc' with
      | raised e => exact hfail e
      | _ => exact ⟨h.1, hclaiming⟩
    exact hresume _ ((Answers.step_effect env now call _ pc db t).claiming h.2)
  · split
    · exact trivial
    · rename_i e _
      exact hfail (.app e)
    · exact trivial
  · exact trivial
  · exact hsame
  · exact hsame
  · exact hsame
  · exact hfail _
  · exact hsame

/-! ### Every action -/

namespace Chat
variable {env : Env} {now : Time} {w : World} {db : Db} {s : Chat} {a : Action}

/-- What is saved, and what the processes will save. -/
structure ToldInv (s : Chat) : Prop where
  requests : ∀ p ∈ s.asks, Sized p.request.question
  asks : ∀ p ∈ s.asks, p.Telling
  workers : ∀ k ∈ s.workers, k.Telling
  messages : ∀ m ∈ s.tables.messages, m.Told

theorem ToldInv.empty : ToldInv Chat.empty :=
  ⟨List.forall_mem_nil _, List.forall_mem_nil _, List.forall_mem_nil _, List.forall_mem_nil _⟩

/-- A question is new and was accepted, or it has made a step. -/
theorem step_asks {p' : Ask} (hp : p' ∈ (step env now a db s).asks) :
    p' ∈ s.asks ∨ ((∃ text, usable env text = some p'.request.question) ∧ p'.pc = .owned) ∨
      ∃ p ∈ s.asks, ∃ input, p' = { p with pc := (p.step env now input db s.tables).1 } := by
  cases a with
  | ask settings embedder model userId conversationId question mode answerId =>
    simp only [step] at hp
    split at hp
    · exact .inl hp
    · rename_i request hv
      obtain ⟨text, hu, rfl⟩ := Option.map_eq_some_iff.1 hv
      rcases List.mem_append.1 hp with hp | hp
      · exact .inl hp
      · rw [List.mem_singleton.1 hp]
        exact .inr (.inl ⟨⟨question, hu⟩, rfl⟩)
  | askStep i input =>
    simp only [step, askStep] at hp
    split at hp
    · exact .inl hp
    · rename_i p hi
      split at hp
      · exact .inl hp
      · rcases Table.mem_set_cases hp with rfl | ⟨j, -, hj⟩
        · exact .inr (.inr ⟨p, Table.mem_of_getElem? hi, input, rfl⟩)
        · exact .inl (Table.mem_of_getElem? hj)
  | submitStep i input =>
    simp only [step, submitStep] at hp
    split at hp
    · exact .inl hp
    · split at hp <;> exact .inl hp
  | workerStep i input =>
    simp only [step, workerStep] at hp
    split at hp
    · exact .inl hp
    · split at hp <;> exact .inl hp
  | create userId repositoryId conversationId title limit =>
    simp only [step] at hp
    split at hp
    · exact .inl hp
    · split at hp <;> exact .inl hp
  | deliver settings embedder model streaming runId token =>
    simp only [step, deliver] at hp
    split at hp <;> exact .inl hp
  | dispatch => exact .inl hp
  | _ =>
    simp only [step] at hp
    split at hp <;> exact .inl hp

/-- A worker is new, or it has made a step. -/
theorem step_workers_cases {k' : Runs.Worker} (hk : k' ∈ (step env now a db s).workers) :
    k' ∈ s.workers ∨ k'.pc = .load ∨
      ∃ k ∈ s.workers, ∃ input, k' = { k with pc := (k.step env now input db s.tables).1 } := by
  by_cases hown : ∃ i input, a = .workerStep i input
  · obtain ⟨i, input, rfl⟩ := hown
    simp only [step, workerStep] at hk
    split at hk
    · exact .inl hk
    · rename_i k hi
      split at hk
      · exact .inl hk
      · rcases Table.mem_set_cases hk with rfl | ⟨j, -, hj⟩
        · exact .inr (.inr ⟨k, Table.mem_of_getElem? hi, input, rfl⟩)
        · exact .inl (Table.mem_of_getElem? hj)
  · have hother : (step env now a db s).workers = s.workers ∨ _ := step_workers fun j input he => hown ⟨j, input, he⟩
    rcases hother with he | ⟨k, hload, -, he⟩
    · exact .inl (he ▸ hk)
    · rw [he] at hk
      rcases List.mem_append.1 hk with hk | hk
      · exact .inl hk
      · exact .inr (.inl (List.mem_singleton.1 hk ▸ hload))

theorem told_of_pair {conversationId : Uuid} {count : Nat} {question : Text} {answer : AnswerResponse} {m : Message}
    (hq : Sized question) (ha : Claiming answer) (hm : m ∈ Tables.pair conversationId count question answer) : m.Told := by
  unfold Tables.pair at hm
  rcases List.mem_cons.1 hm with rfl | hm
  · exact ⟨fun _ => hq, fun h => nomatch h⟩
  · rw [List.mem_singleton.1 hm]
    exact ⟨fun h => (nomatch h), fun _ => ⟨answer, rfl, ha⟩⟩

theorem ToldInv.step (h : ToldInv s) (hi : RunInv w s) (hf : ∀ i ∈ a.ids, i ∉ w.issued)
    (hq : ∀ text question, usable env text = some question → Sized question) : ToldInv (step env now a db s) where
  requests := by
    intro p' hp'
    rcases step_asks hp' with hp | ⟨⟨text, hu⟩, -⟩ | ⟨p, hp, input, rfl⟩
    · exact h.requests p' hp
    · exact hq text _ hu
    · exact h.requests p hp
  asks := by
    intro p' hp'
    rcases step_asks hp' with hp | ⟨-, hpc⟩ | ⟨p, hp, input, rfl⟩
    · exact h.asks p' hp
    · unfold Ask.Telling
      rw [hpc]
      exact trivial
    · exact (h.asks p hp).step
  workers := by
    intro k' hk'
    rcases step_workers_cases hk' with hk | hload | ⟨k, hk, input, rfl⟩
    · exact h.workers k' hk
    · unfold Runs.Worker.Telling
      rw [hload]
      exact trivial
    · exact (h.workers k hk).step
  messages := by
    intro m hm
    rcases (written hi hf (step_effect env now a db s)).messages hm with
      hold | ⟨k, hk, cid, question, call, answer, c, hpc, -, -, -, hpair⟩ | ⟨i, p, answer, c, hp, -, hpc, -, -, hpair⟩
    · exact h.messages m hold
    · have htelling := h.workers k hk
      unfold Runs.Worker.Telling at htelling
      rw [hpc] at htelling
      exact told_of_pair htelling.1 htelling.2 hpair
    · have hpm := Table.mem_of_getElem? hp
      have htelling := h.asks p hpm
      unfold Ask.Telling at htelling
      rw [hpc] at htelling
      exact told_of_pair (h.requests p hpm) htelling hpair

end Chat

namespace System
variable {u : Terms.Unicode} {env : Env}

structure RecallInv (u : Terms.Unicode) (env : Env) (s : System) : Prop where
  chat : ChatInv (Terms.withTerms u env) s
  told : s.chat.ToldInv

theorem recallInv_step (s : System) (a : Action) (h : RecallInv u env s) :
    RecallInv u env (step (Terms.withTerms u env) s a) := by
  refine ⟨chatInv_step s a h.chat, ?_⟩
  cases a with
  | tick elapsed => exact h.told
  | jobs a =>
    simp only [step]
    split
    · show (s.cascade a).ToldInv
      cases a with
      | removeRepository userId repositoryId =>
        simp only [cascade, Chat.removeRepository]
        split
        · exact h.told
        · exact ⟨h.told.requests, h.told.asks, h.told.workers, fun m hm => h.told.messages m (List.mem_of_mem_filter hm)⟩
      | _ => exact h.told
    · exact h.told
  | chat a =>
    simp only [step]
    split
    · rename_i hfresh
      exact h.told.step h.chat.runs hfresh.2 fun text question hu =>
        ⟨(Terms.usable_sized hu).1, (Terms.usable_sized hu).2.1⟩
    · exact h.told

theorem recallInv (u : Terms.Unicode) (env : Env) (acts : List Action) :
    RecallInv u env (run (Terms.withTerms u env) acts) :=
  Machine.invariant ⟨chatInv _ [], .empty⟩ recallInv_step acts

end System

/-! ### Exchanges -/

/-- A question and the answer after it. -/
abbrev Exchange := Message × Message

namespace Exchange

def messages (e : Exchange) : List Message := [e.1, e.2]

/-- Newest first. -/
def backwards (e : Exchange) : List Message := [e.2, e.1]

/-- A question of the user and its answer, in one turn. -/
structure Paired (e : Exchange) : Prop where
  user : e.1.role = .user
  assistant : e.2.role = .assistant
  turn : e.1.turnId = e.2.turnId
  position : e.2.position = e.1.position + 1

/-- An exchange that a question about this source may build on. -/
def Remembered (sourceId : Uuid) (e : Exchange) : Prop :=
  ∃ answer, e.2.answer = some answer ∧ answer.status = .answered ∧ answer.sourceIndexId = sourceId ∧
    (claimsText answer).length ≤ 8000

instance (sourceId : Uuid) : DecidablePred (Remembered sourceId) := fun e =>
  decidable_of_iff (e.2.answer.any (fun answer => answer.status = .answered ∧ answer.sourceIndexId = sourceId ∧
    (claimsText answer).length ≤ 8000) = true) (by simp [Remembered, Option.any_eq_true])

/-- The turn holds the question of the exchange and the claims of its answer. -/
structure Recalls (e : Exchange) (turn : HistoryTurn) : Prop where
  turnId : turn.turnId = e.2.turnId
  question : turn.question = e.1.content
  answer : ∃ answer, e.2.answer = some answer ∧ turn.answer = claimsText answer

end Exchange

/-- The messages of a transcript, two by two. -/
def exchanges : List Message → List Exchange
  | question :: answer :: rest => (question, answer) :: exchanges rest
  | _ => []

namespace Tables
variable {e : Exchange} {es : List Exchange} {ms : List Message} {count k n : Nat}

theorem exchanges_paired (hpositions : ms.map (·.position) = List.range' (2 * k + 1) (2 * n))
    (huser : ∀ m ∈ ms, m.position % 2 = 1 → m.role = .user)
    (hassistant : ∀ m ∈ ms, m.position % 2 = 0 → m.role = .assistant)
    (hshared : ∀ m ∈ ms, ∀ m' ∈ ms, ∀ k, m.position = 2 * k + 1 → m'.position = 2 * k + 2 → m.turnId = m'.turnId) :
    (exchanges ms).flatMap Exchange.messages = ms ∧ ∀ e ∈ exchanges ms, e.Paired := by
  induction n generalizing ms k with
  | zero =>
    obtain rfl := List.map_eq_nil_iff.1 hpositions
    exact ⟨rfl, List.forall_mem_nil _⟩
  | succ n ih =>
    rw [show 2 * (n + 1) = 2 * n + 1 + 1 by omega, List.range'_succ, List.range'_succ] at hpositions
    obtain ⟨q, ms, rfl, hq, hms⟩ := List.map_eq_cons_iff.1 hpositions
    obtain ⟨a, ms, rfl, ha, hms⟩ := List.map_eq_cons_iff.1 hms
    have hmem : ∀ m ∈ ms, m ∈ q :: a :: ms := fun m hm => List.mem_cons_of_mem _ (List.mem_cons_of_mem _ hm)
    have hrest := ih (k := k + 1) hms (fun m hm => huser m (hmem m hm)) (fun m hm => hassistant m (hmem m hm))
      fun m hm m' hm' => hshared m (hmem m hm) m' (hmem m' hm')
    have hqm : q ∈ q :: a :: ms := List.mem_cons_self
    have ham : a ∈ q :: a :: ms := List.mem_cons_of_mem _ List.mem_cons_self
    have hnext : a.position = q.position + 1 := by omega
    refine ⟨?_, List.forall_mem_cons.2 ⟨?_, hrest.2⟩⟩
    · show q :: a :: (exchanges ms).flatMap Exchange.messages = q :: a :: ms
      rw [hrest.1]
    · exact ⟨huser q hqm (by omega), hassistant a ham (by omega), hshared q hqm a ham k hq (by omega), hnext⟩

theorem Transcript.exchanges_paired (h : Transcript count ms) :
    (exchanges ms).flatMap Exchange.messages = ms ∧ ∀ e ∈ exchanges ms, e.Paired := by
  have heven := h.even
  have hpositions := h.positions
  rw [show count = 2 * (count / 2) by omega] at hpositions
  exact Tables.exchanges_paired (k := 0) hpositions h.user h.assistant h.shared

/-- The loop over one exchange. -/
theorem turns_cons (sourceId : Uuid) (hp : e.Paired) (hq : e.1.Told) (ha : e.2.Told) (rest : List Message) :
    Exchange.Remembered sourceId e ∧
        (∃ turn, e.Recalls turn ∧ turns sourceId (e.backwards ++ rest) = (turns sourceId rest).map (turn :: ·)) ∨
      ¬ Exchange.Remembered sourceId e ∧ turns sourceId (e.backwards ++ rest) = .ok [] := by
  obtain ⟨answer, hanswer, hclaiming⟩ := ha.answer hp.assistant
  have hguard : ¬ (e.2.role ≠ .assistant ∨ e.1.role ≠ .user ∨ e.2.turnId ≠ e.1.turnId ∨
      e.2.position ≠ e.1.position + 1) := by
    simp [hp.assistant, hp.user, hp.turn, hp.position]
  have hturns : turns sourceId (e.backwards ++ rest) =
      if answer.sourceIndexId ≠ sourceId ∨ answer.status ≠ .answered then .ok []
      else
        if claimsText answer = [] ∨ 8000 < (claimsText answer).length then .ok []
        else
          (HistoryTurn.validate e.2.turnId e.1.content (claimsText answer)).elim (.error .other) fun turn =>
            (turns sourceId rest).map (turn :: ·) := by
    show turns sourceId (e.2 :: e.1 :: rest) = _
    rw [turns, if_neg hguard, hanswer]
    unfold claimsText
    dsimp only
    cases HistoryTurn.validate e.2.turnId e.1.content ("\n".toList.intercalate (answer.claims.map (·.text))) <;> rfl
  rw [hturns]
  by_cases hsource : answer.sourceIndexId ≠ sourceId ∨ answer.status ≠ .answered
  · rw [if_pos hsource]
    refine .inr ⟨?_, rfl⟩
    rintro ⟨a, ha', hstatus, hid, -⟩
    obtain rfl : answer = a := Option.some.inj (hanswer.symm.trans ha')
    exact hsource.elim (fun h => h hid) fun h => h hstatus
  · rw [if_neg hsource]
    rw [not_or, not_not, not_not] at hsource
    have hsome := claimsText_ne_nil (hclaiming hsource.2)
    by_cases hlong : 8000 < (claimsText answer).length
    · rw [if_pos (.inr hlong)]
      refine .inr ⟨?_, rfl⟩
      rintro ⟨a, ha', -, -, hshort⟩
      obtain rfl : answer = a := Option.some.inj (hanswer.symm.trans ha')
      exact absurd hshort (Nat.not_le.2 hlong)
    · have hshort := Nat.not_lt.1 hlong
      have hchecks : (1 ≤ e.1.content.length ∧ e.1.content.length ≤ 512) ∧ 1 ≤ (claimsText answer).length ∧
          (claimsText answer).length ≤ 8000 :=
        ⟨hq.question hp.user, List.length_pos_iff.2 hsome, hshort⟩
      rw [if_neg (not_or.2 ⟨hsome, hlong⟩), HistoryTurn.validate, dif_pos hchecks]
      exact .inl ⟨⟨answer, hanswer, hsource.2, hsource.1, hshort⟩,
        ⟨e.2.turnId, e.1.content, claimsText answer, hchecks.1, hchecks.2⟩, ⟨rfl, rfl, answer, hanswer, rfl⟩, rfl⟩

/-- The loop remembers up to the first exchange that may not be, and does not fail. -/
theorem turns_backwards (sourceId : Uuid) (hp : ∀ e ∈ es, e.Paired) (ht : ∀ e ∈ es, e.1.Told ∧ e.2.Told) :
    ∃ remembered, turns sourceId (es.flatMap Exchange.backwards) = .ok remembered ∧
      List.Forall₂ Exchange.Recalls (es.takeWhile (Exchange.Remembered sourceId ·)) remembered := by
  induction es with
  | nil => exact ⟨[], rfl, .nil⟩
  | cons e es ih =>
    rw [List.forall_mem_cons] at hp ht
    rw [List.flatMap_cons]
    rcases turns_cons sourceId hp.1 ht.1.1 ht.1.2 (es.flatMap Exchange.backwards) with
      ⟨hr, turn, hturn, hcons⟩ | ⟨hr, hnil⟩
    · obtain ⟨remembered, hrest, hrecalls⟩ := ih hp.2 ht.2
      rw [List.takeWhile_cons_of_pos (p := (Exchange.Remembered sourceId ·)) (decide_eq_true hr), hcons, hrest]
      exact ⟨turn :: remembered, rfl, .cons hturn hrecalls⟩
    · rw [List.takeWhile_cons_of_neg (p := (Exchange.Remembered sourceId ·)) (by simpa using hr)]
      exact ⟨[], hnil, .nil⟩

theorem take_backwards (es : List Exchange) (n : Nat) :
    (es.flatMap Exchange.backwards).take (2 * n) = (es.take n).flatMap Exchange.backwards := by
  induction es generalizing n with
  | nil => rw [List.flatMap_nil, List.take_nil, List.take_nil, List.flatMap_nil]
  | cons e es ih =>
    cases n with
    | zero => rfl
    | succ n =>
      rw [List.take_succ_cons, List.flatMap_cons, List.flatMap_cons, ← ih]
      rfl

/-- The six latest messages are the three latest exchanges. -/
theorem latest_eq {t : Tables} {conversationId : Uuid} (h : Transcript count (t.messagesOf conversationId)) :
    t.latest conversationId 6 =
      ((exchanges (t.messagesOf conversationId)).reverse.take 3).flatMap Exchange.backwards := by
  have hbackwards : (t.messagesOf conversationId).reverse =
      (exchanges (t.messagesOf conversationId)).reverse.flatMap Exchange.backwards := by
    rw [← congrArg List.reverse h.exchanges_paired.1, List.reverse_flatMap]
    rfl
  rw [← take_backwards, ← hbackwards, ← insertionSort_positions h.positions]
  rfl

end Tables

namespace System
variable {u : Terms.Unicode} {env : Env} {s : System}

/-- What a snapshot finds in a conversation: its messages are exchanges, numbered from one; it remembers the longest
end of at most three exchanges that all may be remembered, bounds it and does not fail. -/
structure Recalled (env : Env) (s : System) (c : Conversation) : Prop where
  exchanges : (exchanges (s.chat.tables.messagesOf c.id)).flatMap Exchange.messages = s.chat.tables.messagesOf c.id
  positions : (s.chat.tables.messagesOf c.id).map (·.position) =
    List.range' 1 (s.chat.tables.messagesOf c.id).length
  paired : ∀ e ∈ RepoPilot.exchanges (s.chat.tables.messagesOf c.id), e.Paired ∧
    ∃ answer, e.2.answer = some answer ∧ answer.revalidate = some answer
  snapshot : ∀ sourceId, ∃ block turns,
    Longest (fun es => es.length ≤ 3 ∧ ∀ e ∈ es, Exchange.Remembered sourceId e)
      (RepoPilot.exchanges (s.chat.tables.messagesOf c.id)) block ∧
    List.Forall₂ Exchange.Recalls block turns ∧
    s.chat.tables.snapshotHistory env s.jobs.db c.userId c.id sourceId = .ok (boundedHistory env turns)

theorem RecallInv.recalled (h : RecallInv u env s) {c : Conversation} (hc : c ∈ s.chat.tables.conversations)
    (howned : s.chat.tables.owned s.jobs.db c.userId c.id = .ok c) : Recalled (Terms.withTerms u env) s c := by
  have htranscript := h.chat.conversations.transcripts c hc
  obtain ⟨hmessages, hpaired⟩ := htranscript.exchanges_paired
  have htold : ∀ e ∈ exchanges (s.chat.tables.messagesOf c.id), e.1.Told ∧ e.2.Told := by
    intro e he
    have hmem : ∀ m ∈ e.messages, m.Told := by
      intro m hm
      have hin : m ∈ s.chat.tables.messagesOf c.id := hmessages ▸ List.mem_flatMap.2 ⟨e, he, hm⟩
      exact h.told.messages m (List.mem_of_mem_filter hin)
    exact ⟨hmem e.1 List.mem_cons_self, hmem e.2 (List.mem_cons_of_mem _ List.mem_cons_self)⟩
  refine ⟨hmessages, ?_, fun e he => ⟨hpaired e he, ?_⟩, fun sourceId => ?_⟩
  · rw [htranscript.positions, htranscript.length]
  · obtain ⟨answer, hanswer, -⟩ := (htold e he).2.answer (hpaired e he).assistant
    exact ⟨answer, hanswer, revalidate_eq answer⟩
  · have hback : ∀ e ∈ (exchanges (s.chat.tables.messagesOf c.id)).reverse.take 3,
        e ∈ exchanges (s.chat.tables.messagesOf c.id) :=
      fun e he => List.mem_reverse.1 (List.mem_of_mem_take he)
    obtain ⟨remembered, hturns, hrecalls⟩ := Tables.turns_backwards sourceId
      (fun e he => hpaired e (hback e he)) fun e he => htold e (hback e he)
    have hlongest := longest_takeWhile (Exchange.Remembered sourceId ·) 3 (exchanges (s.chat.tables.messagesOf c.id))
    simp only [decide_eq_true_eq] at hlongest
    refine ⟨_, remembered.reverse, hlongest, List.forall₂_reverse_iff.2 hrecalls, ?_⟩
    unfold Tables.snapshotHistory
    rw [howned, Tables.latest_eq htranscript, hturns]
    rfl

/-- After every run, whoever asks about a conversation: the snapshot of its history is refused if the conversation is
not theirs, and otherwise is what the conversation remembers, for every source. -/
theorem history_recalled (u : Terms.Unicode) (env : Env) (acts : List Action) (userId conversationId : Uuid) :
    let terms := Terms.withTerms u env
    let s := run terms acts
    match s.chat.tables.owned s.jobs.db userId conversationId with
    | .error e => ∀ sourceId,
      s.chat.tables.snapshotHistory terms s.jobs.db userId conversationId sourceId = .error (.app e)
    | .ok c => c.id = conversationId ∧ c.userId = userId ∧ Recalled terms s c := by
  intro terms s
  cases howned : s.chat.tables.owned s.jobs.db userId conversationId with
  | error e =>
    intro sourceId
    unfold Tables.snapshotHistory
    rw [howned]
    rfl
  | ok c =>
    obtain ⟨hc, hid, huser, -⟩ := Tables.owned_eq howned
    have hown : s.chat.tables.owned s.jobs.db c.userId c.id = .ok c := by
      rw [hid, huser]
      exact howned
    exact ⟨hid, huser, (recallInv u env acts).recalled hc hown⟩

end System

end RepoPilot
