import RepoPilot.JobChanges

/-! # The token budget of search preparation

What the attempts on a search index have passed to `provider.embed`, plus what workers hold reserved
and are about to pass, never exceeds the reservations of the row. Reservations never exceed the
budget, and a worker that passed the preflight and still holds its lease has room for everything it
has left to reserve. -/

namespace RepoPilot

namespace Searches
variable (env : Env)

/-- What the worker has reserved for the job `id` and is about to pass to the provider. -/
def Worker.owes (k : Worker) (id : Uuid) : Nat :=
  match k.pc with
  | .embed plan pending => if k.claim.jobId = id then plan.tokens env (head pending) else 0
  | _ => 0

/-- The tokens that still have to be reserved for these chunks. -/
def Plan.due (plan : Plan) (cs : List Db.SourceChunk) : Nat := if plan.mode = .hybrid then plan.tokens env cs else 0

/-- The tokens a worker has still to reserve. -/
def Pc.ahead : Pc → Nat
  | .reporting plan pending | .batch plan pending => plan.due env pending
  | .reserve plan pending => plan.tokens env (head pending) + plan.due env (pending.drop 8)
  | .embed plan pending | .embedding plan pending | .checkpoint plan pending _ _ => plan.due env (pending.drop 8)
  | _ => 0

/-- The tokens a step of the worker of `claim` passes to the provider for the job `id`. -/
def passed (claim : Claim) (pc : Pc) (input : Input) (id : Uuid) : Nat :=
  if claim.jobId = id then (embedCall env pc input).getD 0 else 0

variable {env} {now : Time} {claim : Claim} {provider : Option EmbeddingProvider} {input : Input} {pc pc' : Pc}
  {db db' : Db}

theorem Plan.tokens_split (plan : Plan) (pending : List Db.SourceChunk) :
    plan.tokens env pending = plan.tokens env (head pending) + plan.tokens env (pending.drop 8) := by
  unfold Plan.tokens head
  rw [← List.sum_append, ← List.map_append, List.take_append_drop]

theorem owes_of_ne {id : Uuid} (h : ∀ plan pending, pc ≠ .embed plan pending) :
    Worker.owes env ⟨claim, provider, pc⟩ id = 0 := by
  unfold Worker.owes
  split
  · exact absurd ‹_› (h _ _)
  · rfl

/-- A reservation is made on the one row it is for. -/
theorem reserve_row {tokens : Nat} (hk : Table.Keyed Job.id db.searches) (h : reserve now claim tokens db = some db')
    {r' : SearchIndex} (hr' : r' ∈ db'.searches) :
    ∃ r ∈ db.searches, r.id = r'.id ∧ r.leaseToken = r'.leaseToken ∧ r'.data.tokenBudget = r.data.tokenBudget ∧
      r'.data.reservedTokens = r.data.reservedTokens + if claim.jobId = r'.id then tokens else 0 := by
  obtain ⟨searches, hf, rfl⟩ := reserve_eq h
  obtain ⟨⟨q, hq, hl, ha⟩, ht⟩ := Job.fencedIf_isSome hf
  rw [ht] at hr'
  obtain ⟨r, hr, rfl⟩ := Table.mem_update.1 hr'
  by_cases hcond : Job.LeaseCondition now claim r ∧ Affordable tokens r
  · rw [if_pos hcond]
    refine ⟨r, hr, rfl, rfl, rfl, ?_⟩
    show r.data.reservedTokens + tokens = r.data.reservedTokens + if claim.jobId = r.id then tokens else 0
    rw [if_pos hcond.1.1.symm]
  · rw [if_neg hcond]
    refine ⟨r, hr, rfl, rfl, rfl, ?_⟩
    rw [if_neg, Nat.add_zero]
    intro hid
    have : q = r := hk.eq hq hr (hl.1.trans hid)
    exact hcond (this ▸ ⟨hl, ha⟩)

/-- A step spends and owes what it reserves, and no more. -/
theorem Effect.covers (h : Effect env now claim provider input pc db pc' db')
    (hk : Table.Keyed Job.id db.searches) {r' : SearchIndex} (hr' : r' ∈ db'.searches) :
    ∃ r ∈ db.searches, r.id = r'.id ∧
      Worker.owes env ⟨claim, provider, pc'⟩ r'.id + passed env claim pc input r'.id + r.data.reservedTokens ≤
        r'.data.reservedTokens + Worker.owes env ⟨claim, provider, pc⟩ r'.id := by
  obtain ⟨r, hr, hsame, hgrow⟩ := (h.changes.grown hr').resolve_right (by simp)
  have hle : r.data.reservedTokens ≤ r'.data.reservedTokens := hgrow.2.2.2.1
  have hquiet : (∀ plan pending, pc' ≠ .embed plan pending) → embedCall env pc input = none →
      ∃ r ∈ db.searches, r.id = r'.id ∧
        Worker.owes env ⟨claim, provider, pc'⟩ r'.id + passed env claim pc input r'.id + r.data.reservedTokens ≤
          r'.data.reservedTokens + Worker.owes env ⟨claim, provider, pc⟩ r'.id := by
    intro h1 h2
    refine ⟨r, hr, hsame.1.symm, ?_⟩
    rw [owes_of_ne h1, passed, h2, Option.getD_none, ite_self]
    omega
  cases h with
  | idle hc =>
    refine ⟨r, hr, hsame.1.symm, ?_⟩
    rw [passed, hc, Option.getD_none, ite_self]
    omega
  | stopped pc' h hc => exact hquiet (by rcases h with rfl | ⟨_, _, rfl⟩ <;> nofun) hc
  | loaded hpc hj hpre => exact hquiet nofun (by rw [hpc]; rfl)
  | reported hpc hr => exact hquiet nofun (by rw [hpc]; rfl)
  | emptied hpc => exact hquiet nofun (by rw [hpc]; rfl)
  | lexical hpc hp hm => exact hquiet nofun (by rw [hpc]; rfl)
  | semantic hpc hp hm => exact hquiet nofun (by rw [hpc]; rfl)
  | answered hpc hlen hsome => exact hquiet nofun (by rw [hpc]; rfl)
  | stored hpc hc => exact hquiet nofun (by rw [hpc]; rfl)
  | completed hpc hc => exact hquiet nofun (by rw [hpc]; rfl)
  | failed hpc => exact hquiet nofun (by rw [hpc]; rfl)
  | called hpc hin =>
    -- what was owed is spent
    subst hpc hin
    refine ⟨r, hr, hsame.1.symm, ?_⟩
    simp only [Worker.owes, passed, embedCall, Option.getD_some]
    omega
  | reserved hpc hres =>
    -- what is owed was just reserved
    obtain ⟨q, hq, hid, -, -, hqr⟩ := reserve_row hk hres hr'
    subst hpc
    refine ⟨q, hq, hid, ?_⟩
    rw [hqr]
    simp only [Worker.owes, passed, embedCall, Option.getD_none, ite_self]
    omega

/-- A worker that has room for all it has left to reserve keeps it. -/
theorem Effect.affords (h : Effect env now claim provider input pc db pc' db')
    (hk : Table.Keyed Job.id db.searches) {r' : SearchIndex} (hr' : r' ∈ db'.searches) (hid : r'.id = claim.jobId)
    (htok : r'.leaseToken = some claim.leaseToken) (hb : r'.data.reservedTokens ≤ r'.data.tokenBudget)
    (hpc : ∀ r ∈ db.searches, r.id = claim.jobId → r.leaseToken = some claim.leaseToken →
      r.data.reservedTokens + pc.ahead env ≤ r.data.tokenBudget) :
    r'.data.reservedTokens + pc'.ahead env ≤ r'.data.tokenBudget := by
  have hfence : ∀ {f : SearchIndex → SearchIndex} {t : List SearchIndex},
      Job.fenced now claim f db.searches = some t → r' ∈ t →
      (∀ r, (f r).id = r.id ∧ (f r).leaseToken = r.leaseToken ∧
        (f r).data.reservedTokens = r.data.reservedTokens ∧ (f r).data.tokenBudget = r.data.tokenBudget) →
      r'.data.reservedTokens + pc.ahead env ≤ r'.data.tokenBudget := by
    intro f t hf hm hsame
    obtain ⟨-, ht⟩ := Job.fencedIf_isSome hf
    rw [ht] at hm
    obtain ⟨r, hr, rfl⟩ := Table.mem_update.1 hm
    split at hid <;> rename_i hcond
    · rw [if_pos hcond] at htok ⊢
      obtain ⟨h1, h2, h3, h4⟩ := hsame r
      rw [h3, h4]
      exact hpc r hr (h1 ▸ hid) (h2 ▸ htok)
    · rw [if_neg hcond] at htok ⊢
      exact hpc r hr hid htok
  cases h with
  | idle hc => exact hpc r' hr' hid htok
  | stopped pc' h hc => rcases h with rfl | ⟨_, _, rfl⟩ <;> exact hb
  | loaded _ hj hpre =>
    have hjid := List.find?_some hj
    simp only [decide_eq_true_eq] at hjid
    have hjr := hk.eq (List.mem_of_find?_eq_some hj) hr' (hjid.trans hid.symm)
    subst hjr
    simp only [Pc.ahead, Plan.due]
    split
    · exact hpre ‹_›
    · exact hb
  | reported hp hr =>
    subst hp
    exact hfence hr hr' fun r => ⟨rfl, rfl, rfl, rfl⟩
  | emptied hp => exact hb
  | lexical hp hne hm =>
    simp only [Pc.ahead, Plan.due, hm]
    exact hb
  | semantic hp hne hm =>
    subst hp
    have := hpc r' hr' hid htok
    simp only [Pc.ahead, Plan.due, hm, if_true] at this ⊢
    rwa [Plan.tokens_split] at this
  | reserved hp hres =>
    obtain ⟨q, hq, hqid, hqtok, hqb, hqr⟩ := reserve_row hk hres hr'
    subst hp
    have := hpc q hq (hqid.trans hid) (hqtok.trans htok)
    rw [if_pos hid.symm] at hqr
    rw [hqr, hqb, Nat.add_assoc]
    exact this
  | called hp hin =>
    subst hp
    exact hpc r' hr' hid htok
  | answered hp hlen hsome =>
    subst hp
    exact hpc r' hr' hid htok
  | stored hp hc =>
    obtain ⟨searches, hf, rfl⟩ := checkpoint_eq hc
    subst hp
    exact hfence hf hr' fun r => ⟨rfl, rfl, rfl, rfl⟩
  | completed hp hc => exact hb
  | failed hp => exact hb

end Searches

namespace Jobs
variable {env : Env} {now : Time} {a : Action} {s : Jobs} {w w' : World}

/-- The preparation workers after an action: as before, with a new one, or one of them made a step.
Whoever is not one of them writes search indexes under no lease token. -/
theorem search_cases (env : Env) (now : Time) (a : Action) (s : Jobs) :
    ((step env now a s).searchWorkers = s.searchWorkers ∧ (step env now a s).embedCalls = s.embedCalls ∧
        ((actor now a s).token = none ∨ (step env now a s).db.searches = s.db.searches) ∧
        ∀ i input, a = .searchStep i input → s.searchWorkers[i]? = none) ∨
      (∃ jobId token provider p, a = .claimSearch jobId token provider ∧
        Job.claimJob now s.db.repositories jobId token s.db.searches = some p ∧
        step env now a s =
          { s with db.searches := p.1, searchWorkers := s.searchWorkers ++ [⟨p.2, provider, .load⟩] }) ∨
      ∃ i input k pc', a = .searchStep i input ∧ s.searchWorkers[i]? = some k ∧
        (step env now a s).searchWorkers = s.searchWorkers.set i ⟨k.claim, k.provider, pc'⟩ ∧
        (step env now a s).embedCalls =
          s.embedCalls ++ ((Searches.embedCall env k.pc input).map (k.claim.jobId, ·)).toList ∧
        Searches.Effect env now k.claim k.provider input k.pc s.db pc' (step env now a s).db := by
  by_cases hkind : a.kind = .imports ∨ a.kind = .indexes
  · refine .inl ⟨?_, ?_, .inr ?_, fun i input ha => by subst ha; simp [Action.kind] at hkind⟩
    · cases a <;> first | rfl | (simp [Action.kind] at hkind; done) | skip
      case claimImport jobId token => simp only [step, claimImport]; split <;> rfl
      case importStep i input => simp only [step, importStep]; split <;> rfl
      case claimIndex jobId token => simp only [step, claimIndex]; split <;> rfl
      case indexStep i input => simp only [step, indexStep]; split <;> rfl
    · cases a <;> first | rfl | (simp [Action.kind] at hkind; done) | skip
      case claimImport jobId token => simp only [step, claimImport]; split <;> rfl
      case importStep i input => simp only [step, importStep]; split <;> rfl
      case claimIndex jobId token => simp only [step, claimIndex]; split <;> rfl
      case indexStep i input => simp only [step, indexStep]; split <;> rfl
    · rcases hkind with hk | hk
      · exact (frame_imports _ _ _ hk).2.2.2.1
      · exact (frame_indexes _ _ _ hk).2.2.2.1
  cases a <;> try (simp [Action.kind] at hkind; done)
  case claimSearch jobId token provider =>
    simp only [step, claimSearch]
    split
    · rename_i p hp
      exact .inr (.inl ⟨jobId, token, provider, p, rfl, hp, rfl⟩)
    · exact .inl ⟨rfl, rfl, .inl rfl, by rintro _ _ ⟨⟩⟩
  case searchStep i input =>
    simp only [step, searchStep]
    split
    · rename_i k hk
      exact .inr (.inr ⟨i, input, k, _, rfl, hk, rfl, rfl,
        Searches.step_effect env now k.claim k.provider input k.pc s.db⟩)
    · rename_i hk
      refine .inl ⟨rfl, rfl, .inr rfl, fun j input' ha => ?_⟩
      cases ha
      exact hk
  all_goals exact .inl ⟨rfl, rfl, .inl rfl, by rintro _ _ ⟨⟩⟩

/-- The tokens passed to `provider.embed` for the job `id`, by all attempts. -/
def spent (s : Jobs) (id : Uuid) : Nat := ((s.embedCalls.filter (·.1 = id)).map Prod.snd).sum

/-- The tokens workers have reserved for the job `id` and are about to pass. -/
def owed (env : Env) (s : Jobs) (id : Uuid) : Nat := (s.searchWorkers.map (·.owes env id)).sum

/-- Every token spent was reserved, and every reservation is within the budget. -/
structure BudgetInv (env : Env) (w : World) (s : Jobs) : Prop where
  tokens : Table.Keyed (·.claim.leaseToken) s.searchWorkers
  calls : ∀ p ∈ s.embedCalls, p.1 ∈ w.issued
  covered : ∀ r ∈ s.db.searches, s.spent r.id + s.owed env r.id ≤ r.data.reservedTokens
  within : ∀ r ∈ s.db.searches, r.data.reservedTokens ≤ r.data.tokenBudget
  ahead : ∀ k ∈ s.searchWorkers, ∀ r ∈ s.db.searches, r.id = k.claim.jobId →
    r.leaseToken = some k.claim.leaseToken → r.data.reservedTokens + k.pc.ahead env ≤ r.data.tokenBudget

namespace BudgetInv

theorem empty (w : World) : BudgetInv env w Jobs.empty := by
  refine ⟨Table.Keyed.nil, ?_, ?_, ?_, ?_⟩ <;> intro r hr <;> cases hr

theorem mono (h : BudgetInv env w s) (hw : ∀ i ∈ w.issued, i ∈ w'.issued) : BudgetInv env w' s :=
  ⟨h.tokens, fun p hp => hw _ (h.calls p hp), h.covered, h.within, h.ahead⟩

theorem tokens_step (h : BudgetInv env w s) (hi : Inv w s) (hf : ∀ i ∈ a.ids, i ∉ w.issued) :
    Table.Keyed (·.claim.leaseToken) (Jobs.step env now a s).searchWorkers := by
  rcases search_cases env now a s with
    ⟨hw, -⟩ | ⟨jobId, token, provider, p, rfl, hp, hs⟩ | ⟨i, input, k, pc', -, hk, hw, -, -⟩
  · rw [hw]; exact h.tokens
  · rw [hs]
    refine h.tokens.insert fun k hk he => ?_
    obtain ⟨-, -, -, -, -, -, -, htok, -⟩ := Job.claimJob_eq hp
    refine hf token (by simp [Action.ids]) ?_
    rw [← htok, ← he]
    exact (hi.searchClaims k hk).issued
  · rw [hw]
    have := Table.map_set_of_eq (x := ⟨k.claim, k.provider, pc'⟩) (fun k : Searches.Worker => k.claim.leaseToken) hk rfl
    unfold Table.Keyed
    rw [this]
    exact h.tokens

theorem calls_step (h : BudgetInv env w s) (hi : Inv w s) :
    ∀ p ∈ (Jobs.step env now a s).embedCalls, p.1 ∈ w.issued := by
  rcases search_cases env now a s with
    ⟨-, hc, -⟩ | ⟨jobId, token, provider, p, -, -, hs⟩ | ⟨i, input, k, pc', -, hk, -, hc, -⟩
  · rw [hc]; exact h.calls
  · rw [hs]; exact h.calls
  · rw [hc]
    intro p hp
    rcases List.mem_append.1 hp with hp | hp
    · exact h.calls p hp
    · obtain ⟨n, -, rfl⟩ := Option.map_eq_some_iff.1 (Option.mem_toList.1 hp)
      exact (hi.searchClaims k (Table.mem_of_getElem? hk)).job

/-- Nothing is spent or owed on an id that was not drawn yet. -/
theorem unused (h : BudgetInv env w s) (hi : Inv w s) {id : Uuid} (hid : id ∉ w.issued) :
    s.spent id + s.owed env id = 0 := by
  have h1 : s.embedCalls.filter (·.1 = id) = [] :=
    List.filter_eq_nil_iff.2 fun p hp he => by
      have he : p.1 = id := of_decide_eq_true he
      exact hid (he ▸ h.calls p hp)
  have h2 : s.owed env id = 0 := by
    refine List.sum_eq_zero fun n hn => ?_
    obtain ⟨k, hk, rfl⟩ := List.mem_map.1 hn
    unfold Searches.Worker.owes
    split
    · rw [if_neg fun he : k.claim.jobId = id => hid (he ▸ (hi.searchClaims k hk).job)]
    · rfl
  rw [spent, h1, h2]
  rfl

theorem spent_append (id : Uuid) {jobId : Uuid} (o : Option Nat) (h : (Jobs.step env now a s).embedCalls =
    s.embedCalls ++ (o.map (jobId, ·)).toList) :
    (Jobs.step env now a s).spent id = s.spent id + if jobId = id then o.getD 0 else 0 := by
  unfold spent
  rw [h, List.filter_append, List.map_append, List.sum_append]
  congr 1
  cases o with
  | none => simp
  | some n => by_cases hid : jobId = id <;> simp [hid]

/-- No step spends more than was reserved for it. -/
theorem covered_step (h : BudgetInv env w s) (hi : Inv w s) (hf : ∀ i ∈ a.ids, i ∉ w.issued) :
    ∀ r ∈ (Jobs.step env now a s).db.searches,
      (Jobs.step env now a s).spent r.id + (Jobs.step env now a s).owed env r.id ≤ r.data.reservedTokens := by
  intro r' hr'
  have hch := searches_changes env now hi.searches hi.profiled hf
  -- whatever the action, a row that was there has at least as much reserved as before
  have hquiet : (Jobs.step env now a s).spent r'.id = s.spent r'.id →
      (Jobs.step env now a s).owed env r'.id = s.owed env r'.id →
      (Jobs.step env now a s).spent r'.id + (Jobs.step env now a s).owed env r'.id ≤ r'.data.reservedTokens := by
    intro h1 h2
    rw [h1, h2]
    rcases hch.grown hr' with ⟨r, hr, hsame, hg⟩ | hnew
    · rw [hsame.1]
      exact (h.covered r hr).trans hg.2.2.2.1
    · rw [h.unused hi (hf _ (fresh_subset now s _ (List.mem_append_right _ hnew)))]
      exact Nat.zero_le _
  rcases search_cases env now a s with
    ⟨hw, hc, -⟩ | ⟨jobId, token, provider, p, -, -, hs⟩ | ⟨i, input, k, pc', -, hk, hw, hc, he⟩
  · exact hquiet (by unfold spent; rw [hc]) (by unfold owed; rw [hw])
  · refine hquiet (by rw [hs]; rfl) ?_
    rw [hs]
    simp [owed, Searches.Worker.owes]
  · obtain ⟨r, hr, hid, hle⟩ := he.covers hi.searches.keyed hr'
    change _ ≤ r'.data.reservedTokens + k.owes env r'.id at hle
    have hsum := Table.sum_map_set (x := ⟨k.claim, k.provider, pc'⟩) (·.owes env r'.id) hk
    have howed : (Jobs.step env now a s).owed env r'.id =
        ((s.searchWorkers.set i ⟨k.claim, k.provider, pc'⟩).map (·.owes env r'.id)).sum := by
      rw [owed, hw]
    have hspent := spent_append r'.id _ hc
    have hold := h.covered r hr
    rw [hid] at hold
    rw [howed, hspent]
    unfold owed at hold
    unfold Searches.passed at hle
    omega

/-- A worker that passed the preflight and keeps its lease keeps its room. -/
theorem ahead_step (h : BudgetInv env w s) (hi : Inv w s) (hf : ∀ i ∈ a.ids, i ∉ w.issued)
    (hb : ∀ r ∈ (Jobs.step env now a s).db.searches, r.data.reservedTokens ≤ r.data.tokenBudget) :
    ∀ k ∈ (Jobs.step env now a s).searchWorkers, ∀ r ∈ (Jobs.step env now a s).db.searches,
      r.id = k.claim.jobId → r.leaseToken = some k.claim.leaseToken →
      r.data.reservedTokens + k.pc.ahead env ≤ r.data.tokenBudget := by
  intro k hk r' hr' hid htok
  have hch := searches_changes env now hi.searches hi.profiled hf
  -- a worker of the old state under whose token nobody acts
  have hold : k ∈ s.searchWorkers → (actor now a s).token ≠ some k.claim.leaseToken →
      r'.data.reservedTokens + k.pc.ahead env ≤ r'.data.tokenBudget := by
    intro hk hne
    have hnew : k.claim.leaseToken ∉ (actor now a s).grants := fun hm =>
      hf _ (fresh_subset now s _ (List.mem_append_left _ hm)) (hi.searchClaims k hk).issued
    obtain ⟨r, hr, hrid, hrtok, hd⟩ := hch.held hr' htok hnew
    rw [hd hne]
    exact h.ahead k hk r hr (hrid.trans hid) hrtok
  rcases search_cases env now a s with
    ⟨hw, -, hquiet, -⟩ | ⟨jobId, token, provider, p, rfl, -, hs⟩ | ⟨i, input, k₀, pc', rfl, hk₀, hw, -, he⟩
  · rw [hw] at hk
    rcases hquiet with hnone | hsame
    · exact hold hk (by rw [hnone]; nofun)
    · rw [hsame] at hr'
      exact h.ahead k hk r' hr' hid htok
  · rw [hs] at hk
    rcases List.mem_append.1 hk with hk | hk
    · exact hold hk (by simp [actor, Jobs.tokens])
    · rw [List.mem_singleton.1 hk]
      exact hb r' hr'
  · have hact : (actor now (.searchStep i input) s).token = some k₀.claim.leaseToken := by
      simp [actor, Jobs.tokens, hk₀]
    rw [hw] at hk
    rcases Table.mem_set_cases hk with rfl | ⟨j, hji, hj⟩
    · exact he.affords hi.searches.keyed hr' hid htok (hb r' hr')
        (h.ahead k₀ (Table.mem_of_getElem? hk₀))
    · refine hold (Table.mem_of_getElem? hj) fun heq => ?_
      rw [hact] at heq
      exact h.tokens.ne_of_ne hk₀ hj hji (Option.some.inj heq).symm

/-- Every action keeps the budget. -/
theorem step (h : BudgetInv env w s) (hi : Inv w s) (hf : ∀ i ∈ a.ids, i ∉ w.issued) :
    BudgetInv env ⟨w.clock, w.issued ++ a.ids⟩ (Jobs.step env now a s) := by
  have hch := searches_changes env now hi.searches hi.profiled hf
  have hb := hch.all_data (P := fun d => d.reservedTokens ≤ d.tokenBudget) (fun d hn => hn.2.2.1 ▸ Nat.zero_le _)
    (fun _ _ hg hd => hg.2.2.2.2 hd) h.within
  exact ⟨h.tokens_step hi hf, fun p hp => List.mem_append_left _ (h.calls_step hi p hp), h.covered_step hi hf, hb,
    h.ahead_step hi hf hb⟩

end BudgetInv
end Jobs
end RepoPilot
