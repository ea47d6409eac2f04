import RepoPilot.Machine
import RepoPilot.Coverage
import RepoPilot.Dispatch
import RepoPilot.Chat

/-! # The whole system

One clock, one supply of identifiers, the job system and the conversations. Every interleaving is a list
of actions. The clock never goes back and an identifier is drawn once; an action that would draw one
twice does nothing. -/

namespace RepoPilot

structure System where
  world : World
  jobs : Jobs
  chat : Chat

namespace System

inductive Action
  | tick (elapsed : Nat)
  | jobs (action : Jobs.Action)
  | chat (action : Chat.Action)

/-- The identifiers are new and differ. -/
def Fresh (issued ids : List Uuid) : Prop := ids.Nodup ∧ ∀ i ∈ ids, i ∉ issued

instance (issued ids : List Uuid) : Decidable (Fresh issued ids) :=
  inferInstanceAs (Decidable (ids.Nodup ∧ ∀ i ∈ ids, i ∉ issued))

/-- Removing a repository waits for the locked rows it would delete. -/
def Waits (env : Env) (s : System) : Jobs.Action → Prop
  | .removeRepository _ repositoryId =>
    ∃ c ∈ s.chat.tables.conversations, c.repositoryId = repositoryId ∧ s.chat.Locked env c.id
  | _ => False

instance (env : Env) (s : System) (a : Jobs.Action) : Decidable (Waits env s a) := by
  cases a <;> unfold Waits <;> infer_instance

/-- The conversations after an action of the job system. -/
def cascade (s : System) : Jobs.Action → Chat
  | .removeRepository userId repositoryId => s.chat.removeRepository s.jobs.db userId repositoryId
  | _ => s.chat

def step (env : Env) (s : System) : Action → System
  | .tick elapsed => { s with world.clock := s.world.clock + elapsed }
  | .jobs a =>
    if Fresh s.world.issued a.ids ∧ ¬ Waits env s a then
      ⟨⟨s.world.clock, s.world.issued ++ a.ids⟩, Jobs.step env s.world.clock a s.jobs, s.cascade a⟩
    else s
  | .chat a =>
    if Fresh s.world.issued a.ids then
      ⟨⟨s.world.clock, s.world.issued ++ a.ids⟩, s.jobs, Chat.step env s.world.clock a s.jobs.db s.chat⟩
    else s

/-- The system as a machine. -/
def machine (env : Env) : Machine System Action := ⟨⟨⟨0, []⟩, Jobs.empty, Chat.empty⟩, step env⟩

/-- The state after the actions `acts`. -/
def run (env : Env) (acts : List Action) : System := (machine env).run acts

/-- The invariants of the job system. -/
structure JobsInv (env : Env) (s : System) : Prop where
  inv : s.jobs.Inv s.world
  output : s.jobs.OutputInv s.world
  content : s.jobs.ContentInv s.world
  budget : s.jobs.BudgetInv env s.world
  coverage : s.jobs.CoverageInv env
  cycles : s.jobs.CycleInv s.world.clock

variable {env : Env}

theorem jobsInv_step (s : System) (a : Action) (h : JobsInv env s) : JobsInv env (step env s a) := by
  cases a with
  | tick elapsed =>
    have hclock : s.world.clock ≤ s.world.clock + elapsed := le_add_of_nonneg_right (Int.natCast_nonneg _)
    exact ⟨h.inv.mono fun _ hi => hi, h.output.mono fun _ hi => hi, h.content.mono fun _ hi => hi,
      h.budget.mono fun _ hi => hi, h.coverage, h.cycles.mono hclock⟩
  | jobs a =>
    simp only [step]
    split
    · rename_i hfr
      obtain ⟨⟨hn, hf⟩, -⟩ := hfr
      exact ⟨h.inv.step hf, h.output.step h.inv hf, h.content.step h.inv h.output hf hn, h.budget.step h.inv hf,
        h.coverage.step h.inv h.content h.budget.tokens hf, h.cycles.step h.inv hf⟩
    · exact h
  | chat a =>
    have hissued : ∀ i ∈ s.world.issued, i ∈ s.world.issued ++ a.ids := fun i hi => List.mem_append_left _ hi
    simp only [step]
    split
    · exact ⟨h.inv.mono hissued, h.output.mono hissued, h.content.mono hissued, h.budget.mono hissued, h.coverage,
        h.cycles⟩
    · exact h

/-- Every reachable state satisfies the invariants. -/
theorem jobsInv (env : Env) (acts : List Action) : JobsInv env (run env acts) :=
  Machine.invariant
    ⟨Jobs.Inv.empty _, Jobs.OutputInv.empty _, Jobs.ContentInv.empty _, Jobs.BudgetInv.empty _,
      Jobs.CoverageInv.empty, Jobs.CycleInv.empty _⟩
    jobsInv_step acts

/-! ### A run -/

/-- One token for every character; a text is its own term. -/
def characters : Env :=
  { Env.plain with
    encode := fun text => text.map Char.toNat
    queryTerms := fun text => [text] }

/-- An import of the archive of one file. -/
def importing : List Action :=
  ([.createImport 0 (.ok (['o'], ['r'])) none 1 2, .claimImport 2 3,
    .importStep 0 (.resolved ⟨['o'], ['r'], 8, "main".toList, List.replicate 40 'a'⟩),
    .importStep 0 (.go []), .importStep 0 .downloaded, .importStep 0 (.go []),
    .importStep 0 (.validated ⟨[⟨"a.py".toList, "python", ['x'], 1, List.replicate 64 '0'⟩], 1, 0, by decide⟩),
    .importStep 0 (.go []), .importStep 0 (.go [4])] : List Jobs.Action).map .jobs

/-- The import of one file, and its index. -/
def indexing : List Action :=
  importing ++ ([.startIndex 0 1 none 5, .claimIndex 5 6, .indexStep 0 (.go []), .indexStep 0 (.go []),
    .indexStep 0 (.go []), .indexStep 0 (.go []), .indexStep 0 (.go [7])] : List Jobs.Action).map .jobs

/-- Answers without embeddings. -/
def offline : Settings := ⟨true, "model".toList, 100, 0, 0, false, 1000, 0⟩

/-- After the index, a keyword preparation. -/
def searching : List Action :=
  indexing ++ ([.startSearch offline 0 1 .keyword none 8, .claimSearch 8 9 none, .searchStep 0 .go, .searchStep 0 .go,
    .searchStep 0 .go, .searchStep 0 .go, .searchStep 0 .go, .searchStep 0 .go] : List Jobs.Action).map .jobs

/-- After the preparation, a conversation. -/
def conversing : List Action := searching ++ [.chat (.create 0 1 10 "title".toList none)]

/-- In the conversation, a submission that inserts its run. -/
def asking : List Action :=
  conversing ++ ([.submit offline 0 10 11 "question".toList .keyword, .submitStep 0 .go, .submitStep 0 .go,
    .submitStep 0 .go, .submitStep 0 .go, .submitStep 0 .go, .submitStep 0 .go, .submitStep 0 .go, .submitStep 0 .go,
    .submitStep 0 (.limited none), .submitStep 0 .go, .submitStep 0 (.insert 12)] : List Chat.Action).map .chat

end System
end RepoPilot
