import RepoPilot.Receipts
import RepoPilot.Owners

/-! # The invariants of the conversations

Every action of the system is one effect on the conversations, so the invariants of the modules before
hold together in every reachable state. -/

namespace RepoPilot
namespace System
variable {env : Env}

structure ChatInv (env : Env) (s : System) : Prop where
  runs : Chat.RunInv s.world s.chat
  calls : Chat.CallInv s.chat.workers s.chat.log
  receipts : Chat.ReceiptInv s.world s.chat
  conversations : Chat.ConversationInv s.world s.chat
  submissions : Chat.SubmitInv env s.world s.chat
  owners : OwnerInv s

/-- What an action of the system does to the conversations. -/
structure ChatStep (env : Env) (s s' : System) (ids : List Uuid) : Prop where
  fresh : ∀ i ∈ ids, i ∉ s.world.issued
  issued : s'.world.issued = s.world.issued ++ ids
  effect : Chat.Effect env s.world.clock ids s.jobs.db s.chat s'.chat.tables s'.chat.asks s'.chat.submits
    s'.chat.workers s'.chat.log

theorem cascade_effect (s : System) (a : Jobs.Action) :
    Chat.Effect env s.world.clock a.ids s.jobs.db s.chat (s.cascade a).tables (s.cascade a).asks
      (s.cascade a).submits (s.cascade a).workers (s.cascade a).log := by
  unfold cascade
  split
  · unfold Chat.removeRepository
    split
    · exact .same
    · exact .removed _
  · exact .same

theorem chatStep (env : Env) (s : System) (a : Action) : ∃ ids, ChatStep env s (step env s a) ids := by
  have hidle : ChatStep env s s [] := ⟨List.forall_mem_nil _, (List.append_nil _).symm, .same⟩
  cases a with
  | tick elapsed => exact ⟨[], List.forall_mem_nil _, (List.append_nil _).symm, .same⟩
  | jobs a =>
    simp only [step]
    split
    · rename_i hfr
      exact ⟨a.ids, hfr.1.2, rfl, s.cascade_effect a⟩
    · exact ⟨[], hidle⟩
  | chat a =>
    simp only [step]
    split
    · rename_i hfr
      exact ⟨a.ids, hfr.2, rfl, Chat.step_effect env s.world.clock a s.jobs.db s.chat⟩
    · exact ⟨[], hidle⟩

theorem OwnerInv.step {s : System} (a : Action) (h : ChatInv env s) : OwnerInv (step env s a) := by
  cases a with
  | tick elapsed => exact ⟨h.owners.keyed, h.owners.ids, h.owners.conversations⟩
  | jobs a =>
    simp only [System.step]
    split
    · rename_i hfr
      exact h.owners.jobs hfr.1
    · exact h.owners
  | chat a =>
    simp only [System.step]
    split
    · rename_i hfr
      exact h.owners.chat h.runs h.conversations hfr
    · exact h.owners

theorem chatInv_step (s : System) (a : Action) (h : ChatInv env s) : ChatInv env (step env s a) := by
  obtain ⟨ids, hf, hw, he⟩ := chatStep env s a
  have hissued : ∀ i ∈ s.world.issued, i ∈ (step env s a).world.issued := fun i hi =>
    hw ▸ List.mem_append_left _ hi
  have hids : ∀ i ∈ ids, i ∈ (step env s a).world.issued := fun i hi => hw ▸ List.mem_append_right _ hi
  exact ⟨h.runs.effect hf hissued hids he, h.calls.effect h.runs he, h.receipts.effect h.runs hf hissued hids he,
    h.conversations.effect h.runs hf hissued hids he, h.submissions.effect h.runs h.conversations hf hissued he,
    OwnerInv.step a h⟩

/-- Every reachable state satisfies the invariants. -/
theorem chatInv (env : Env) (acts : List Action) : ChatInv env (run env acts) :=
  Machine.invariant
    ⟨Chat.RunInv.empty _, Chat.CallInv.empty, Chat.ReceiptInv.empty _, Chat.ConversationInv.empty _,
      Chat.SubmitInv.empty _, OwnerInv.init env⟩
    chatInv_step acts

end System
end RepoPilot
