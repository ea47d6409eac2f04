import RepoPilot.Submissions
import RepoPilot.System

/-! # Owners

Every conversation hangs on a repository of the same user, and so does every run on a conversation that
its owner can read: removing a repository removes its conversations in the same transaction. -/

namespace RepoPilot

namespace Jobs
variable {env : Env} {now : Time} {a : Action} {s : Jobs}

/-- What an action does to the repositories. -/
inductive RepositoryChange (a : Action) (s : Jobs) : List Repository → Prop
  | same : RepositoryChange a s s.db.repositories
  | added {r : Repository} (hid : r.id ∈ a.ids) : RepositoryChange a s (s.db.repositories ++ [r])
  | stored {repositoryId : Uuid} {source : RepositorySource} {now : Time} :
    RepositoryChange a s (Table.update (·.id = repositoryId) (Imports.stored source now) s.db.repositories)
  | removed {userId repositoryId : Uuid} {p : Repository × ImportJob} (ha : a = .removeRepository userId repositoryId)
    (ho : s.db.owned userId repositoryId = .ok p) :
    RepositoryChange a s (s.db.repositories.filter (·.id ≠ repositoryId))

theorem repositoryChange (env : Env) (now : Time) (a : Action) (s : Jobs) :
    RepositoryChange a s (step env now a s).db.repositories := by
  cases hk : a.kind with
  | indexes => rw [(frame_indexes _ _ _ hk).1]; exact .same
  | searches => rw [(frame_searches _ _ _ hk).1]; exact .same
  | removal =>
    cases a <;> try cases hk
    case removal.removeRepository.refl userId repositoryId =>
      simp only [step, Db.removeRepository]
      split
      · exact .removed rfl ‹_›
      · exact .same
  | imports =>
    cases a <;> try cases hk
    case imports.createImport.refl userId source limit repositoryId jobId =>
      rcases committed_cases s.db (Imports.create now userId source limit repositoryId jobId s.db) with
        h | ⟨p, hp, h⟩ <;> simp only [step, h]
      · exact .same
      · obtain ⟨imports, he, hid, -, -⟩ := Imports.create_eq hp
        rw [he]
        exact .added (by rw [hid]; exact List.mem_cons_self)
    case imports.retryImport.refl userId repositoryId limit jobId =>
      rcases committed_cases s.db (Imports.retry now userId repositoryId limit jobId s.db) with
        h | ⟨p, hp, h⟩ <;> simp only [step, h]
      · exact .same
      · obtain ⟨imports, old, repository, he, -⟩ := Imports.retry_eq hp
        rw [he]
        exact .same
    case imports.cancelImport.refl userId repositoryId =>
      rcases committed_map_cases s.db (Imports.cancel now userId repositoryId s.db) with h | ⟨db', hp, h⟩ <;>
        simp only [step, h]
      · exact .same
      · obtain ⟨-, job, -, he⟩ := Imports.cancel_eq hp
        rw [he]
        exact .same
    case imports.claimImport.refl jobId token =>
      simp only [step, claimImport]
      split <;> exact .same
    case imports.importStep.refl i input =>
      simp only [step, importStep]
      split
      · rename_i k hk
        obtain ⟨_, _, repositories, he, hr⟩ := (Imports.step_effect now k.claim input k.pc s.db).frame
        rw [he]
        rcases hr with rfl | ⟨source, rfl⟩
        · exact .same
        · exact .stored
      · exact .same
    case imports.importCycle.refl input => exact .same

theorem RepositoryChange.keyed {w : World} {rs : List Repository} (h : RepositoryChange a s rs)
    (hk : Table.Keyed (·.id) s.db.repositories) (hids : ∀ r ∈ s.db.repositories, r.id ∈ w.issued)
    (hf : ∀ i ∈ a.ids, i ∉ w.issued) :
    Table.Keyed (·.id) rs ∧ ∀ r ∈ rs, r.id ∈ w.issued ++ a.ids := by
  have hold : ∀ r ∈ s.db.repositories, r.id ∈ w.issued ++ a.ids := fun r hr => List.mem_append_left _ (hids r hr)
  cases h with
  | same => exact ⟨hk, hold⟩
  | @added r hid =>
    refine ⟨hk.insert fun q hq he => hf _ hid (he ▸ hids q hq), fun q hq => ?_⟩
    rcases List.mem_append.1 hq with hq | hq
    · exact hold q hq
    · rw [List.mem_singleton.1 hq]
      exact List.mem_append_right _ hid
  | stored =>
    refine ⟨hk.update fun _ _ _ => rfl, fun q hq => ?_⟩
    obtain ⟨r, hr, rfl⟩ := Table.mem_update.1 hq
    split <;> exact hold r hr
  | removed => exact ⟨hk.filter _, fun q hq => hold q (List.mem_of_mem_filter hq)⟩

/-- A repository stays with its owner, unless it is removed. -/
theorem RepositoryChange.stays {rs : List Repository} (h : RepositoryChange a s rs) {r : Repository}
    (hr : r ∈ s.db.repositories) :
    (∃ r' ∈ rs, r'.id = r.id ∧ r'.userId = r.userId) ∨
      ∃ userId p, a = .removeRepository userId r.id ∧ s.db.owned userId r.id = .ok p := by
  cases h with
  | same => exact .inl ⟨r, hr, rfl, rfl⟩
  | added => exact .inl ⟨r, List.mem_append_left _ hr, rfl, rfl⟩
  | stored =>
    refine .inl ⟨_, Table.mem_update_of_mem hr, ?_⟩
    split <;> exact ⟨rfl, rfl⟩
  | @removed userId repositoryId p ha ho =>
    by_cases hid : r.id = repositoryId
    · subst hid
      exact .inr ⟨userId, p, ha, ho⟩
    · exact .inl ⟨r, List.mem_filter.2 ⟨hr, by simpa using hid⟩, rfl, rfl⟩

end Jobs

namespace System
variable {env : Env} {s : System}

structure OwnerInv (s : System) : Prop where
  keyed : Table.Keyed (·.id) s.jobs.db.repositories
  ids : ∀ r ∈ s.jobs.db.repositories, r.id ∈ s.world.issued
  conversations : ∀ c ∈ s.chat.tables.conversations, s.jobs.db.Owns c.userId c.repositoryId

theorem OwnerInv.init (env : Env) : OwnerInv (machine env).init :=
  ⟨.nil, List.forall_mem_nil _, List.forall_mem_nil _⟩

theorem cascade_conversations {a : Jobs.Action} {c : Conversation} (hc : c ∈ (s.cascade a).tables.conversations) :
    c ∈ s.chat.tables.conversations ∧
      ∀ userId p, a = .removeRepository userId c.repositoryId → s.jobs.db.owned userId c.repositoryId ≠ .ok p := by
  unfold cascade at hc
  split at hc
  · rename_i userId repositoryId
    unfold Chat.removeRepository at hc
    split at hc
    · rename_i e ho
      refine ⟨hc, fun userId' p ha hp => ?_⟩
      cases ha
      cases ho.symm.trans hp
    · obtain ⟨hc, hno⟩ := List.mem_filter.1 hc
      refine ⟨hc, fun userId' p ha _ => ?_⟩
      injection ha with _ hrid
      simp [hrid] at hno
  · rename_i hno
    exact ⟨hc, fun userId p ha => absurd ha (hno _ _)⟩

theorem OwnerInv.jobs {a : Jobs.Action} (h : OwnerInv s) (hf : Fresh s.world.issued a.ids) :
    OwnerInv ⟨⟨s.world.clock, s.world.issued ++ a.ids⟩, Jobs.step env s.world.clock a s.jobs, s.cascade a⟩ := by
  have hr := Jobs.repositoryChange env s.world.clock a s.jobs
  obtain ⟨hk, hids⟩ := hr.keyed (w := s.world) h.keyed h.ids hf.2
  refine ⟨hk, hids, fun c hc => ?_⟩
  obtain ⟨hc, hkept⟩ := cascade_conversations hc
  obtain ⟨r, hrm, hrid, hru⟩ := h.conversations c hc
  rcases hr.stays hrm with ⟨r', hr', hid, hu⟩ | ⟨userId, p, ha, ho⟩
  · exact ⟨r', hr', hid.trans hrid, hu.trans hru⟩
  · rw [hrid] at ha ho
    exact absurd ho (hkept userId p ha)

theorem OwnerInv.chat {a : Chat.Action} (h : OwnerInv s) (hi : Chat.RunInv s.world s.chat)
    (hc : Chat.ConversationInv s.world s.chat) (hf : Fresh s.world.issued a.ids) :
    OwnerInv ⟨⟨s.world.clock, s.world.issued ++ a.ids⟩, s.jobs,
      Chat.step env s.world.clock a s.jobs.db s.chat⟩ := by
  refine ⟨h.keyed, fun r hr => List.mem_append_left _ (h.ids r hr), fun c' hc' => ?_⟩
  have he := Chat.step_effect env s.world.clock a s.jobs.db s.chat
  rcases (Chat.conversed hi hc (Chat.written hi hf.2 he)).mem hc' with ⟨c, hcm, -, hu, hr⟩ | ⟨-, owns⟩
  · rw [← hu, ← hr]
    exact h.conversations c hcm
  · exact owns

end System
end RepoPilot
