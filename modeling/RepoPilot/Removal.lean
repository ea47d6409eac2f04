import RepoPilot.Integrity

/-! # What is removed stays removed

An identifier is drawn once, and a row never changes the row it hangs on. So what is gone with a removed
repository or conversation is gone for good, whatever workers, submissions and cycles were under way. -/

namespace RepoPilot

namespace Job
variable {π : Type}

theorem Changes.parents [JobData π] {w : World} {a : Actor} {t t' : List (Job π)} {R : Job π → Job π → Prop}
    (hc : Changes a t t') (hf : ∀ i ∈ a.inserts, i ∉ w.issued)
    (hR : ∀ {r r'}, Same r r' → JobData.Grows r.data r'.data → R r r') : Table.Persists Job.id w.issued R t t' := by
  intro r' hr' hid
  rcases hc.grown hr' with ⟨r, hr, hs, hg⟩ | hm
  · exact ⟨r, hr, hs.1.symm, hR hs hg⟩
  · exact absurd hid (hf _ hm)

end Job

namespace System
variable {env : Env}

/-- Every row under an old identifier was there before, on the same parent. -/
structure Descends (s s' : System) : Prop where
  issued : ∀ i ∈ s.world.issued, i ∈ s'.world.issued
  repositories : Table.Persists Repository.id s.world.issued (fun r r' => r'.userId = r.userId)
    s.jobs.db.repositories s'.jobs.db.repositories
  imports : Table.Persists Job.id s.world.issued (fun j j' => j'.repositoryId = j.repositoryId)
    s.jobs.db.imports s'.jobs.db.imports
  indexes : Table.Persists Job.id s.world.issued
    (fun i i' => i'.repositoryId = i.repositoryId ∧ i'.data.importJobId = i.data.importJobId)
    s.jobs.db.indexes s'.jobs.db.indexes
  searches : Table.Persists Job.id s.world.issued
    (fun x x' => x'.repositoryId = x.repositoryId ∧ x'.data.sourceIndexId = x.data.sourceIndexId)
    s.jobs.db.searches s'.jobs.db.searches
  conversations : Table.Persists Conversation.id s.world.issued
    (fun c c' => c'.userId = c.userId ∧ c'.repositoryId = c.repositoryId)
    s.chat.tables.conversations s'.chat.tables.conversations
  runs : Table.Persists AnswerRun.id s.world.issued (fun r r' => r'.conversationId = r.conversationId)
    s.chat.tables.runs s'.chat.tables.runs

theorem Descends.refl (s : System) : Descends s s :=
  ⟨fun _ h => h, fun r hr _ => ⟨r, hr, rfl, rfl⟩, fun j hj _ => ⟨j, hj, rfl, rfl⟩,
    fun i hi _ => ⟨i, hi, rfl, rfl, rfl⟩, fun x hx _ => ⟨x, hx, rfl, rfl, rfl⟩, fun c hc _ => ⟨c, hc, rfl, rfl, rfl⟩,
    fun r hr _ => ⟨r, hr, rfl, rfl⟩⟩

theorem Descends.trans {s s' s'' : System} (h : Descends s s') (h' : Descends s' s'') : Descends s s'' := by
  have htwo : ∀ {α β γ : Type} {f : α → β} {g : α → γ} (r r' r'' : α), f r' = f r ∧ g r' = g r →
      f r'' = f r' ∧ g r'' = g r' → f r'' = f r ∧ g r'' = g r :=
    fun _ _ _ h h' => ⟨h'.1.trans h.1, h'.2.trans h.2⟩
  exact ⟨fun i hi => h'.issued i (h.issued i hi),
    h.repositories.trans (fun _ _ _ h h' => h'.trans h) h.issued h'.repositories,
    h.imports.trans (fun _ _ _ h h' => h'.trans h) h.issued h'.imports,
    h.indexes.trans htwo h.issued h'.indexes, h.searches.trans htwo h.issued h'.searches,
    h.conversations.trans htwo h.issued h'.conversations,
    h.runs.trans (fun _ _ _ h h' => h'.trans h) h.issued h'.runs⟩

/-- Repositories keep their owners. -/
theorem repositories_descend {a : Jobs.Action} {s : Jobs} {w : World} {rs : List Repository}
    (h : Jobs.RepositoryChange a s rs) (hf : ∀ i ∈ a.ids, i ∉ w.issued) :
    Table.Persists Repository.id w.issued (fun r r' => r'.userId = r.userId) s.db.repositories rs := by
  intro r' hr' hid
  cases h with
  | same => exact ⟨r', hr', rfl, rfl⟩
  | added hin =>
    rcases List.mem_append.1 hr' with hr' | hr'
    · exact ⟨r', hr', rfl, rfl⟩
    · rw [List.mem_singleton.1 hr'] at hid
      exact absurd hid (hf _ hin)
  | stored =>
    obtain ⟨r, hr, rfl⟩ := Table.mem_update.1 hr'
    refine ⟨r, hr, ?_⟩
    split <;> exact ⟨rfl, rfl⟩
  | removed => exact ⟨r', List.mem_of_mem_filter hr', rfl, rfl⟩

theorem descends_step (s : System) (a : Action) (h : JobsInv env s ∧ ChatInv env s) : Descends s (step env s a) := by
  obtain ⟨hj, hc⟩ := h
  obtain ⟨ids, hf, hw, he⟩ := chatStep env s a
  have hissued : ∀ i ∈ s.world.issued, i ∈ (step env s a).world.issued := fun i hi => hw ▸ List.mem_append_left _ hi
  have hwritten := Chat.written hc.runs hf he
  have hconversations : Table.Persists Conversation.id s.world.issued
      (fun c c' => c'.userId = c.userId ∧ c'.repositoryId = c.repositoryId)
      s.chat.tables.conversations (step env s a).chat.tables.conversations := by
    intro c' hc' hid
    rcases (Chat.conversed hc.runs hc.conversations hwritten).mem hc' with ⟨c, hm, hcid, hu, hr⟩ | ⟨hnew, -⟩
    · exact ⟨c, hm, hcid, hu.symm, hr.symm⟩
    · exact absurd hid (hf _ hnew)
  have hruns : Table.Persists AnswerRun.id s.world.issued (fun r r' => r'.conversationId = r.conversationId)
      s.chat.tables.runs (step env s a).chat.tables.runs := by
    intro r' hr' hid
    rcases Chat.changes hc.runs hf he hr' with ⟨r, hr, hs, -⟩ | hn
    · exact ⟨r, hr, hs.id.symm, hs.conversationId⟩
    · exact absurd hid (hf _ hn.id)
  have hsame : (step env s a).jobs = s.jobs → Descends s (step env s a) := by
    intro heq
    refine ⟨hissued, ?_, ?_, ?_, ?_, hconversations, hruns⟩ <;> rw [heq]
    · exact (Descends.refl s).repositories
    · exact (Descends.refl s).imports
    · exact (Descends.refl s).indexes
    · exact (Descends.refl s).searches
  cases a with
  | tick elapsed => exact hsame rfl
  | chat a => exact hsame (by simp only [step]; split <;> rfl)
  | jobs a =>
    by_cases hfr : Fresh s.world.issued a.ids ∧ ¬ Waits env s a
    swap
    · exact hsame (by simp only [step]; rw [if_neg hfr])
    have hjobs : (step env s (.jobs a)).jobs = Jobs.step env s.world.clock a s.jobs := by
      simp only [step]
      rw [if_pos hfr]
    have hin : ∀ i ∈ (Jobs.actor s.world.clock a s.jobs).inserts, i ∉ s.world.issued := fun i hi =>
      hfr.1.2 i (Jobs.fresh_subset _ _ i (List.mem_append_right _ hi))
    have himports := Jobs.imports_changes env s.world.clock hj.inv.imports hj.inv.importClaims hfr.1.2
    have hindexes := Jobs.indexes_changes env s.world.clock hj.inv.indexes hfr.1.2
    have hsearches := Jobs.searches_changes env s.world.clock hj.inv.searches hj.inv.profiled hfr.1.2
    refine ⟨hissued, ?_, ?_, ?_, ?_, hconversations, hruns⟩ <;> rw [hjobs]
    · exact repositories_descend (Jobs.repositoryChange env s.world.clock a s.jobs) hfr.1.2
    · exact himports.parents hin fun hs _ => hs.2.1
    · exact hindexes.parents hin fun hs hg => ⟨hs.2.1, hg.1⟩
    · exact hsearches.parents hin fun hs hg => ⟨hs.2.1, hg.1⟩

theorem descends (acts more : List Action) : Descends (run env acts) ((machine env).exec (run env acts) more) :=
  Machine.relates (P := fun s => JobsInv env s ∧ ChatInv env s)
    (fun s a h => ⟨jobsInv_step s a h.1, chatInv_step s a h.2⟩) Descends.refl Descends.trans descends_step
    ⟨jobsInv env acts, chatInv env acts⟩ more

/-! ### What is gone -/

/-- The conversation and what hung on it in `s` are gone in `s'`. -/
structure ConversationGone (s s' : System) (conversationId : Uuid) : Prop where
  conversation : ∀ c ∈ s'.chat.tables.conversations, c.id ≠ conversationId
  messages : ∀ m ∈ s'.chat.tables.messages, m.conversationId ≠ conversationId
  runs : ∀ r ∈ s'.chat.tables.runs, r.conversationId ≠ conversationId
  events : ∀ r ∈ s.chat.tables.runs, r.conversationId = conversationId →
    ∀ e ∈ s'.chat.tables.events, e.runId ≠ r.id
  receipts : ∀ r ∈ s.chat.tables.runs, r.conversationId = conversationId →
    ∀ q ∈ s'.chat.tables.receipts, q.runId ≠ r.id

/-- The repository and what hung on it in `s` are gone in `s'`. -/
structure RepositoryGone (s s' : System) (repositoryId : Uuid) : Prop where
  repository : ∀ r ∈ s'.jobs.db.repositories, r.id ≠ repositoryId
  imports : ∀ j ∈ s'.jobs.db.imports, j.repositoryId ≠ repositoryId
  files : ∀ f ∈ s'.jobs.db.files, f.repositoryId ≠ repositoryId
  indexes : ∀ i ∈ s'.jobs.db.indexes, i.repositoryId ≠ repositoryId
  symbols : ∀ i ∈ s.jobs.db.indexes, i.repositoryId = repositoryId → ∀ y ∈ s'.jobs.db.symbols, y.indexId ≠ i.id
  chunks : ∀ i ∈ s.jobs.db.indexes, i.repositoryId = repositoryId → ∀ c ∈ s'.jobs.db.chunks, c.indexId ≠ i.id
  searches : ∀ x ∈ s'.jobs.db.searches, x.repositoryId ≠ repositoryId
  documents : ∀ x ∈ s.jobs.db.searches, x.repositoryId = repositoryId →
    ∀ d ∈ s'.jobs.db.documents, d.searchIndexId ≠ x.id
  conversations : ∀ c ∈ s'.chat.tables.conversations, c.repositoryId ≠ repositoryId
  talks : ∀ c ∈ s.chat.tables.conversations, c.repositoryId = repositoryId → ConversationGone s s' c.id

section Gone
variable {s s' : System} {conversationId repositoryId : Uuid}

theorem conversationGone (hc : ChatInv env s) (hs : Schema s') (hd : Descends s s')
    (h : ∀ c ∈ s'.chat.tables.conversations, c.id ≠ conversationId) : ConversationGone s s' conversationId := by
  have hruns : ∀ r ∈ s'.chat.tables.runs, r.conversationId ≠ conversationId := by
    intro r hr he
    obtain ⟨c, hm, hid⟩ := hs.tables.runs r hr
    exact h c hm (hid.trans he)
  have hold : ∀ r ∈ s.chat.tables.runs, r.conversationId = conversationId →
      ∀ r' ∈ s'.chat.tables.runs, r'.id ≠ r.id := by
    intro r hr he r' hr' hid
    have hsame := hd.runs.of_mem hc.runs.keyed hr (hc.runs.ids r hr) hr' hid
    exact hruns r' hr' (hsame.trans he)
  refine ⟨h, fun m hm he => ?_, hruns, fun r hr he e hm hid => ?_, fun r hr he q hq hid => ?_⟩
  · obtain ⟨c, hc', hid⟩ := hs.tables.messages m hm
    exact h c hc' (hid.trans he)
  · obtain ⟨r', hr', hid'⟩ := hs.tables.events e hm
    exact hold r hr he r' hr' (hid'.trans hid)
  · obtain ⟨r', hr', hid'⟩ := hs.tables.receipts q hq
    exact hold r hr he r' hr' (hid'.trans hid)

theorem repositoryGone (hj : JobsInv env s) (hc : ChatInv env s) (hs : Schema s') (hd : Descends s s')
    (h : ∀ r ∈ s'.jobs.db.repositories, r.id ≠ repositoryId) : RepositoryGone s s' repositoryId := by
  have himports : ∀ j ∈ s'.jobs.db.imports, j.repositoryId ≠ repositoryId := by
    intro j hj he
    obtain ⟨r, hr, hid⟩ := hs.db.imports j hj
    exact h r hr (hid.trans he)
  have hindexes : ∀ i ∈ s'.jobs.db.indexes, i.repositoryId ≠ repositoryId := by
    intro i hi he
    obtain ⟨j, hj, -, hr⟩ := hs.db.indexes i hi
    exact himports j hj (hr.trans he)
  have hsearches : ∀ x ∈ s'.jobs.db.searches, x.repositoryId ≠ repositoryId := by
    intro x hx he
    obtain ⟨i, hi, -, hr⟩ := hs.db.searches x hx
    exact hindexes i hi (hr.trans he)
  have hconversations : ∀ c ∈ s'.chat.tables.conversations, c.repositoryId ≠ repositoryId := by
    intro c hm he
    obtain ⟨r, hr, hid, -⟩ := hs.tables.conversations c hm
    exact h r hr (hid.trans he)
  have hindex : ∀ i ∈ s.jobs.db.indexes, i.repositoryId = repositoryId → ∀ i' ∈ s'.jobs.db.indexes, i'.id ≠ i.id := by
    intro i hi he i' hi' hid
    have hsame := hd.indexes.of_mem hj.inv.indexes.keyed hi (hj.inv.indexes.ids i hi) hi' hid
    exact hindexes i' hi' (hsame.1.trans he)
  refine
    { repository := h
      imports := himports
      files := fun f hf he => ?_
      indexes := hindexes
      symbols := fun i hi he y hy hid => ?_
      chunks := fun i hi he c hm hid => ?_
      searches := hsearches
      documents := fun x hx he d hm hid => ?_
      conversations := hconversations
      talks := fun c hm he => conversationGone hc hs hd fun c' hc' hid => ?_ }
  · obtain ⟨j, hj, -, hr⟩ := hs.db.files f hf
    exact himports j hj (hr.trans he)
  · obtain ⟨i', hi', hid', -⟩ := hs.db.symbolIndexes y hy
    exact hindex i hi he i' hi' (hid'.trans hid)
  · obtain ⟨i', hi', hid', -⟩ := hs.db.chunkIndexes c hm
    exact hindex i hi he i' hi' (hid'.trans hid)
  · obtain ⟨x', hx', hid', -⟩ := hs.db.documentSearches d hm
    have hsame := hd.searches.of_mem hj.inv.searches.keyed hx (hj.inv.searches.ids x hx) hx' (hid'.trans hid)
    exact hsearches x' hx' (hsame.1.trans he)
  · have hsame := hd.conversations.of_mem hc.conversations.keyed hm (hc.conversations.ids c hm) hc' hid
    exact hconversations c' hc' (hsame.2.trans he)

end Gone

/-- A removed repository or conversation leaves nothing behind, in any later state: what workers, questions
and submissions that were under way do afterwards brings no row of it back. -/
theorem removal_is_final (env : Env) (acts more : List Action) :
    (∀ userId repositoryId p, (run env acts).jobs.db.owned userId repositoryId = .ok p →
      ¬ Waits env (run env acts) (.removeRepository userId repositoryId) →
      RepositoryGone (run env acts)
        ((machine env).run (acts ++ .jobs (.removeRepository userId repositoryId) :: more)) repositoryId) ∧
    ∀ userId conversationId c, (run env acts).chat.tables.owned (run env acts).jobs.db userId conversationId = .ok c →
      ¬ Chat.Locked env (run env acts).chat conversationId →
      ConversationGone (run env acts)
        ((machine env).run (acts ++ .chat (.remove userId conversationId) :: more)) conversationId := by
  have hj := jobsInv env acts
  have hc := chatInv env acts
  have hschema := schema env
  -- what is gone after the removal is gone after `more`: its identifier is never drawn again
  have hlater : ∀ a, Descends ((machine env).run (acts ++ [a])) ((machine env).run (acts ++ a :: more)) := by
    intro a
    have h : Descends ((machine env).run (acts ++ [a])) ((machine env).exec ((machine env).run (acts ++ [a])) more) :=
      descends (acts ++ [a]) more
    rwa [← Machine.run_append, List.append_assoc, List.singleton_append] at h
  have hone : ∀ a, (machine env).run (acts ++ [a]) = step env (run env acts) a := by
    intro a
    rw [Machine.run_append]
    rfl
  have hall : ∀ a, Descends (run env acts) ((machine env).run (acts ++ a :: more)) := by
    intro a
    rw [Machine.run_append]
    exact descends acts (a :: more)
  refine ⟨fun userId repositoryId p ho hw => ?_, fun userId conversationId c ho hl => ?_⟩
  · refine repositoryGone hj hc (hschema _) (hall _) fun r hr hid => ?_
    have hfresh : Fresh (run env acts).world.issued (Jobs.Action.ids (.removeRepository userId repositoryId)) :=
      ⟨List.nodup_nil, List.forall_mem_nil _⟩
    have hdb : (step env (run env acts) (.jobs (.removeRepository userId repositoryId))).jobs.db =
        (run env acts).jobs.db.deleteRepository repositoryId := by
      simp only [step]
      rw [if_pos ⟨hfresh, hw⟩]
      simp only [Jobs.step, Db.removeRepository, ho]
    have hissued : repositoryId ∈ (run env acts).world.issued := by
      obtain ⟨hm, hrid, -⟩ := Db.owned_eq ho
      exact hrid ▸ hc.owners.ids p.1 hm
    have hd := hlater (.jobs (.removeRepository userId repositoryId))
    rw [hone] at hd
    obtain ⟨r₀, hr₀, hid₀, -⟩ := hd.repositories r hr ((descends_step _ _ ⟨hj, hc⟩).issued _ (hid ▸ hissued))
    rw [hdb] at hr₀
    exact absurd (hid₀.trans hid) (of_decide_eq_true (List.mem_filter.1 hr₀).2)
  · refine conversationGone hc (hschema _) (hall _) fun c' hc' hid => ?_
    have hfresh : Fresh (run env acts).world.issued (Chat.Action.ids (.remove userId conversationId)) :=
      ⟨List.nodup_nil, List.forall_mem_nil _⟩
    have htables : (step env (run env acts) (.chat (.remove userId conversationId))).chat.tables =
        (run env acts).chat.tables.deleteConversations fun c => c.id = conversationId ∧ c.userId = userId := by
      simp only [step]
      rw [if_pos hfresh]
      simp only [Chat.step, if_neg hl, Chat.remove, ho]
    obtain ⟨hm, hcid, hu, -⟩ := Tables.owned_eq ho
    have hd := hlater (.chat (.remove userId conversationId))
    rw [hone] at hd
    have hissued : conversationId ∈ (run env acts).world.issued := hcid ▸ hc.conversations.ids c hm
    obtain ⟨c₀, hc₀, hid₀, -⟩ := hd.conversations c' hc' ((descends_step _ _ ⟨hj, hc⟩).issued _ (hid ▸ hissued))
    rw [htables] at hc₀
    obtain ⟨hc₀, hno⟩ := List.mem_filter.1 hc₀
    have hsame : c₀ = c := hc.conversations.keyed.eq hc₀ hm ((hid₀.trans hid).trans hcid.symm)
    subst hsame
    simp [hcid, hu] at hno

/-- An import, an index that is being built, and a conversation. -/
def building : List Action :=
  importing ++ [.jobs (.startIndex 0 1 none 5), .jobs (.claimIndex 5 6), .jobs (.indexStep 0 (.go [])),
    .jobs (.indexStep 0 (.go [])), .chat (.create 0 1 10 "title".toList none)]

/-- What the worker of the index still does. -/
def built : List Action :=
  [.jobs (.indexStep 0 (.go [])), .jobs (.indexStep 0 (.go [])), .jobs (.indexStep 0 (.go [7]))]

theorem removal_is_final_building :
    ((run characters building).jobs.indexWorkers.map (·.claim.jobId) = [5] ∧
      (run characters (building ++ built)).jobs.db.chunks.map (·.id) = [7]) ∧
      RepositoryGone (run characters building)
        ((machine characters).run (building ++ .jobs (.removeRepository 0 1) :: built)) 1 ∧
      ConversationGone (run characters building)
        ((machine characters).run (building ++ .chat (.remove 0 10) :: built)) 10 := by
  obtain ⟨p, hp⟩ : ∃ p, (run characters building).jobs.db.owned 0 1 = .ok p := exists_ok (by decide +kernel)
  obtain ⟨c, hc⟩ : ∃ c, (run characters building).chat.tables.owned (run characters building).jobs.db 0 10 = .ok c :=
    exists_ok (by decide +kernel)
  obtain ⟨hrepository, hconversation⟩ := removal_is_final characters building built
  exact ⟨⟨by decide +kernel, by decide +kernel⟩, hrepository 0 1 p hp (by decide +kernel),
    hconversation 0 10 c hc (by decide +kernel)⟩

end System
end RepoPilot
