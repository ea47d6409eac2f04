import RepoPilot.Polling
import RepoPilot.Browsing

/-! # What the screens show

The list of repositories, the index inspector and the search panel poll the services. Their requests fail, are served
late or are given up for new ones, while anyone does anything; what they have shown still holds. -/

namespace RepoPilot

/-! ### The three screens -/

namespace Panels

/-- `useRepositories`. -/
def useRepositories (userId : Uuid) : Poller System (List RepositoryResponse) AppError where
  answer s := .ok (RepositoryService.list s.jobs.db userId)
  expires e := decide (e.status = 401)
  delay rows := if ∃ row ∈ rows, row.job.status.Active then 2000 else 15000
  message
    | some e => e.message
    | none => "Unable to load repositories. Retry shortly."

/-- `useIndex`. -/
def useIndex (userId repositoryId : Uuid) : Poller System IndexState AppError where
  answer s := IndexService.state s.jobs.db userId repositoryId
  expires e := decide (e.status = 401)
  delay next := if ∃ latest ∈ next.latest, latest.status.Active then 2000 else 15000
  message _ := "Unable to load index status. Retrying…"

/-- The effect of `RepositorySearch`. -/
def repositorySearch (settings : Settings) (userId repositoryId : Uuid) : Poller System SearchState AppError where
  answer s := PreparationService.state settings s.jobs.db userId repositoryId
  expires e := decide (e.status = 401)
  delay next := if ∃ latest ∈ next.latest, latest.status.Active then 2000 else 15000
  message
    | some e => e.message
    | none => "Unable to read search status. Retrying…"

end Panels

/-! ### Every repository is listed -/

namespace Job
variable {π : Type}

/-- Whatever repository had a current job has one. -/
def Retains (t t' : List (Job π)) : Prop :=
  ∀ j ∈ t, j.isCurrent = true → ∃ j' ∈ t', j'.repositoryId = j.repositoryId ∧ j'.isCurrent = true

theorem Retains.refl (t : List (Job π)) : Retains t t := fun j hj hc => ⟨j, hj, rfl, hc⟩

theorem Retains.update {t : List (Job π)} {p : Job π → Prop} [DecidablePred p] {f : Job π → Job π}
    (hf : ∀ r, (f r).repositoryId = r.repositoryId ∧ (f r).isCurrent = r.isCurrent) :
    Retains t (Table.update p f t) := by
  intro j hj hc
  refine ⟨_, Table.mem_update_of_mem hj, ?_⟩
  split
  · exact ⟨(hf j).1, (hf j).2.trans hc⟩
  · exact ⟨rfl, hc⟩

theorem Retains.fencedIf {now : Time} {c : Claim} {t t' : List (Job π)} {guard : Job π → Prop} [DecidablePred guard]
    {f : Job π → Job π} (ht : Job.fencedIf now c guard f t = some t')
    (hf : ∀ r, (f r).repositoryId = r.repositoryId ∧ (f r).isCurrent = r.isCurrent) : Retains t t' := by
  obtain ⟨-, rfl⟩ := fencedIf_isSome ht
  exact .update hf

/-- No response tells when a job was dispatched. -/
theorem Redispatched.response {γ : Type} {f : Job π → γ}
    (hf : ∀ (r : Job π) time, f { r with lastDispatchedAt := time } = f r) {r r' : Job π} (h : Redispatched r r') :
    f r' = f r := by
  unfold Redispatched at h
  rw [h]
  exact hf r r'.lastDispatchedAt

end Job

/-- Every repository has a current import. -/
def Db.Joined (db : Db) : Prop := ∀ r ∈ db.repositories, ∃ j ∈ db.imports, j.repositoryId = r.id ∧ j.isCurrent = true

theorem Db.Joined.retains {db db' : Db} (h : db.Joined)
    (hr : ∀ r' ∈ db'.repositories, ∃ r ∈ db.repositories, r.id = r'.id) (ht : Job.Retains db.imports db'.imports) :
    db'.Joined := by
  intro r' hr'
  obtain ⟨r, hrm, hid⟩ := hr r' hr'
  obtain ⟨j, hj, hjr, hc⟩ := h r hrm
  obtain ⟨j', hj', hjr', hc'⟩ := ht j hj hc
  exact ⟨j', hj', hjr'.trans (hjr.trans hid), hc'⟩

theorem Imports.Effect.joined {now : Time} {claim : Claim} {input : Imports.Input} {pc pc' : Imports.Pc} {db db' : Db}
    (h : Imports.Effect now claim input pc db pc' db') (hj : db.Joined) : db'.Joined := by
  cases h with
  | idle | advanced => exact hj
  | reported pc' hpc h hr => exact hj.retains (fun r hr => ⟨r, hr, rfl⟩) (.fencedIf hr fun _ => ⟨rfl, rfl⟩)
  | published hpc hin hlen hp =>
    obtain ⟨imports, hi, rfl⟩ := Imports.publishResult_eq hp
    refine hj.retains (fun r' hr' => ?_) (.fencedIf hi fun _ => ⟨rfl, rfl⟩)
    obtain ⟨r, hr, rfl⟩ := Table.mem_update.1 hr'
    refine ⟨r, hr, ?_⟩
    split <;> rfl
  | failed failure hpc =>
    rcases Imports.recordFailure_eq now claim failure db with h | ⟨imports, h, ⟨-, -, hi⟩ | hi⟩ <;> rw [h]
    · exact hj
    · exact hj.retains (fun r hr => ⟨r, hr, rfl⟩) (.fencedIf hi fun _ => ⟨rfl, rfl⟩)
    · exact hj.retains (fun r hr => ⟨r, hr, rfl⟩) (.fencedIf hi fun _ => ⟨rfl, rfl⟩)

theorem Cycle.retains {π : Type} {now : Time} {input : Input} {t : List (Job π)} {cycles : List Cycle} :
    Job.Retains t (step now input t cycles).1 := by
  unfold step
  split
  · exact .update fun _ => ⟨rfl, rfl⟩
  · split <;> exact .refl t
  · split
    · dsimp only
      split
      · exact .update fun _ => ⟨rfl, rfl⟩
      · exact .refl t
    · exact .refl t

namespace Jobs
variable {env : Env} {now : Time} {s : Jobs} {w : World}

/-- No action leaves a repository without a current import. -/
theorem joined_step (a : Action) (hj : s.db.Joined) (hg : Job.Good w s.db.imports) : (step env now a s).db.Joined := by
  have hsame : ∀ {db' : Db}, db'.repositories = s.db.repositories → db'.imports = s.db.imports → db'.Joined :=
    fun hr hi => hj.retains (fun r hm => ⟨r, hr ▸ hm, rfl⟩) (hi ▸ .refl _)
  cases hk : a.kind with
  | indexes => exact hsame (frame_indexes env now s hk).1 (frame_indexes env now s hk).2.1
  | searches => exact hsame (frame_searches env now s hk).1 (frame_searches env now s hk).2.1
  | removal =>
    cases a <;> try cases hk
    case removal.removeRepository.refl userId repositoryId =>
      rcases removeRepository_cases s.db userId repositoryId with h | h <;> simp only [step, h]
      · exact hj
      · intro r hr
        obtain ⟨hr, hne⟩ := List.mem_filter.1 hr
        obtain ⟨j, hjm, hjr, hc⟩ := hj r hr
        exact ⟨j, List.mem_filter.2 ⟨hjm, by simpa [hjr] using hne⟩, hjr, hc⟩
  | imports =>
    cases a <;> try cases hk
    case imports.createImport.refl userId source limit repositoryId jobId =>
      rcases committed_cases s.db (Imports.create now userId source limit repositoryId jobId s.db) with
        h | ⟨p, hp, h⟩ <;> simp only [step, h]
      · exact hj
      · obtain ⟨imports, he, hid, -, hi⟩ := Imports.create_eq hp
        rw [he, Job.insert_eq hi]
        intro r hr
        rcases List.mem_append.1 hr with hr | hr
        · obtain ⟨j, hjm, hjr, hc⟩ := hj r hr
          exact ⟨j, List.mem_append_left _ hjm, hjr, hc⟩
        · rw [List.mem_singleton.1 hr, hid]
          exact ⟨_, List.mem_append_right _ (List.mem_singleton_self _), rfl, rfl⟩
    case imports.retryImport.refl userId repositoryId limit jobId =>
      rcases committed_cases s.db (Imports.retry now userId repositoryId limit jobId s.db) with
        h | ⟨p, hp, h⟩ <;> simp only [step, h]
      · exact hj
      · obtain ⟨imports, old, repository, he, ho, hi⟩ := Imports.retry_eq hp
        obtain ⟨-, hid, -, hom, hor, -⟩ := Db.owned_eq ho
        rw [he, Job.insert_eq hi]
        intro r hr
        obtain ⟨j, hjm, hjr, hc⟩ := hj r hr
        by_cases hold : Imports.RetryWhere old.id j
        · -- the new import takes the place of the old one
          have hjo : j = old := hg.keyed.eq hjm hom hold.1
          refine ⟨_, List.mem_append_right _ (List.mem_singleton_self _), ?_, rfl⟩
          rw [← hjr, hjo]
          exact hid.trans hor.symm
        · exact ⟨j, List.mem_append_left _ (Table.mem_update_of_not hjm hold), hjr, hc⟩
    case imports.cancelImport.refl userId repositoryId =>
      rcases committed_map_cases s.db (Imports.cancel now userId repositoryId s.db) with h | ⟨db', hp, h⟩ <;>
        simp only [step, h]
      · exact hj
      · obtain ⟨-, job, -, he⟩ := Imports.cancel_eq hp
        rw [he]
        exact hj.retains (fun r hr => ⟨r, hr, rfl⟩) (.update fun _ => ⟨rfl, rfl⟩)
    case imports.claimImport.refl jobId token =>
      simp only [step, claimImport]
      split
      · rename_i p hp
        obtain ⟨-, -, -, -, he, -⟩ := Job.claimJob_eq hp
        refine hj.retains (fun r hr => ⟨r, hr, rfl⟩) ?_
        rw [he]
        exact .update fun _ => ⟨rfl, rfl⟩
      · exact hj
    case imports.importStep.refl i input =>
      simp only [step, importStep]
      split
      · rename_i k hk
        exact (Imports.step_effect now k.claim input k.pc s.db).joined hj
      · exact hj
    case imports.importCycle.refl input => exact hj.retains (fun r hr => ⟨r, hr, rfl⟩) Cycle.retains

/-- A repository has the owner it had. -/
theorem RepositoryChange.owner {a : Action} {rs : List Repository} (h : RepositoryChange a s rs)
    (hf : ∀ i ∈ a.ids, i ∉ w.issued) {r' : Repository} (hr' : r' ∈ rs) (hid : r'.id ∈ w.issued) :
    ∃ r ∈ s.db.repositories, r.id = r'.id ∧ r.userId = r'.userId := by
  cases h with
  | same => exact ⟨r', hr', rfl, rfl⟩
  | added hnew =>
    rcases List.mem_append.1 hr' with hr' | hr'
    · exact ⟨r', hr', rfl, rfl⟩
    · rw [List.mem_singleton.1 hr'] at hid
      exact absurd hid (hf _ hnew)
  | stored =>
    obtain ⟨r, hr, rfl⟩ := Table.mem_update.1 hr'
    refine ⟨r, hr, ?_⟩
    split <;> exact ⟨rfl, rfl⟩
  | removed => exact ⟨r', List.mem_of_mem_filter hr', rfl, rfl⟩

end Jobs

/-! ### Two answers -/

namespace System
variable {env : Env} {s s' s'' : System} {userId repositoryId : Uuid}

structure PanelInv (env : Env) (s : System) : Prop where
  snap : SnapInv env s
  joined : s.jobs.db.Joined

theorem panelInv_step (s : System) (a : Action) (h : PanelInv env s) : PanelInv env (step env s a) := by
  refine ⟨snapInv_step s a h.snap, ?_⟩
  cases a with
  | tick elapsed => exact h.joined
  | chat a => simp only [step]; split <;> exact h.joined
  | jobs a =>
    simp only [step]
    split
    · exact Jobs.joined_step a h.joined h.snap.gen.jobs.inv.imports
    · exact h.joined

/-- What an answer says about a later one. -/
structure Continues (s s' : System) : Prop extends Fixes s s' where
  owners : ∀ r' ∈ s'.jobs.db.repositories, r'.id ∈ s.world.issued →
    ∃ r ∈ s.jobs.db.repositories, r.id = r'.id ∧ r.userId = r'.userId

theorem Continues.refl (s : System) : Continues s s := ⟨.refl s, fun r hr _ => ⟨r, hr, rfl, rfl⟩⟩

theorem Continues.trans (h : Continues s s') (h' : Continues s' s'') : Continues s s'' := by
  refine ⟨h.toFixes.trans h'.toFixes, fun r'' hr'' hid => ?_⟩
  obtain ⟨r', hr', he, hu⟩ := h'.owners r'' hr'' (h.issued _ hid)
  obtain ⟨r, hr, he', hu'⟩ := h.owners r' hr' (he ▸ hid)
  exact ⟨r, hr, he'.trans he, hu'.trans hu⟩

theorem continues_step (s : System) (a : Action) (h : PanelInv env s) : Continues s (step env s a) := by
  refine ⟨fixes_step s a h.snap, fun r' hr' hid => ?_⟩
  cases a with
  | tick elapsed => exact ⟨r', hr', rfl, rfl⟩
  | chat a =>
    simp only [step] at hr'
    split at hr' <;> exact ⟨r', hr', rfl, rfl⟩
  | jobs a =>
    simp only [step] at hr'
    split at hr'
    · rename_i hfr
      exact (Jobs.repositoryChange env s.world.clock a s.jobs).owner (w := s.world) hfr.1.2 hr' hid
    · exact ⟨r', hr', rfl, rfl⟩

theorem PanelInv.reaches (h : PanelInv env s) (hr : (machine env).Reaches s s') : PanelInv env s' ∧ Continues s s' := by
  obtain ⟨acts, rfl⟩ := hr
  exact ⟨Machine.exec_always panelInv_step h acts,
    Machine.relates panelInv_step Continues.refl Continues.trans continues_step h acts⟩

/-- The rows of the list. -/
theorem mem_list {db : Db} {a : RepositoryResponse} : a ∈ RepositoryService.list db userId ↔
    ∃ r ∈ db.repositories, r.userId = userId ∧
      ∃ j ∈ db.imports, j.repositoryId = r.id ∧ j.isCurrent = true ∧ a = RepositoryResponse.make r j := by
  unfold RepositoryService.list RepositoryService.listOwned
  simp only [List.mem_map, List.mem_insertionSort, List.mem_flatMap, List.mem_filter, decide_eq_true_eq]
  constructor
  · rintro ⟨-, ⟨r, ⟨hr, hu⟩, j, ⟨hj, hjr, hc⟩, rfl⟩, rfl⟩
    exact ⟨r, hr, hu, j, hj, hjr, hc, rfl⟩
  · rintro ⟨r, hr, hu, j, hj, hjr, hc, rfl⟩
    exact ⟨(r, j), ⟨r, ⟨hr, hu⟩, j, ⟨hj, hjr, hc⟩, rfl⟩, rfl⟩

theorem SnapInv.owned_of_list (h : SnapInv env s) {a : RepositoryResponse}
    (ha : a ∈ RepositoryService.list s.jobs.db userId) :
    ∃ r j, s.jobs.db.owned userId a.id = .ok (r, j) ∧ a = RepositoryResponse.make r j := by
  obtain ⟨r, hr, hu, j, hj, hjr, hc, rfl⟩ := mem_list.1 ha
  refine ⟨r, j, ?_, rfl⟩
  have hfind : s.jobs.db.repositories.find? (fun q => q.id = r.id ∧ q.userId = userId) = some r :=
    h.gen.chat.owners.keyed.find?_and hr hu
  show s.jobs.db.owned userId r.id = .ok (r, j)
  unfold Db.owned
  rw [hfind]
  cases hq : s.jobs.db.imports.find? fun j => j.repositoryId = r.id ∧ j.isCurrent = true with
  | none =>
    have := List.find?_eq_none.1 hq j hj
    simp [hjr, hc] at this
  | some q =>
    have hp := List.find?_some hq
    obtain ⟨hqr, hqc⟩ := of_decide_eq_true hp
    have hqj : q = j :=
      h.gen.jobs.inv.imports.current q (List.mem_of_find?_eq_some hq) j hj hqc hc (hqr.trans hjr.symm)
    simp only [hq, hqj]

/-- The active index of a repository is the active index later. -/
theorem Fixes.active (h : Fixes s s') (hs : SnapInv env s) (hs' : SnapInv env s') {importId : Uuid} {r' : Repository}
    {j' : ImportJob} {x : RepositoryIndex} (ha : s.jobs.db.activeIndex repositoryId importId = some x)
    (ho' : s'.jobs.db.owned userId repositoryId = .ok (r', j')) :
    ∃ x', s'.jobs.db.activeIndex repositoryId j'.id = some x' ∧ Job.Redispatched x x' := by
  obtain ⟨hx, hxr, -, hc⟩ := Db.activeIndex_eq ha
  obtain ⟨⟨x', hx', hd⟩, -⟩ := h.activeIndex hs hs' hx hxr hc ho'
  obtain ⟨hm, hr, himp, -⟩ := Db.activeIndex_eq hx'
  have hj := (hs'.index_eq ho' hm hr).1
  rw [himp] at hj
  exact ⟨x', hj ▸ hx', hd⟩

/-- A completed index is the latest one, too. -/
theorem SnapInv.latestIndex_eq (h : SnapInv env s) {importId : Uuid} {x : RepositoryIndex}
    (ha : s.jobs.db.activeIndex repositoryId importId = some x) :
    s.jobs.db.latestIndex repositoryId importId = some x := by
  obtain ⟨hx, hxr, himp, hc⟩ := Db.activeIndex_eq ha
  have hcur := h.gen.generations.current x hx hc
  cases hl : s.jobs.db.latestIndex repositoryId importId with
  | none =>
    have := List.find?_eq_none.1 hl x hx
    simp [hxr, himp, hcur] at this
  | some q =>
    obtain ⟨hq, hqr, -, hqc⟩ := Db.latestIndex_eq hl
    rw [h.gen.jobs.inv.indexes.current q hq x hx hqc hcur (hqr.trans hxr.symm)]

theorem indexState_ok {db : Db} {v : IndexState} (h : IndexService.state db userId repositoryId = .ok v) :
    ∃ r j, db.owned userId repositoryId = .ok (r, j) ∧
      v = ⟨(db.latestIndex repositoryId j.id).map IndexResponse.validate,
        (db.activeIndex repositoryId j.id).map IndexResponse.validate⟩ := by
  unfold IndexService.state at h
  cases ho : db.owned userId repositoryId with
  | error e => rw [ho] at h; cases h
  | ok p =>
    rw [ho] at h
    exact ⟨p.1, p.2, rfl, (Except.ok.inj h).symm⟩

theorem searchState_ok {settings : Settings} {db : Db} {v : SearchState}
    (h : PreparationService.state settings db userId repositoryId = .ok v) :
    ∃ r j source, db.owned userId repositoryId = .ok (r, j) ∧ db.activeIndex repositoryId j.id = some source ∧
      v.keyword = ((db.activeSearch repositoryId source.id .keyword).or
        (db.activeSearch repositoryId source.id .hybrid)).map SearchJobResponse.validate ∧
      v.hybrid = (db.activeSearch repositoryId source.id .hybrid).map SearchJobResponse.validate ∧
      ∀ x, v.keyword = some x ∨ v.hybrid = some x → x.sourceIndexId = source.id := by
  unfold PreparationService.state at h
  cases hs : Searches.state db userId repositoryId with
  | error e => rw [hs] at h; cases h
  | ok state =>
    rw [hs] at h
    obtain ⟨source, hsrc, hk, hh⟩ := Searches.state_eq hs
    obtain ⟨r, j, ho, ha⟩ := Searches.source_eq hsrc
    rw [← Except.ok.inj h]
    refine ⟨r, j, source, ho, ha, congrArg (Option.map SearchJobResponse.validate) hk,
      congrArg (Option.map SearchJobResponse.validate) hh, fun x hx => ?_⟩
    have hfound : ∀ mode i, db.activeSearch repositoryId source.id mode = some i → i.data.sourceIndexId = source.id :=
      fun mode i hi => (Db.activeSearch_eq hi).2.2.1
    rcases hx with hx | hx <;> obtain ⟨i, hi, rfl⟩ := Option.map_eq_some_iff.1 hx
    · rw [hk] at hi
      rcases Option.or_eq_some_iff.1 hi with hi | ⟨-, hi⟩ <;> exact hfound _ i hi
    · rw [hh] at hi
      exact hfound _ i hi

end System

/-! ### What has been shown -/

namespace Panels
open RepoPilot.System
variable {env : Env} {s s' : System} {userId repositoryId : Uuid}

/-- What the list of repositories has shown: a repository whose import has completed is shown as it was, and one that
is gone does not come back. -/
structure ListHolds (shown : List (List RepositoryResponse)) : Prop where
  imported : shown.Pairwise fun v w => ∀ a ∈ v, a.job.status = .completed → ∀ b ∈ w, b.id = a.id → b = a
  gone : ∀ u v w, List.Sublist [u, v, w] shown → ∀ a ∈ u, ∀ c ∈ w, c.id = a.id → ∃ b ∈ v, b.id = a.id

/-- What the index inspector has shown: with an active index it shows the same for ever. -/
def IndexHolds (shown : List IndexState) : Prop := shown.Pairwise fun v w => v.active ≠ none → w = v

/-- A mode that was ready is ready, and what is ready is prepared from the same index. -/
structure StaysReady (v w : SearchState) : Prop where
  keyword : v.keyword ≠ none → w.keyword ≠ none
  hybrid : v.hybrid ≠ none → w.hybrid ≠ none
  source : ∀ x y, v.keyword = some x ∨ v.hybrid = some x → w.keyword = some y ∨ w.hybrid = some y →
    y.sourceIndexId = x.sourceIndexId

theorem list_imported (hs : PanelInv env s) (hs' : PanelInv env s') (hc : Continues s s') {a b : RepositoryResponse}
    (ha : a ∈ RepositoryService.list s.jobs.db userId) (hdone : a.job.status = .completed)
    (hb : b ∈ RepositoryService.list s'.jobs.db userId) (hid : b.id = a.id) : b = a := by
  obtain ⟨r, j, ho, rfl⟩ := hs.snap.owned_of_list ha
  obtain ⟨r', j', ho', rfl⟩ := hs'.snap.owned_of_list hb
  rw [hid] at ho'
  obtain ⟨rfl, hd, -⟩ := hc.toFixes.owned hs.snap hs'.snap ho hdone ho'
  unfold RepositoryResponse.make
  rw [hd.response (f := JobResponse.validate) fun _ _ => rfl]

theorem list_gone {s'' : System} (hs : PanelInv env s) (hs' : PanelInv env s') (hc : Continues s s')
    (hc' : Continues s' s'') {a c : RepositoryResponse} (ha : a ∈ RepositoryService.list s.jobs.db userId)
    (hm : c ∈ RepositoryService.list s''.jobs.db userId) (hid : c.id = a.id) :
    ∃ b ∈ RepositoryService.list s'.jobs.db userId, b.id = a.id := by
  obtain ⟨r, hr, -, j, -, -, -, rfl⟩ := mem_list.1 ha
  obtain ⟨r'', hr'', hu'', j'', -, -, -, rfl⟩ := mem_list.1 hm
  have hissued : r''.id ∈ s'.world.issued := by
    refine hc.issued _ ?_
    have := hs.snap.gen.chat.owners.ids r hr
    exact (show r''.id = r.id from hid) ▸ this
  obtain ⟨r', hr', he, hu⟩ := hc'.owners r'' hr'' hissued
  obtain ⟨j', hj', hjr', hcur⟩ := hs'.joined r' hr'
  exact ⟨RepositoryResponse.make r' j', mem_list.2 ⟨r', hr', hu.trans hu'', j', hj', hjr', hcur, rfl⟩, he.trans hid⟩

theorem index_holds (hs : PanelInv env s) (hs' : PanelInv env s') (hc : Continues s s') {v w : IndexState}
    (hv : IndexService.state s.jobs.db userId repositoryId = .ok v)
    (hw : IndexService.state s'.jobs.db userId repositoryId = .ok w) (hact : v.active ≠ none) : w = v := by
  obtain ⟨r, j, ho, rfl⟩ := indexState_ok hv
  obtain ⟨r', j', ho', rfl⟩ := indexState_ok hw
  cases ha : s.jobs.db.activeIndex repositoryId j.id with
  | none => exact absurd (by simp [ha]) hact
  | some x =>
    obtain ⟨x', hx', hd⟩ := hc.toFixes.active hs.snap hs'.snap ha ho'
    rw [hx', hs'.snap.latestIndex_eq hx', hs.snap.latestIndex_eq ha]
    rw [Option.map_some, Option.map_some, hd.response (f := IndexResponse.validate) fun _ _ => rfl]

theorem search_ready {settings : Settings} (hs : PanelInv env s) (hs' : PanelInv env s') (hc : Continues s s')
    {v w : SearchState} (hv : PreparationService.state settings s.jobs.db userId repositoryId = .ok v)
    (hw : PreparationService.state settings s'.jobs.db userId repositoryId = .ok w) : StaysReady v w := by
  obtain ⟨r, j, source, ho, ha, hk, hh, hsrc⟩ := searchState_ok hv
  obtain ⟨r', j', source', ho', ha', hk', hh', hsrc'⟩ := searchState_ok hw
  obtain ⟨x', hx', hd⟩ := hc.toFixes.active hs.snap hs'.snap ha ho'
  have hid : source'.id = source.id := Option.some.inj (ha'.symm.trans hx') ▸ hd.filed.id_eq
  have hlast : Db.Lasting repositoryId s.jobs.db s'.jobs.db := by
    obtain ⟨hr, hrid, -⟩ := Db.owned_eq ho
    obtain ⟨hr', hrid', -⟩ := Db.owned_eq ho'
    have := hc.lasting r' hr' (hrid'.trans hrid.symm ▸ hs.snap.gen.chat.owners.ids r hr)
    rwa [hrid'] at this
  have hactive : ∀ mode, (s.jobs.db.activeSearch repositoryId source.id mode).isSome →
      (s'.jobs.db.activeSearch repositoryId source'.id mode).isSome := fun mode h => hid ▸ hlast.activeSearch h
  have hsome : ∀ {o : Option SearchIndex}, o.map SearchJobResponse.validate ≠ none ↔ o.isSome := by
    intro o
    cases o <;> simp
  refine ⟨fun h => ?_, fun h => ?_, fun x y hx hy => (hsrc' y hy).trans (hid.trans (hsrc x hx).symm)⟩
  · rw [hk, hsome, Option.isSome_or, Bool.or_eq_true] at h
    rw [hk', hsome, Option.isSome_or, Bool.or_eq_true]
    exact h.imp (hactive .keyword) (hactive .hybrid)
  · rw [hh, hsome] at h
    rw [hh', hsome]
    exact hactive .hybrid h

section
variable {β : Type} {p : Poller System β AppError} {before : List System.Action}
  {acts : List (Poller.Action System.Action AppError)}

/-- A screen, mounted in a reachable state. -/
def screen (env : Env) (p : Poller System β AppError) (before : List System.Action) :
    Machine (Poller.Screen System β AppError) (Poller.Action System.Action AppError) :=
  Poller.machine (System.machine env) p (System.run env before)

theorem panelInv (env : Env) (acts : List System.Action) : PanelInv env (System.run env acts) :=
  Machine.invariant ⟨snapInv env [], List.forall_mem_nil _⟩ panelInv_step acts

/-- Any two values that a screen has shown are the answers of two states, the second of them later. -/
theorem shown_pairwise [DecidableEq β] {R : β → β → Prop}
    (hR : ∀ s s' v w, PanelInv env s → PanelInv env s' → Continues s s' → p.answer s = .ok v → p.answer s' = .ok w →
      R v w) : ((screen env p before).history (·.shown) acts).Pairwise R := by
  refine List.pairwise_iff_forall_sublist.2 fun {v w} h => ?_
  obtain ⟨moments, ha, hr, ho⟩ := Poller.history_sublist h
  obtain ⟨s, rest, rfl, hv, ha⟩ := List.map_eq_cons_iff.1 ha.symm
  obtain ⟨s', rest, rfl, hw, -⟩ := List.map_eq_cons_iff.1 ha
  have hs := ((panelInv env before).reaches (hr s List.mem_cons_self)).1
  obtain ⟨hs', hc⟩ := hs.reaches (List.rel_of_pairwise_cons ho List.mem_cons_self)
  exact hR s s' v w hs hs' hc hv hw

theorem shown_gone {u v w : List RepositoryResponse}
    (h : List.Sublist [u, v, w] ((screen env (useRepositories userId) before).history (·.shown) acts))
    {a c : RepositoryResponse} (ha : a ∈ u) (hm : c ∈ w) (hid : c.id = a.id) : ∃ b ∈ v, b.id = a.id := by
  obtain ⟨moments, he, hr, ho⟩ := Poller.history_sublist h
  obtain ⟨s, rest, rfl, hu, he⟩ := List.map_eq_cons_iff.1 he.symm
  obtain ⟨s', rest, rfl, hv, he⟩ := List.map_eq_cons_iff.1 he
  obtain ⟨s'', rest, rfl, hw, -⟩ := List.map_eq_cons_iff.1 he
  have hs := ((panelInv env before).reaches (hr s List.mem_cons_self)).1
  obtain ⟨hs', hc⟩ := hs.reaches (List.rel_of_pairwise_cons ho List.mem_cons_self)
  obtain ⟨-, hc'⟩ := hs'.reaches (List.rel_of_pairwise_cons ho.tail List.mem_cons_self)
  cases hu
  cases hv
  cases hw
  exact list_gone hs hs' hc hc' ha hm hid

end

end Panels
end RepoPilot
