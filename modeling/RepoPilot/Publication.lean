import RepoPilot.Lifecycle

/-! # Jobs that publish once

A job that completes publishes a result: a claim completes it, and the claim's output rows appear in
the same transaction. `Settled` says that the completed jobs and the publications correspond one to
one, `Output` that the output rows of a job are those of its publication. Both are kept by every
change of the job table that publishes nothing, and by a publication. -/

namespace RepoPilot
namespace Job
variable {π ρ ο : Type} [JobData π]

/-- The publications `pubs` (job and result) are those of the completed jobs of `t`. -/
structure Settled (w : World) (Fits : ρ → π → Prop) (t : List (Job π)) (pubs : List (Uuid × ρ)) : Prop where
  ids : ∀ p ∈ pubs, p.1 ∈ w.issued
  once : (pubs.map Prod.fst).Nodup
  done : ∀ p ∈ pubs, ∀ r ∈ t, r.id = p.1 → r.status = .completed ∧ Fits p.2 r.data
  all : ∀ r ∈ t, r.status = .completed → ∃ p ∈ pubs, p.1 = r.id

/-- The rows of `out` belong to completed jobs, and those of a published job are its result. -/
structure Output (jobOf : ο → Uuid) (Rows : ρ → List ο → Prop) (t : List (Job π)) (pubs : List (Uuid × ρ))
    (out : List ο) : Prop where
  owner : ∀ o ∈ out, ∃ r ∈ t, r.id = jobOf o ∧ r.status = .completed
  rows : ∀ p ∈ pubs, (∃ r ∈ t, r.id = p.1) → Rows p.2 (out.filter (jobOf · = p.1))

variable {w w' : World} {Fits : ρ → π → Prop} {t t' : List (Job π)} {pubs pubs' : List (Uuid × ρ)} {a : Actor}
  {jobOf : ο → Uuid} {Rows : ρ → List ο → Prop} {out : List ο} {now : Time} {c : Claim} {g : π → π} {result : ρ}

namespace Settled

omit [JobData π] in
theorem nil : Settled w Fits ([] : List (Job π)) ([] : List (Uuid × ρ)) :=
  ⟨by simp, by simp, by simp, by simp⟩

omit [JobData π] in
theorem mono (h : Settled w Fits t pubs) (hw : ∀ i ∈ w.issued, i ∈ w'.issued) : Settled w' Fits t pubs :=
  ⟨fun p hp => hw _ (h.ids p hp), h.once, h.done, h.all⟩

omit [JobData π] in
theorem perm (h : Settled w Fits t pubs) (hp : pubs'.Perm pubs) : Settled w Fits t pubs' :=
  ⟨fun p hm => h.ids p (hp.mem_iff.1 hm), (hp.map Prod.fst).nodup_iff.2 h.once,
    fun p hm => h.done p (hp.mem_iff.1 hm), fun r hr hs =>
      let ⟨p, hm, he⟩ := h.all r hr hs
      ⟨p, hp.mem_iff.2 hm, he⟩⟩

/-- A transaction that completes no job. -/
theorem changes (h : Settled w Fits t pubs) (hg : Good w t) (hf : ∀ i ∈ a.inserts, i ∉ w.issued)
    (hc : Changes a t t')
    (hall : ∀ r' ∈ t', r'.status = .completed → ∃ r ∈ t, r.id = r'.id ∧ r.status = .completed) :
    Settled w Fits t' pubs := by
  refine ⟨h.ids, h.once, ?_, ?_⟩
  · intro p hp r' hr' hid
    obtain ⟨r, hr, hrid⟩ := hc.existed hr' fun hfr => hf _ hfr (hid ▸ h.ids p hp)
    obtain ⟨hs, hd⟩ := h.done p hp r hr (hrid.trans hid)
    obtain ⟨hs', hd'⟩ := hc.completed (fun q hq hfr => hf _ hfr (hg.ids q hq)) hg.keyed hr hs hr' hrid.symm
    exact ⟨hs', hd' ▸ hd⟩
  · intro r' hr' hs'
    obtain ⟨r, hr, hid, hs⟩ := hall r' hr' hs'
    obtain ⟨p, hp, he⟩ := h.all r hr hs
    exact ⟨p, hp, he.trans hid⟩

omit [JobData π] in
/-- The job a fenced write finds has not been published. -/
theorem not_published (h : Settled w Fits t pubs) {f : Job π → Job π} (hf : fenced now c f t = some t') :
    c.jobId ∉ pubs.map Prod.fst := by
  obtain ⟨⟨r, hr, hl, -⟩, -⟩ := fencedIf_isSome hf
  intro hm
  obtain ⟨p, hp, he⟩ := List.mem_map.1 hm
  have := (h.done p hp r hr (hl.1.trans he.symm)).1
  rw [hl.2.1] at this
  cases this

omit [JobData π] in
/-- The transaction that publishes `result` under the claim `c`. -/
theorem publish (h : Settled w Fits t pubs) (hg : Good w t)
    (hf : fenced now c (finished now g) t = some t') (hfit : ∀ r ∈ t, r.id = c.jobId → Fits result (g r.data)) :
    Settled w Fits t' ((c.jobId, result) :: pubs) := by
  have hnew := h.not_published hf
  obtain ⟨⟨r, hr, hl, -⟩, ht⟩ := fencedIf_isSome hf
  subst ht
  refine ⟨?_, ?_, ?_, ?_⟩
  · intro p hp
    rcases List.mem_cons.1 hp with rfl | hp
    · rw [← hl.1]; exact hg.ids r hr
    · exact h.ids p hp
  · rw [List.map_cons]
    exact List.nodup_cons.2 ⟨hnew, h.once⟩
  · intro p hp r' hr' hid
    obtain ⟨q, hq, rfl⟩ := Table.mem_update.1 hr'
    split at hid <;> rename_i hcond
    · rw [if_pos hcond]
      rcases List.mem_cons.1 hp with rfl | hp
      · exact ⟨rfl, hfit q hq hid⟩
      · exact absurd (List.mem_map.2 ⟨p, hp, hid.symm.trans hcond.1.1⟩) hnew
    · rw [if_neg hcond]
      rcases List.mem_cons.1 hp with rfl | hp
      · have : q = r := hg.keyed.eq hq hr (hid.trans hl.1.symm)
        subst this
        exact absurd ⟨hl, trivial⟩ hcond
      · exact h.done p hp q hq hid
  · intro r' hr' hs
    obtain ⟨q, hq, rfl⟩ := Table.mem_update.1 hr'
    split at hs <;> rename_i hcond
    · rw [if_pos hcond]
      exact ⟨_, List.mem_cons_self, hcond.1.1.symm⟩
    · rw [if_neg hcond]
      obtain ⟨p, hp, he⟩ := h.all q hq hs
      exact ⟨p, List.mem_cons_of_mem _ hp, he⟩

end Settled

namespace Output

omit [JobData π] in
theorem perm (h : Output jobOf Rows t pubs out) (hp : pubs'.Perm pubs) : Output jobOf Rows t pubs' out :=
  ⟨h.owner, fun p hm => h.rows p (hp.mem_iff.1 hm)⟩

/-- A transaction that deletes no job and writes no output. -/
theorem changes (h : Output jobOf Rows t pubs out) (hs : Settled w Fits t pubs) (hg : Good w t)
    (hf : ∀ i ∈ a.inserts, i ∉ w.issued) (ha : a.deletes = false) (hc : Changes a t t') :
    Output jobOf Rows t' pubs out := by
  constructor
  · intro o ho
    obtain ⟨r, hr, hid, hst⟩ := h.owner o ho
    obtain ⟨r', hr', hid'⟩ := hc.survives ha hr
    refine ⟨r', hr', hid'.trans hid, ?_⟩
    exact (hc.completed (fun q hq hfr => hf _ hfr (hg.ids q hq)) hg.keyed hr hst hr' hid').1
  · rintro p hp ⟨r', hr', hid⟩
    obtain ⟨r, hr, hrid⟩ := hc.existed hr' fun hfr => hf _ hfr (hid ▸ hs.ids p hp)
    exact h.rows p hp ⟨r, hr, hrid.trans hid⟩

omit [JobData π] in
/-- Deleting jobs together with their output. -/
theorem delete (h : Output jobOf Rows t pubs out) (hg : Good w t) (keep : Job π → Bool) :
    Output jobOf Rows (t.filter keep) pubs
      (out.filter fun o => jobOf o ∉ (t.filter fun r => !keep r).map Job.id) := by
  have hkeep : ∀ r ∈ t.filter keep, r.id ∉ (t.filter fun r => !keep r).map Job.id := by
    intro r hr hm
    obtain ⟨q, hq, he⟩ := List.mem_map.1 hm
    obtain ⟨hr, hrk⟩ := List.mem_filter.1 hr
    obtain ⟨hq, hqk⟩ := List.mem_filter.1 hq
    rw [hg.keyed.eq hq hr he] at hqk
    simp [hrk] at hqk
  constructor
  · intro o ho
    obtain ⟨ho, hn⟩ := List.mem_filter.1 ho
    obtain ⟨r, hr, hid, hs⟩ := h.owner o ho
    refine ⟨r, List.mem_filter.2 ⟨hr, ?_⟩, hid, hs⟩
    by_contra hk
    have hmem : jobOf o ∈ (t.filter fun r => !keep r).map Job.id :=
      List.mem_map.2 ⟨r, List.mem_filter.2 ⟨hr, by simpa using hk⟩, hid⟩
    exact absurd hmem (of_decide_eq_true hn)
  · rintro p hp ⟨r, hr, hid⟩
    have hrows := h.rows p hp ⟨r, (List.mem_filter.1 hr).1, hid⟩
    rw [List.filter_filter, List.filter_congr fun o _ => ?_]
    · exact hrows
    · have := hkeep r hr
      by_cases ho : jobOf o = p.1
      · rw [hid] at this
        simp only [ho, decide_true, Bool.true_and]
        exact decide_eq_true this
      · simp [ho]

omit [JobData π] in
/-- The transaction that publishes `result` and writes its rows. -/
theorem publish (h : Output jobOf Rows t pubs out) (hs : Settled w Fits t pubs) (hg : Good w t)
    (hf : fenced now c (finished now g) t = some t') {new : List ο} (hnew : ∀ o ∈ new, jobOf o = c.jobId)
    (hrows : Rows result new) : Output jobOf Rows t' ((c.jobId, result) :: pubs) (out ++ new) := by
  have hfirst := hs.not_published hf
  obtain ⟨⟨r, hr, hl, -⟩, ht⟩ := fencedIf_isSome hf
  have hnone : ∀ o ∈ out, jobOf o ≠ c.jobId := by
    intro o ho he
    obtain ⟨q, hq, hid, hst⟩ := h.owner o ho
    rw [hg.keyed.eq hq hr (hid.trans (he.trans hl.1.symm)), hl.2.1] at hst
    cases hst
  subst ht
  constructor
  · intro o ho
    rcases List.mem_append.1 ho with ho | ho
    · obtain ⟨q, hq, hid, hst⟩ := h.owner o ho
      refine ⟨q, Table.mem_update_of_not hq ?_, hid, hst⟩
      rintro ⟨⟨-, hrun, -⟩, -⟩
      rw [hst] at hrun
      cases hrun
    · exact ⟨_, Table.mem_update_of_pos hr ⟨hl, trivial⟩, hl.1.trans (hnew o ho).symm, rfl⟩
  · rintro p hp ⟨r', hr', hid⟩
    rw [List.filter_append]
    rcases List.mem_cons.1 hp with rfl | hp
    · have h1 : out.filter (jobOf · = c.jobId) = [] :=
        List.filter_eq_nil_iff.2 fun o ho => by simpa using hnone o ho
      have h2 : new.filter (jobOf · = c.jobId) = new :=
        List.filter_eq_self.2 fun o ho => by simpa using hnew o ho
      rw [h1, h2]
      exact hrows
    · have hne : c.jobId ≠ p.1 := fun he => hfirst (List.mem_map.2 ⟨p, hp, he.symm⟩)
      have h2 : new.filter (jobOf · = p.1) = [] :=
        List.filter_eq_nil_iff.2 fun o ho => by rw [hnew o ho]; simpa using hne
      rw [h2, List.append_nil]
      obtain ⟨q, hq, rfl⟩ := Table.mem_update.1 hr'
      refine h.rows p hp ⟨q, hq, ?_⟩
      split at hid <;> exact hid

end Output

end Job
end RepoPilot
