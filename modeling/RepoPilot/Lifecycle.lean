import RepoPilot.Job
import Mathlib

/-! # The lifecycle of a job

What a job is for, apart from any one writer: it waits (`queued`), is leased to one worker at a time
(`running`) and ends (`completed`, `failed`, `cancelled`). `Moves` lists what one transaction may do to
one row and `Changes` what it may do to the table; every transaction of the program is shown to be a
chain of `Changes`, and the results about jobs are proved from that alone. -/

namespace RepoPilot

/-- The world a transaction runs in: the time and the identifiers drawn so far. -/
structure World where
  clock : Time
  issued : List Uuid

/-- Who acts: the time, the lease tokens it grants and the rows it inserts (by id), the lease token it
writes under, if any, and whether it may delete rows. -/
structure Actor where
  now : Time
  grants : List Uuid
  inserts : List Uuid
  token : Option Uuid
  deletes : Bool

/-- The identifiers an actor draws. -/
def Actor.fresh (a : Actor) : List Uuid := a.grants ++ a.inserts

/-- The data of a kind of job: what a new job has, and how workers and owner may rewrite it. -/
class JobData (π : Type) where
  New : π → Prop
  Grows : π → π → Prop
  refl : ∀ d, Grows d d
  trans : ∀ {d d' d''}, Grows d d' → Grows d' d'' → Grows d d''

namespace Job
variable {π : Type} [JobData π]

/-- The columns no transaction rewrites. -/
def Same (r r' : Job π) : Prop :=
  r'.id = r.id ∧ r'.repositoryId = r.repositoryId ∧ r'.createdAt = r.createdAt

/-- The lease, the status and the attempts are as before. -/
def Kept (r r' : Job π) : Prop :=
  r'.status = r.status ∧ r'.attempts = r.attempts ∧ r'.leaseToken = r.leaseToken ∧
    r'.leaseExpiresAt = r.leaseExpiresAt

/-- The row is leased to the actor. -/
def HeldBy (a : Actor) (r : Job π) : Prop := r.status = .running ∧ r.leaseToken.isSome ∧ r.leaseToken = a.token

/-- The transitions of one job. -/
inductive Moves (a : Actor) (r r' : Job π) : Prop
  /-- A bookkeeping write, or progress of the worker that holds the lease. -/
  | kept (same : Same r r') (kept : Kept r r') (current : r'.isCurrent = r.isCurrent)
      (data : r'.data = r.data ∨ HeldBy a r ∧ JobData.Grows r.data r'.data)
  | claimed (same : Same r r') (was : ClaimWhere a.now r.id r) (status : r'.status = .running)
      (attempts : r'.attempts = r.attempts + 1) (current : r'.isCurrent = r.isCurrent)
      (token : ∃ k ∈ a.grants, r'.leaseToken = some k) (expires : Future r'.leaseExpiresAt a.now)
      (data : r'.data = r.data)
  /-- Only the holder of the lease completes a job. -/
  | closed (same : Same r r') (was : r.status.Active) (status : r'.status.Terminal)
      (attempts : r'.attempts = r.attempts) (current : r'.isCurrent = r.isCurrent)
      (token : r'.leaseToken = none) (expires : r'.leaseExpiresAt = none)
      (data : r'.status ≠ .completed ∧ r'.data = r.data ∨ HeldBy a r ∧ JobData.Grows r.data r'.data)
  | requeued (same : Same r r') (was : HeldBy a r) (few : r.attempts < 3) (status : r'.status = .queued)
      (attempts : r'.attempts = r.attempts) (current : r'.isCurrent = r.isCurrent)
      (token : r'.leaseToken = none) (expires : r'.leaseExpiresAt = none) (data : r'.data = r.data)
  | superseded (same : Same r r') (kept : Kept r r') (was : r.status.Terminal) (data : r'.data = r.data)
      (current : r'.isCurrent = false)
  /-- An explicit retry in place starts over; it may rewrite the data. -/
  | resumed (same : Same r r') (was : r.status = .failed ∨ r.status = .cancelled)
      (current : r.isCurrent = true) (current' : r'.isCurrent = true) (status : r'.status = .queued)
      (attempts : r'.attempts = 0) (token : r'.leaseToken = none) (expires : r'.leaseExpiresAt = none)
      (data : JobData.Grows r.data r'.data)

/-- One change of the table. -/
inductive Change (a : Actor) (t : List (Job π)) : List (Job π) → Prop
  | update (f : Job π → Job π) (h : ∀ r ∈ t, Moves a r (f r)) : Change a t (t.map f)
  | insert (r : Job π) (hid : r.id ∈ a.inserts) (hnew : ∀ q ∈ t, q.id ≠ r.id)
      (hcur : ∀ q ∈ t, q.isCurrent = true → q.repositoryId ≠ r.repositoryId)
      (status : r.status = .queued) (attempts : r.attempts = 0) (current : r.isCurrent = true)
      (token : r.leaseToken = none) (expires : r.leaseExpiresAt = none) (data : JobData.New r.data) :
      Change a t (t ++ [r])
  | delete (p : Job π → Bool) (ha : a.deletes = true) : Change a t (t.filter p)

/-- The changes of one transaction. -/
def Changes (a : Actor) : List (Job π) → List (Job π) → Prop := Relation.ReflTransGen (Change a)

/-! ### Rows -/

/-- What every row satisfies. -/
structure Ok (r : Job π) : Prop where
  attempts : r.attempts ≤ 3
  queued : r.status = .queued → r.attempts < 3
  token : r.leaseToken.isSome ↔ r.status = .running
  expires : r.leaseExpiresAt.isSome ↔ r.status = .running
  current : r.isCurrent = false → r.status.Terminal

variable {a : Actor} {r r' : Job π}

theorem Moves.same (h : Moves a r r') : Same r r' := by cases h <;> assumption

theorem Moves.grows (h : Moves a r r') : JobData.Grows r.data r'.data := by
  cases h with
  | kept same kept current data =>
    rcases data with h | h
    · rw [h]; exact JobData.refl _
    · exact h.2
  | claimed same was status attempts current token expires data => rw [data]; exact JobData.refl _
  | closed same was status attempts current token expires data =>
    rcases data with h | h
    · rw [h.2]; exact JobData.refl _
    · exact h.2
  | requeued same was few status attempts current token expires data => rw [data]; exact JobData.refl _
  | superseded same kept was data current => rw [data]; exact JobData.refl _
  | resumed same was current current' status attempts token expires data => exact data

theorem Moves.ok (h : Moves a r r') (hr : Ok r) : Ok r' := by
  cases h with
  | kept same kept current data =>
    obtain ⟨hs, ha, ht, he⟩ := kept
    exact ⟨by rw [ha]; exact hr.attempts, by rw [hs, ha]; exact hr.queued, by rw [ht, hs]; exact hr.token,
      by rw [he, hs]; exact hr.expires, by rw [current, hs]; exact hr.current⟩
  | claimed same was status attempts current token expires data =>
    obtain ⟨-, hcur, hlt, -, -⟩ := was
    obtain ⟨k, -, hk⟩ := token
    obtain ⟨e, he, -⟩ := expires
    refine ⟨by omega, by simp [status], by simp [hk, status], by simp [he, status], ?_⟩
    intro h
    rw [current, hcur] at h
    cases h
  | closed same was status attempts current token expires data =>
    have hrun : r'.status ≠ .running := by rcases status with h | h | h <;> simp [h]
    have hq : r'.status ≠ .queued := by rcases status with h | h | h <;> simp [h]
    exact ⟨by rw [attempts]; exact hr.attempts, fun h => absurd h hq, by simp [token, hrun],
      by simp [expires, hrun], fun _ => status⟩
  | requeued same was few status attempts current token expires data =>
    refine ⟨by rw [attempts]; exact hr.attempts, fun _ => by rw [attempts]; exact few, by simp [token, status],
      by simp [expires, status], ?_⟩
    intro h
    rw [current] at h
    have := hr.current h
    rw [was.1] at this
    exact absurd this (by decide)
  | superseded same kept was data current =>
    obtain ⟨hs, ha, ht, he⟩ := kept
    exact ⟨by rw [ha]; exact hr.attempts, by rw [hs, ha]; exact hr.queued, by rw [ht, hs]; exact hr.token,
      by rw [he, hs]; exact hr.expires, fun _ => by rw [hs]; exact was⟩
  | resumed same was current current' status attempts token expires data =>
    refine ⟨by omega, fun _ => by omega, by simp [token, status], by simp [expires, status], ?_⟩
    intro h
    rw [current'] at h
    cases h

/-- A row that becomes or stays current was current. -/
theorem Moves.current (h : Moves a r r') (hc : r'.isCurrent = true) : r.isCurrent = true := by
  cases h with
  | kept same kept current data => rw [← current]; exact hc
  | claimed same was status attempts current token expires data => rw [← current]; exact hc
  | closed same was status attempts current token expires data => rw [← current]; exact hc
  | requeued same was few status attempts current token expires data => rw [← current]; exact hc
  | superseded same kept was data current => rw [current] at hc; cases hc
  | resumed same was current current' status attempts token expires data => exact current

/-- `completed` is absorbing, and what was published stays. -/
theorem Moves.completed (h : Moves a r r') (hr : r.status = .completed) :
    r'.status = .completed ∧ r'.data = r.data := by
  have hheld : ¬ HeldBy a r := fun hh => by cases hr.symm.trans hh.1
  cases h with
  | kept same kept current data => exact ⟨kept.1.trans hr, data.resolve_right fun h => hheld h.1⟩
  | claimed same was status attempts current token expires data =>
    rcases was.2.2.2.2 with h | ⟨h, -⟩ <;> rw [hr] at h <;> cases h
  | closed same was status attempts current token expires data =>
    rcases was with h | h <;> rw [hr] at h <;> cases h
  | requeued same was few status attempts current token expires data => exact absurd was hheld
  | superseded same kept was data current => exact ⟨kept.1.trans hr, data⟩
  | resumed same was current current' status attempts token expires data =>
    rcases was with h | h <;> rw [hr] at h <;> cases h

/-- A lease whose token is not new was there before, with the same expiry and attempt, and only its
holder has touched the data. -/
theorem Moves.held (h : Moves a r r') {k : Uuid} (hk : r'.leaseToken = some k) (hf : k ∉ a.grants) :
    r.leaseToken = some k ∧ r'.leaseExpiresAt = r.leaseExpiresAt ∧ r'.attempts = r.attempts ∧
      (a.token ≠ some k → r'.data = r.data) := by
  cases h with
  | kept same kept current data =>
    obtain ⟨-, ha, ht, he⟩ := kept
    rw [ht] at hk
    refine ⟨hk, he, ha, fun hne => data.resolve_right ?_⟩
    rintro ⟨⟨-, -, h⟩, -⟩
    exact hne (h ▸ hk)
  | claimed same was status attempts current token expires data =>
    obtain ⟨k', hk', hs⟩ := token
    rw [hs] at hk
    cases hk
    exact absurd hk' hf
  | closed same was status attempts current token expires data => rw [token] at hk; cases hk
  | requeued same was few status attempts current token expires data => rw [token] at hk; cases hk
  | superseded same kept was data current =>
    obtain ⟨-, ha, ht, he⟩ := kept
    exact ⟨ht ▸ hk, he, ha, fun _ => data⟩
  | resumed same was current current' status attempts token expires data => rw [token] at hk; cases hk

/-- A lease that has expired at an earlier time than this was there before. -/
theorem Moves.lapsed (h : Moves a r r') {start : Time} (hs : start ≤ a.now) (hr : r'.status = .running)
    (hp : Past r'.leaseExpiresAt start) :
    r.status = .running ∧ Past r.leaseExpiresAt start ∧ r'.attempts = r.attempts := by
  cases h with
  | kept same kept current data =>
    obtain ⟨h1, h2, -, h4⟩ := kept
    exact ⟨h1.symm.trans hr, h4 ▸ hp, h2⟩
  | claimed same was status attempts current token expires data =>
    obtain ⟨e, he, hlt⟩ := hp
    obtain ⟨e', he', hlt'⟩ := expires
    cases he.symm.trans he'
    exact absurd (hlt'.trans hlt) (not_lt.2 hs)
  | closed same was status attempts current token expires data =>
    rcases status with h | h | h <;> rw [hr] at h <;> cases h
  | requeued same was few status attempts current token expires data => rw [hr] at status; cases status
  | superseded same kept was data current =>
    obtain ⟨h1, h2, -, h4⟩ := kept
    exact ⟨h1.symm.trans hr, h4 ▸ hp, h2⟩
  | resumed same was current current' status attempts token expires data => rw [hr] at status; cases status

/-! ### Tables -/

/-- What every job table satisfies. -/
structure Good (w : World) (t : List (Job π)) : Prop where
  rows : ∀ r ∈ t, Ok r
  keyed : Table.Keyed id t
  ids : ∀ r ∈ t, r.id ∈ w.issued
  tokens : ∀ r ∈ t, ∀ k, r.leaseToken = some k → k ∈ w.issued
  current : ∀ r ∈ t, ∀ q ∈ t, r.isCurrent = true → q.isCurrent = true → r.repositoryId = q.repositoryId → r = q

namespace Good
variable {w w' : World} {t t' : List (Job π)}

omit [JobData π] in
theorem nil : Good w ([] : List (Job π)) :=
  ⟨by simp, Table.Keyed.nil, by simp, by simp, by simp⟩

omit [JobData π] in
theorem mono (h : Good w t) (hw : ∀ i ∈ w.issued, i ∈ w'.issued) : Good w' t :=
  ⟨h.rows, h.keyed, fun r hr => hw _ (h.ids r hr), fun r hr k hk => hw _ (h.tokens r hr k hk), h.current⟩

theorem update (h : Good w t) (hf : ∀ i ∈ a.grants, i ∈ w.issued) {f : Job π → Job π}
    (hm : ∀ r ∈ t, Moves a r (f r)) : Good w (t.map f) := by
  have hids : (t.map f).map Job.id = t.map Job.id := by
    rw [List.map_map]
    exact List.map_congr_left fun r hr => (hm r hr).same.1
  constructor
  · intro r' hr'
    obtain ⟨r, hr, rfl⟩ := List.mem_map.1 hr'
    exact (hm r hr).ok (h.rows r hr)
  · exact (congrArg List.Nodup hids).mpr h.keyed
  · intro r' hr'
    obtain ⟨r, hr, rfl⟩ := List.mem_map.1 hr'
    rw [(hm r hr).same.1]
    exact h.ids r hr
  · intro r' hr' k hk
    obtain ⟨r, hr, rfl⟩ := List.mem_map.1 hr'
    by_cases hkf : k ∈ a.grants
    · exact hf k hkf
    · exact h.tokens r hr k ((hm r hr).held hk hkf).1
  · intro r' hr' q' hq' hrc hqc heq
    obtain ⟨r, hr, rfl⟩ := List.mem_map.1 hr'
    obtain ⟨q, hq, rfl⟩ := List.mem_map.1 hq'
    rw [(hm r hr).same.2.1, (hm q hq).same.2.1] at heq
    rw [h.current r hr q hq ((hm r hr).current hrc) ((hm q hq).current hqc) heq]

omit [JobData π] in
theorem insert (h : Good w t) {r : Job π} (hok : Ok r) (hid : r.id ∈ w.issued) (hnew : ∀ q ∈ t, q.id ≠ r.id)
    (hcur : ∀ q ∈ t, q.isCurrent = true → q.repositoryId ≠ r.repositoryId) (token : r.leaseToken = none) :
    Good w (t ++ [r]) := by
  refine ⟨?_, h.keyed.insert hnew, ?_, ?_, ?_⟩
  · intro q hq
    rcases List.mem_append.1 hq with hq | hq
    · exact h.rows q hq
    · rw [List.mem_singleton.1 hq]; exact hok
  · intro q hq
    rcases List.mem_append.1 hq with hq | hq
    · exact h.ids q hq
    · rw [List.mem_singleton.1 hq]; exact hid
  · intro q hq k hk
    rcases List.mem_append.1 hq with hq | hq
    · exact h.tokens q hq k hk
    · rw [List.mem_singleton.1 hq, token] at hk; cases hk
  · intro p hp q hq hpc hqc heq
    rcases List.mem_append.1 hp with hp | hp <;> rcases List.mem_append.1 hq with hq | hq
    · exact h.current p hp q hq hpc hqc heq
    · rw [List.mem_singleton.1 hq] at heq
      exact absurd heq (hcur p hp hpc)
    · rw [List.mem_singleton.1 hp] at heq
      exact absurd heq.symm (hcur q hq hqc)
    · rw [List.mem_singleton.1 hp, List.mem_singleton.1 hq]

omit [JobData π] in
theorem of_subset (h : Good w t) (p : Job π → Bool) : Good w (t.filter p) := by
  have hsub : ∀ r ∈ t.filter p, r ∈ t := fun r hr => (List.mem_filter.1 hr).1
  exact ⟨fun r hr => h.rows r (hsub r hr), h.keyed.filter p, fun r hr => h.ids r (hsub r hr),
    fun r hr => h.tokens r (hsub r hr), fun r hr q hq => h.current r (hsub r hr) q (hsub q hq)⟩

theorem change (h : Good w t) (hf : ∀ i ∈ a.fresh, i ∈ w.issued) (hc : Change a t t') : Good w t' := by
  cases hc with
  | update f hm => exact h.update (fun i hi => hf i (List.mem_append_left _ hi)) hm
  | insert r hid hnew hcur status attempts current token expires data =>
    refine h.insert ⟨by omega, fun _ => by omega, by simp [token, status], by simp [expires, status], ?_⟩
      (hf _ (List.mem_append_right _ hid)) hnew hcur token
    intro h
    rw [current] at h
    cases h
  | delete p ha => exact h.of_subset p

theorem changes (h : Good w t) (hf : ∀ i ∈ a.fresh, i ∈ w.issued) (hc : Changes a t t') : Good w t' := by
  induction hc with
  | refl => exact h
  | tail _ hc ih => exact ih.change hf hc

end Good

/-- Where a row of the changed table comes from. -/
theorem Change.origin {t t' : List (Job π)} (hc : Change a t t') (hr : r' ∈ t') :
    (∃ r ∈ t, Moves a r r') ∨ r' ∈ t ∨
      r'.leaseToken = none ∧ r'.status = .queued ∧ r'.id ∈ a.inserts ∧ JobData.New r'.data := by
  cases hc with
  | update f hm =>
    obtain ⟨r, hmem, rfl⟩ := List.mem_map.1 hr
    exact .inl ⟨r, hmem, hm r hmem⟩
  | insert r hid hnew hcur status attempts current token expires data =>
    rcases List.mem_append.1 hr with hr | hr
    · exact .inr (.inl hr)
    · rw [List.mem_singleton.1 hr]
      exact .inr (.inr ⟨token, status, hid, data⟩)
  | delete p ha => exact .inr (.inl (List.mem_filter.1 hr).1)

/-- Every lease of the changed table was there before or has a new token. -/
theorem Change.leases {t t' : List (Job π)} {issued : List Uuid} (hf : ∀ i ∈ a.fresh, i ∉ issued)
    (hc : Change a t t') : lease.Evolves issued t t' := by
  intro r' hr' k hk hki
  rcases hc.origin hr' with ⟨r, hr, hm⟩ | hr | ⟨hn, -⟩
  · obtain ⟨ht, he, -, -⟩ := hm.held hk fun hkf => hf k (List.mem_append_left _ hkf) hki
    exact ⟨r, hr, hm.same.1.symm, ht, he.symm⟩
  · exact ⟨r', hr, rfl, hk, rfl⟩
  · exact absurd (hn.symm.trans hk) (by simp)

theorem Changes.leases {t t' : List (Job π)} {issued : List Uuid} (hf : ∀ i ∈ a.fresh, i ∉ issued)
    (hc : Changes a t t') : lease.Evolves issued t t' := by
  induction hc with
  | refl => exact Leased.Evolves.refl
  | tail _ hc ih => exact ih.trans (fun _ h => h) (hc.leases hf)

/-- A row that is completed after a move was completed before, or its holder completed it. -/
theorem Moves.completed_of (h : Moves a r r') (hr : r'.status = .completed) :
    r.status = .completed ∨ HeldBy a r := by
  cases h with
  | kept same kept current data => exact .inl (kept.1 ▸ hr)
  | claimed same was status attempts current token expires data => rw [status] at hr; cases hr
  | closed same was status attempts current token expires data =>
    rcases data with ⟨hne, -⟩ | ⟨h, -⟩
    · exact absurd hr hne
    · exact .inr h
  | requeued same was few status attempts current token expires data => rw [status] at hr; cases hr
  | superseded same kept was data current => exact .inl (kept.1 ▸ hr)
  | resumed same was current current' status attempts token expires data => rw [status] at hr; cases hr

/-- Whoever writes under no lease token completes nothing. -/
theorem Changes.completed_of {t t' : List (Job π)} (hc : Changes a t t') (ha : a.token = none) (hr : r' ∈ t')
    (hs : r'.status = .completed) : ∃ r ∈ t, r.id = r'.id ∧ r.status = .completed := by
  have hheld : ∀ r : Job π, ¬ HeldBy a r := by
    rintro r ⟨-, hsome, htok⟩
    rw [htok, ha] at hsome
    cases hsome
  induction hc generalizing r' with
  | refl => exact ⟨r', hr, rfl, hs⟩
  | tail _ hc ih =>
    rcases hc.origin hr with ⟨r, hrm, hm⟩ | hrm | ⟨-, hq, -⟩
    · obtain ⟨q, hq, he, hqs⟩ := ih hrm ((hm.completed_of hs).resolve_right (hheld r))
      exact ⟨q, hq, he.trans hm.same.1.symm, hqs⟩
    · exact ih hrm hs
    · rw [hq] at hs; cases hs

/-- A row of the old table that is completed is completed in the new one, with the same data. -/
theorem Changes.completed {t t' : List (Job π)} (hc : Changes a t t') (hf : ∀ q ∈ t, q.id ∉ a.inserts)
    (hk : Table.Keyed id t) (hr : r ∈ t) (hs : r.status = .completed) (hr' : r' ∈ t') (hid : r'.id = r.id) :
    r'.status = .completed ∧ r'.data = r.data := by
  induction hc generalizing r' with
  | refl => rw [hk.eq hr' hr hid]; exact ⟨hs, rfl⟩
  | tail _ hc ih =>
    rcases hc.origin hr' with ⟨q, hq, hm⟩ | hq | ⟨-, -, hfr, -⟩
    · obtain ⟨hqs, hqd⟩ := ih hq (hm.same.1 ▸ hid)
      obtain ⟨h1, h2⟩ := hm.completed hqs
      exact ⟨h1, h2.trans hqd⟩
    · exact ih hq hid
    · exact absurd (hid ▸ hfr) (hf r hr)

/-- Who deletes nothing keeps every row. -/
theorem Changes.survives {t t' : List (Job π)} (hc : Changes a t t') (ha : a.deletes = false) (hr : r ∈ t) :
    ∃ r' ∈ t', r'.id = r.id := by
  induction hc with
  | refl => exact ⟨r, hr, rfl⟩
  | tail _ hc ih =>
    obtain ⟨q, hq, hid⟩ := ih
    cases hc with
    | update f hm => exact ⟨f q, List.mem_map_of_mem hq, (hm q hq).same.1.trans hid⟩
    | insert n => exact ⟨q, List.mem_append_left _ hq, hid⟩
    | delete p hd => rw [ha] at hd; cases hd

/-- Where the columns of a row come from that only its own worker may extend. -/
theorem Changes.grown {t t' : List (Job π)} (hc : Changes a t t') (hr' : r' ∈ t') :
    (∃ r ∈ t, Same r r' ∧ JobData.Grows r.data r'.data) ∨ r'.id ∈ a.inserts := by
  induction hc generalizing r' with
  | refl => exact .inl ⟨r', hr', ⟨rfl, rfl, rfl⟩, JobData.refl _⟩
  | tail _ hc ih =>
    rcases hc.origin hr' with ⟨q, hq, hm⟩ | hq | ⟨-, -, hfr, -⟩
    · obtain ⟨h1, h2, h3⟩ := hm.same
      rcases ih hq with ⟨p, hp, ⟨g1, g2, g3⟩, hg⟩ | hfr
      · exact .inl ⟨p, hp, ⟨h1.trans g1, h2.trans g2, h3.trans g3⟩, JobData.trans hg hm.grows⟩
      · exact .inr (h1 ▸ hfr)
    · exact ih hq
    · exact .inr hfr

/-- A lease with an old token was there before, and only its holder has touched the data. -/
theorem Changes.held {t t' : List (Job π)} (hc : Changes a t t') {k : Uuid} (hr' : r' ∈ t')
    (hk : r'.leaseToken = some k) (hf : k ∉ a.grants) :
    ∃ r ∈ t, r.id = r'.id ∧ r.leaseToken = some k ∧ (a.token ≠ some k → r'.data = r.data) := by
  induction hc generalizing r' with
  | refl => exact ⟨r', hr', rfl, hk, fun _ => rfl⟩
  | tail _ hc ih =>
    rcases hc.origin hr' with ⟨q, hq, hm⟩ | hq | ⟨hn, -⟩
    · obtain ⟨ht, -, -, hd⟩ := hm.held hk hf
      obtain ⟨p, hp, hid, hpt, hpd⟩ := ih hq ht
      exact ⟨p, hp, hid.trans hm.same.1.symm, hpt, fun ha => (hd ha).trans (hpd ha)⟩
    · exact ih hq hk
    · exact absurd (hn.symm.trans hk) (by simp)

/-- What new data satisfies and every rewriting keeps holds of all data. -/
theorem Changes.all_data {P : π → Prop} {t t' : List (Job π)} (hc : Changes a t t') (hnew : ∀ d, JobData.New d → P d)
    (hgrow : ∀ d d', JobData.Grows d d' → P d → P d') (h : ∀ r ∈ t, P r.data) : ∀ r ∈ t', P r.data := by
  induction hc with
  | refl => exact h
  | tail _ hc ih =>
    intro r' hr'
    rcases hc.origin hr' with ⟨r, hr, hm⟩ | hr | ⟨-, -, -, hn⟩
    · exact hgrow _ _ hm.grows (ih r hr)
    · exact ih r' hr
    · exact hnew _ hn

/-- A row of the new table that was not just inserted was there. -/
theorem Changes.existed {t t' : List (Job π)} (hc : Changes a t t') (hr' : r' ∈ t') (hf : r'.id ∉ a.inserts) :
    ∃ r ∈ t, r.id = r'.id := by
  induction hc generalizing r' with
  | refl => exact ⟨r', hr', rfl⟩
  | tail _ hc ih =>
    rcases hc.origin hr' with ⟨q, hq, hm⟩ | hq | ⟨-, -, hfr, -⟩
    · have hid : r'.id = q.id := hm.same.1
      obtain ⟨p, hp, hpid⟩ := ih hq (hid ▸ hf)
      exact ⟨p, hp, hpid.trans hid.symm⟩
    · exact ih hq hf
    · exact absurd hfr hf

/-! ### Claims -/

/-- A claim that was granted on this table. -/
structure Granted (w : World) (t : List (Job π)) (c : Claim) : Prop where
  issued : c.leaseToken ∈ w.issued
  job : c.jobId ∈ w.issued
  row : ∀ r ∈ t, r.id = c.jobId → r.leaseToken = some c.leaseToken →
    r.attempts = c.attempt ∧ r.repositoryId = c.repositoryId

omit [JobData π] in
theorem Granted.mono {w w' : World} {t : List (Job π)} {c : Claim} (h : Granted w t c)
    (hw : ∀ i ∈ w.issued, i ∈ w'.issued) : Granted w' t c := ⟨hw _ h.issued, hw _ h.job, h.row⟩

theorem Granted.changes {w : World} {t t' : List (Job π)} {c : Claim} (h : Granted w t c)
    (hf : ∀ i ∈ a.fresh, i ∉ w.issued) (hc : Changes a t t') : Granted w t' c := by
  induction hc with
  | refl => exact h
  | tail _ hc ih =>
    refine ⟨h.issued, h.job, fun r' hr' hid htok => ?_⟩
    rcases hc.origin hr' with ⟨r, hr, hm⟩ | hr | ⟨hn, -⟩
    · obtain ⟨ht, -, ha, -⟩ := hm.held htok fun hkf => hf _ (List.mem_append_left _ hkf) h.issued
      have := ih.row r hr (hm.same.1 ▸ hid) ht
      exact ⟨ha.trans this.1, hm.same.2.1.trans this.2⟩
    · exact ih.row r' hr hid htok
    · exact absurd (hn.symm.trans htok) (by simp)

/-! ### The program's writes are moves -/

section Writes
variable {now : Time} {c : Claim} {t t' : List (Job π)}

theorem Moves.refl (a : Actor) (r : Job π) : Moves a r r :=
  .kept ⟨rfl, rfl, rfl⟩ ⟨rfl, rfl, rfl, rfl⟩ rfl (.inl rfl)

omit [JobData π] in
theorem LeaseCondition.heldBy (h : LeaseCondition now c r) :
    HeldBy ⟨now, [], [], some c.leaseToken, false⟩ r := by
  obtain ⟨-, hrun, htok, -, -⟩ := h
  exact ⟨hrun, by simp [htok], htok⟩

theorem moves_claimed {jobId token : Uuid} {writer : Option Uuid} (h : ClaimWhere now jobId r) :
    Moves ⟨now, [token], [], writer, false⟩ r (claimed now token r) :=
  .claimed ⟨rfl, rfl, rfl⟩ ⟨rfl, h.2⟩ rfl rfl rfl ⟨token, by simp, rfl⟩
    ⟨_, rfl, lt_add_of_pos_right now (seconds_pos (by decide))⟩ rfl

theorem moves_finished {g : π → π} (hg : JobData.Grows r.data (g r.data))
    (h : LeaseCondition now c r) : Moves ⟨now, [], [], some c.leaseToken, false⟩ r (finished now g r) :=
  .closed ⟨rfl, rfl, rfl⟩ (.inr h.2.1) (.inl rfl) rfl rfl rfl rfl (.inr ⟨h.heldBy, hg⟩)

theorem moves_failedWith (code message : String) (h : r.status.Active) :
    Moves a r (failedWith now code message r) :=
  .closed ⟨rfl, rfl, rfl⟩ h (.inr (.inl rfl)) rfl rfl rfl rfl (.inl ⟨by simp [failedWith], rfl⟩)

theorem moves_cancelled (h : r.status.Active) : Moves a r (cancelled now r) :=
  .closed ⟨rfl, rfl, rfl⟩ h (.inr (.inr rfl)) rfl rfl rfl rfl (.inl ⟨by simp [cancelled], rfl⟩)

theorem moves_superseded (h : r.status.Terminal) : Moves a r (superseded r) :=
  .superseded ⟨rfl, rfl, rfl⟩ ⟨rfl, rfl, rfl, rfl⟩ h rfl rfl

/-- A conditional update all of whose writes are moves. -/
theorem Changes.update {p : Job π → Prop} [DecidablePred p] {f : Job π → Job π}
    (h : ∀ r ∈ t, p r → Moves a r (f r)) : Changes a t (Table.update p f t) := by
  refine .single (.update _ fun r hr => ?_)
  split
  · exact h r hr ‹_›
  · exact .refl a r

theorem Changes.fencedIf {guard : Job π → Prop} [DecidablePred guard] {f : Job π → Job π}
    (h : ∀ r ∈ t, LeaseCondition now c r → guard r → Moves ⟨now, [], [], some c.leaseToken, false⟩ r (f r))
    (ht : fencedIf now c guard f t = some t') : Changes ⟨now, [], [], some c.leaseToken, false⟩ t t' := by
  unfold Job.fencedIf at ht
  split at ht
  · cases ht
    exact .update fun r hr hp => h r hr hp.1 hp.2
  · cases ht

theorem Changes.fenced {f : Job π → Job π}
    (h : ∀ r ∈ t, LeaseCondition now c r → Moves ⟨now, [], [], some c.leaseToken, false⟩ r (f r))
    (ht : Job.fenced now c f t = some t') : Changes ⟨now, [], [], some c.leaseToken, false⟩ t t' :=
  .fencedIf (fun r hr hl _ => h r hr hl) ht

theorem Changes.reportStage {stage : String} (ht : Job.reportStage now c stage t = some t') :
    Changes ⟨now, [], [], some c.leaseToken, false⟩ t t' := by
  unfold Job.reportStage at ht
  refine Changes.fenced (fun r _ _ => ?_) ht
  exact .kept ⟨rfl, rfl, rfl⟩ ⟨rfl, rfl, rfl, rfl⟩ rfl (.inl rfl)

/-- Inserting a new job is a change when its id was just drawn. -/
theorem Changes.insert {id repositoryId : Uuid} {data : π} (hid : id ∈ a.inserts) (hnew : ∀ q ∈ t, q.id ≠ id)
    (hd : JobData.New data)
    (ht : Job.insert t (Job.new id repositoryId now data) = some t') : Changes a t t' := by
  unfold Job.insert at ht
  split at ht
  · cases ht
  · rename_i hq
    cases ht
    refine .single (.insert _ hid hnew (fun q hq' hc he => ?_) rfl rfl rfl rfl rfl hd)
    exact hq ⟨q, hq', hc, he⟩

omit [JobData π] in
theorem insert_eq (h : Job.insert t r = some t') : t' = t ++ [r] := by
  unfold Job.insert at h
  split at h
  · cases h
  · exact (Option.some.inj h).symm

omit [JobData π] in
theorem mem_of_insert {q : Job π} (h : Job.insert t r = some t') (hq : q ∈ t') : q ∈ t ∨ q = r := by
  rw [insert_eq h] at hq
  rcases List.mem_append.1 hq with hq | hq
  · exact .inl hq
  · exact .inr (List.mem_singleton.1 hq)

omit [JobData π] in
theorem mem_insert_self (h : Job.insert t r = some t') : r ∈ t' := by
  rw [insert_eq h]
  exact List.mem_append_right _ (List.mem_singleton.2 rfl)

theorem Changes.delete (p : Job π → Bool) (ha : a.deletes = true) : Changes a t (t.filter p) :=
  .single (.delete p ha)

omit [JobData π] in
theorem claimJob_eq {repositories : List Repository} {jobId token : Uuid} {p : List (Job π) × Claim}
    (h : claimJob now repositories jobId token t = some p) :
    ∃ r ∈ t, ClaimWhere now jobId r ∧ (∃ q ∈ repositories, q.id = r.repositoryId) ∧
      p.1 = Table.update (ClaimWhere now jobId) (claimed now token) t ∧
      p.2.jobId = r.id ∧ p.2.repositoryId = r.repositoryId ∧ p.2.leaseToken = token ∧
      p.2.attempt = r.attempts + 1 := by
  unfold claimJob at h
  simp only [Option.bind_eq_bind, Option.bind_eq_some_iff] at h
  obtain ⟨r, hr, q, hq, hp⟩ := h
  cases hp
  have hw := List.find?_some hr
  have hqid := List.find?_some hq
  simp only [decide_eq_true_eq] at hw hqid
  exact ⟨r, List.mem_of_find?_eq_some hr, hw, ⟨q, List.mem_of_find?_eq_some hq, hqid⟩, rfl, rfl, hqid, rfl, rfl⟩

theorem Changes.claimJob {writer : Option Uuid} {repositories : List Repository} {jobId token : Uuid}
    {p : List (Job π) × Claim} (h : Job.claimJob now repositories jobId token t = some p) :
    Changes ⟨now, [token], [], writer, false⟩ t p.1 := by
  obtain ⟨-, -, -, -, ht, -⟩ := claimJob_eq h
  rw [ht]
  exact .update fun _ _ hw => moves_claimed hw

omit [JobData π] in
/-- A claim is granted by the transaction that makes it. -/
theorem Granted.claimJob {w : World} {repositories : List Repository} {jobId token : Uuid}
    {p : List (Job π) × Claim} (hg : Good w t) (htok : token ∉ w.issued)
    (h : Job.claimJob now repositories jobId token t = some p) {w' : World} (hw' : token ∈ w'.issued)
    (hsub : ∀ i ∈ w.issued, i ∈ w'.issued) : Granted w' p.1 p.2 := by
  obtain ⟨r, hr, hw, -, ht, hj, hrepo, hk, ha⟩ := claimJob_eq h
  refine ⟨by rw [hk]; exact hw', by rw [hj]; exact hsub _ (hg.ids r hr), fun r' hr' hid hrtok => ?_⟩
  rw [ht] at hr'
  obtain ⟨q, hq, rfl⟩ := Table.mem_update.1 hr'
  by_cases hqw : ClaimWhere now jobId q
  · rw [if_pos hqw] at hid ⊢
    have : q = r := hg.keyed.eq hq hr (hqw.1.trans hw.1.symm)
    subst this
    exact ⟨ha.symm, hrepo.symm⟩
  · rw [if_neg hqw] at hrtok
    rw [hk] at hrtok
    exact absurd (hg.tokens q hq _ hrtok) htok

omit [JobData π] in
/-- A fenced write needs a live lease. -/
theorem fencedIf_isSome {guard : Job π → Prop} [DecidablePred guard] {f : Job π → Job π}
    (h : fencedIf now c guard f t = some t') :
    (∃ r ∈ t, LeaseCondition now c r ∧ guard r) ∧
      t' = Table.update (fun r => LeaseCondition now c r ∧ guard r) f t := by
  unfold fencedIf at h
  split at h
  · rename_i hx
    exact ⟨hx, (Option.some.inj h).symm⟩
  · cases h

omit [JobData π] in
theorem LeaseCondition.live (hr : r ∈ t) (h : LeaseCondition now c r) : lease.Live now c.jobId c.leaseToken t := by
  obtain ⟨hid, -, htok, -, e, he, hlt⟩ := h
  exact ⟨r, hr, ⟨hid, htok⟩, e, he, hlt⟩

omit [JobData π] in
/-- Without a live lease every fenced write is refused. -/
theorem fencedIf_of_not_live {guard : Job π → Prop} [DecidablePred guard] {f : Job π → Job π}
    (h : ¬ lease.Live now c.jobId c.leaseToken t) : fencedIf now c guard f t = none := by
  unfold fencedIf
  rw [if_neg]
  rintro ⟨r, hr, hl, -⟩
  exact h (hl.live hr)

end Writes

end Job
end RepoPilot
