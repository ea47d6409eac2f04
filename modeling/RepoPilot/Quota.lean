import RepoPilot.Machine

/-! # Counting under a lock

Transactions that insert rows below other rows, statement by statement. Each reads what was committed and
what it wrote itself. A row is locked by one transaction at a time, and a transaction keeps its locks to its
end. If every insertion is made on the strength of a count that was taken under the lock of the parent, no
parent ever has more children than its limit, however the transactions interleave.

Lock exclusion alone is not enough: a row that is gone cannot be locked, so a transaction may ask for a lock
and run on without it. It then never finds the row again, because identifiers are not used twice. -/

namespace RepoPilot
namespace Quota

variable {ν ι : Type}

inductive Statement (ν : Type)
  /-- Read a row; without it the transaction ends. -/
  | find (k : ν)
  /-- `SELECT … FOR UPDATE`; a row that is gone is not locked. -/
  | lock (k : ν)
  /-- Count the children; at the limit the transaction ends. -/
  | count (k : ν)
  /-- Insert `c` below `k`. -/
  | insert (c k : ν)
  /-- Anything else, inside the database or not. -/
  | other

/-- A transaction: the statements to come, and what was done so far. -/
structure Txn (ν : Type) where
  rest : List (Statement ν)
  seen : List ν
  asked : List ν
  counted : Option ν
  pending : List (ν × ν)

/-- The rows that are committed, each with its parent; the identifiers used and the rows removed so far; the
locks and the transactions. -/
structure World (ν : Type) where
  rows : List (ν × ν)
  used : List ν
  gone : List ν
  locks : List (ν × Nat)
  txns : Nat → Option (Txn ν)

inductive Action (ν ι : Type)
  | start (p : Nat) (request : ι)
  | next (p : Nat)
  | rollback (p : Nat)
  /-- Remove rows, unless one of them is locked. -/
  | remove (doomed : List ν)

variable [DecidableEq ν]

/-- The number of rows below `k`. -/
def below (k : ν) (rows : List (ν × ν)) : Nat := (rows.filter (·.2 = k)).length

def World.has (root : ν → Bool) (w : World ν) (k : ν) : Bool := root k ∨ k ∈ w.rows.map Prod.fst

def World.set (w : World ν) (p : Nat) (t : Txn ν) : World ν := { w with txns := Function.update w.txns p (some t) }

/-- The end of a transaction frees its locks. -/
def World.finish (w : World ν) (p : Nat) : World ν :=
  { w with locks := w.locks.filter (·.2 ≠ p), txns := Function.update w.txns p none }

def World.commit (w : World ν) (p : Nat) (t : Txn ν) : World ν :=
  { w.finish p with rows := w.rows ++ t.pending }

section Machine
variable (root : ν → Bool) (limit : ν → Nat)

/-- The next statement of `p`; a lock another transaction holds makes it wait. -/
def World.next (w : World ν) (p : Nat) (t : Txn ν) : World ν :=
  match t.rest with
  | [] => w.commit p t
  | .find k :: rest =>
    if w.has root k then w.set p { t with rest := rest, seen := k :: t.seen } else w.finish p
  | .lock k :: rest =>
    if ∃ e ∈ w.locks, e.1 = k ∧ e.2 ≠ p then w
    else if w.has root k then
      { w.set p { t with rest := rest, asked := k :: t.asked } with locks := (k, p) :: w.locks }
    else w.set p { t with rest := rest, asked := k :: t.asked }
  | .count k :: rest =>
    if below k w.rows + below k t.pending < limit k then
      w.set p { t with rest := rest, counted := if k ∈ t.asked then some k else none }
    else w.finish p
  | .insert c k :: rest =>
    if w.has root k ∧ c ∉ w.used ∧ ¬ root c then
      { w.set p { t with rest := rest, counted := none, pending := (c, k) :: t.pending } with used := c :: w.used }
    else w.finish p
  | .other :: rest => w.set p { t with rest := rest }

def World.remove (w : World ν) (doomed : List ν) : World ν :=
  if ∃ e ∈ w.locks, e.1 ∈ doomed then w
  else
    { w with
      rows := w.rows.filter (·.1 ∉ doomed)
      gone := (w.rows.map Prod.fst).filter (· ∈ doomed) ++ w.gone }

/-- The machine whose requests run the given programs. -/
def machine (programs : ι → List (Statement ν)) : Machine (World ν) (Action ν ι) where
  init := ⟨[], [], [], [], fun _ => none⟩
  step w
    | .start p request =>
      if (w.txns p).isNone then w.set p ⟨programs request, [], [], none, []⟩ else w
    | .next p =>
      match w.txns p with
      | none => w
      | some t => w.next root limit p t
    | .rollback p => w.finish p
    | .remove doomed => w.remove doomed

/-- Every insertion follows a count of the same parent, the count a lock, and the lock a read of the row; one
count allows one insertion. -/
def Safe : List ν → List ν → Option ν → List (Statement ν) → Prop
  | _, _, _, [] => True
  | seen, asked, counted, .find k :: rest => Safe (k :: seen) asked counted rest
  | seen, asked, counted, .lock k :: rest => (root k = true ∨ k ∈ seen) ∧ Safe seen (k :: asked) counted rest
  | seen, asked, _, .count k :: rest => Safe seen asked (if k ∈ asked then some k else none) rest
  | seen, asked, counted, .insert _ k :: rest => counted = some k ∧ Safe seen asked none rest
  | seen, asked, counted, .other :: rest => Safe seen asked counted rest

end Machine

/-! ### The invariant -/

variable {root : ν → Bool} {limit : ν → Nat} {w : World ν} {p : Nat} {t : Txn ν}

/-- What holds of a transaction: what it asked for it has locked, or is gone; under its locks it knows how many
children there are. -/
structure TxnInv (root : ν → Bool) (limit : ν → Nat) (w : World ν) (p : Nat) (t : Txn ν) : Prop where
  safe : Safe root t.seen t.asked t.counted t.rest
  seen : ∀ k ∈ t.seen, w.has root k = true ∨ k ∈ w.gone
  asked : ∀ k ∈ t.asked, (k, p) ∈ w.locks ∨ k ∈ w.gone
  countedAsked : ∀ k, t.counted = some k → k ∈ t.asked
  fresh : ∀ r ∈ t.pending, r.1 ∈ w.used ∧ r.1 ∉ w.rows.map Prod.fst ∧ r.1 ∉ w.gone
  held : ∀ r ∈ t.pending, (r.2, p) ∈ w.locks
  counted : ∀ k, t.counted = some k → (k, p) ∈ w.locks → below k w.rows + below k t.pending < limit k
  fits : ∀ k, (k, p) ∈ w.locks → below k w.rows + below k t.pending ≤ limit k

structure Inv (root : ν → Bool) (limit : ν → Nat) (w : World ν) : Prop where
  rows : ∀ k ∈ w.rows.map Prod.fst, k ∈ w.used
  gone : ∀ k ∈ w.gone, k ∈ w.used ∧ k ∉ w.rows.map Prod.fst
  used : ∀ k ∈ w.used, root k = false
  exclusive : ∀ k p q, (k, p) ∈ w.locks → (k, q) ∈ w.locks → p = q
  txns : ∀ p t, w.txns p = some t → TxnInv root limit w p t
  apart : ∀ p q t u, p ≠ q → w.txns p = some t → w.txns q = some u → ∀ r ∈ t.pending, ∀ s ∈ u.pending, r.1 ≠ s.1
  bound : ∀ k, below k w.rows ≤ limit k

theorem below_append (k : ν) (rows rows' : List (ν × ν)) : below k (rows ++ rows') = below k rows + below k rows' := by
  simp [below]

theorem below_filter_le (k : ν) (f : ν × ν → Bool) (rows : List (ν × ν)) : below k (rows.filter f) ≤ below k rows :=
  (List.filter_sublist.filter _).length_le

theorem below_eq_zero {k : ν} {rows : List (ν × ν)} (h : ∀ r ∈ rows, r.2 ≠ k) : below k rows = 0 := by
  unfold below
  rw [List.length_eq_zero_iff, List.filter_eq_nil_iff]
  simpa using h

theorem not_gone_of_has (h : Inv root limit w) {k : ν} (hk : w.has root k = true) : k ∉ w.gone := by
  intro hgone
  obtain ⟨hused, hrow⟩ := h.gone k hgone
  have hroot := h.used k hused
  simp only [World.has, decide_eq_true_eq] at hk
  rcases hk with hk | hk
  · rw [hroot] at hk
    cases hk
  · exact hrow hk

/-- A transaction does not notice a step of another one that leaves its locks alone and adds nothing below what it
has locked. -/
theorem TxnInv.other {w' : World ν} (h : TxnInv root limit w p t)
    (hseen : ∀ k, w.has root k = true → w'.has root k = true ∨ k ∈ w'.gone) (hgone : ∀ k ∈ w.gone, k ∈ w'.gone)
    (hlocks : ∀ k, (k, p) ∈ w'.locks ↔ (k, p) ∈ w.locks)
    (hfresh : ∀ r ∈ t.pending, r.1 ∈ w'.used ∧ r.1 ∉ w'.rows.map Prod.fst ∧ r.1 ∉ w'.gone)
    (hbelow : ∀ k, (k, p) ∈ w.locks → below k w'.rows ≤ below k w.rows) : TxnInv root limit w' p t where
  safe := h.safe
  seen := fun k hk => (h.seen k hk).elim (hseen k) fun hg => .inr (hgone k hg)
  asked := fun k hk => (h.asked k hk).imp (hlocks k).2 (hgone k)
  countedAsked := h.countedAsked
  fresh := hfresh
  held := fun r hr => (hlocks r.2).2 (h.held r hr)
  counted := fun k hk hl => by
    have hl' := (hlocks k).1 hl
    have h1 := h.counted k hk hl'
    have h2 := hbelow k hl'
    omega
  fits := fun k hl => by
    have hl' := (hlocks k).1 hl
    have h1 := h.fits k hl'
    have h2 := hbelow k hl'
    omega

omit [DecidableEq ν] in
theorem set_txns_self (w : World ν) (p : Nat) (t : Txn ν) : (w.set p t).txns p = some t := Function.update_self ..

omit [DecidableEq ν] in
theorem set_txns_ne (w : World ν) {p q : Nat} (t : Txn ν) (h : q ≠ p) : (w.set p t).txns q = w.txns q :=
  Function.update_of_ne h ..

omit [DecidableEq ν] in
theorem finish_txns_self (w : World ν) (p : Nat) : (w.finish p).txns p = none := Function.update_self ..

omit [DecidableEq ν] in
theorem finish_txns_ne (w : World ν) {p q : Nat} (h : q ≠ p) : (w.finish p).txns q = w.txns q :=
  Function.update_of_ne h ..

/-- A transaction goes on without touching anything else. -/
theorem Inv.set (h : Inv root limit w) {t' : Txn ν} (ht : TxnInv root limit w p t')
    (hp : ∀ q u, q ≠ p → w.txns q = some u → ∀ r ∈ t'.pending, ∀ s ∈ u.pending, r.1 ≠ s.1) :
    Inv root limit (w.set p t') where
  rows := h.rows
  gone := h.gone
  used := h.used
  exclusive := h.exclusive
  txns := fun q u hq => by
    by_cases hqp : q = p
    · subst hqp
      rw [set_txns_self] at hq
      obtain rfl := Option.some.inj hq
      exact ht.other (fun _ => .inl) (fun _ => id) (fun _ => Iff.rfl) ht.fresh fun _ _ => le_rfl
    · rw [set_txns_ne _ _ hqp] at hq
      have hu := h.txns q u hq
      exact hu.other (fun _ => .inl) (fun _ => id) (fun _ => Iff.rfl) hu.fresh fun _ _ => le_rfl
  apart := fun q q' u u' hne hq hq' => by
    by_cases hqp : q = p
    · subst hqp
      rw [set_txns_self] at hq
      obtain rfl := Option.some.inj hq
      rw [set_txns_ne _ _ hne.symm] at hq'
      exact hp q' u' hne.symm hq'
    · rw [set_txns_ne _ _ hqp] at hq
      by_cases hqp' : q' = p
      · subst hqp'
        rw [set_txns_self] at hq'
        obtain rfl := Option.some.inj hq'
        exact fun r hr s hs => (hp q u hqp hq s hs r hr).symm
      · rw [set_txns_ne _ _ hqp'] at hq'
        exact h.apart q q' u u' hne hq hq'
  bound := h.bound

omit [DecidableEq ν] in
theorem mem_finish_locks {k : ν} {q : Nat} : (k, q) ∈ (w.finish p).locks ↔ (k, q) ∈ w.locks ∧ q ≠ p := by
  simp [World.finish, List.mem_filter]

theorem Inv.finish (h : Inv root limit w) (p : Nat) : Inv root limit (w.finish p) where
  rows := h.rows
  gone := h.gone
  used := h.used
  exclusive := fun k q q' hq hq' => h.exclusive k q q' (mem_finish_locks.1 hq).1 (mem_finish_locks.1 hq').1
  txns := fun q u hq => by
    by_cases hqp : q = p
    · rw [hqp, finish_txns_self] at hq
      cases hq
    · rw [finish_txns_ne _ hqp] at hq
      have hu := h.txns q u hq
      exact hu.other (fun _ => .inl) (fun _ => id) (fun k => mem_finish_locks.trans (and_iff_left hqp)) hu.fresh
        fun _ _ => le_rfl
  apart := fun q q' u u' hne hq hq' => by
    by_cases hqp : q = p
    · rw [hqp, finish_txns_self] at hq
      cases hq
    · by_cases hqp' : q' = p
      · rw [hqp', finish_txns_self] at hq'
        cases hq'
      · rw [finish_txns_ne _ hqp] at hq
        rw [finish_txns_ne _ hqp'] at hq'
        exact h.apart q q' u u' hne hq hq'
  bound := h.bound

theorem has_append {k : ν} {rows : List (ν × ν)} (hk : w.has root k = true) :
    ({ w with rows := w.rows ++ rows } : World ν).has root k = true := by
  simp only [World.has, decide_eq_true_eq, List.map_append, List.mem_append] at hk ⊢
  tauto

/-- What a transaction inserted counts for the others when it is committed, and none of them has locked the
parent. -/
theorem Inv.commit (h : Inv root limit w) (ht : w.txns p = some t) : Inv root limit (w.commit p t) := by
  have hinv := h.txns p t ht
  have hf := h.finish p
  have hbelow : ∀ k q, q ≠ p → (k, q) ∈ w.locks → below k t.pending = 0 := by
    intro k q hqp hl
    refine below_eq_zero fun r hr he => hqp ?_
    subst he
    exact h.exclusive r.2 q p hl (hinv.held r hr)
  refine ⟨fun k hk => ?_, fun k hk => ?_, h.used, hf.exclusive, fun q u hq => ?_, hf.apart, fun k => ?_⟩
  · rw [show (w.commit p t).rows = w.rows ++ t.pending from rfl, List.map_append] at hk
    rcases List.mem_append.1 hk with hk | hk
    · exact h.rows k hk
    · obtain ⟨r, hr, rfl⟩ := List.mem_map.1 hk
      exact (hinv.fresh r hr).1
  · obtain ⟨hused, hrow⟩ := h.gone k hk
    refine ⟨hused, fun hmem => ?_⟩
    rw [show (w.commit p t).rows = w.rows ++ t.pending from rfl, List.map_append] at hmem
    rcases List.mem_append.1 hmem with hmem | hmem
    · exact hrow hmem
    · obtain ⟨r, hr, rfl⟩ := List.mem_map.1 hmem
      exact (hinv.fresh r hr).2.2 hk
  · have hqp : q ≠ p := by
      rintro rfl
      rw [show (w.commit q t).txns q = (w.finish q).txns q from rfl, finish_txns_self] at hq
      cases hq
    rw [show (w.commit p t).txns q = (w.finish p).txns q from rfl, finish_txns_ne _ hqp] at hq
    have hu := h.txns q u hq
    refine hu.other (fun k hk => .inl (has_append hk)) (fun _ => id)
      (fun k => mem_finish_locks.trans (and_iff_left hqp)) (fun r hr => ?_) fun k hl => ?_
    · obtain ⟨h1, h2, h3⟩ := hu.fresh r hr
      refine ⟨h1, fun hmem => ?_, h3⟩
      rw [show (w.commit p t).rows = w.rows ++ t.pending from rfl, List.map_append] at hmem
      rcases List.mem_append.1 hmem with hmem | hmem
      · exact h2 hmem
      · obtain ⟨s, hs, he⟩ := List.mem_map.1 hmem
        exact h.apart p q t u hqp.symm ht hq s hs r hr he
    · show below k (w.rows ++ t.pending) ≤ below k w.rows
      rw [below_append, hbelow k q hqp hl, Nat.add_zero]
  · show below k (w.rows ++ t.pending) ≤ limit k
    rw [below_append]
    by_cases hzero : below k t.pending = 0
    · rw [hzero, Nat.add_zero]
      exact h.bound k
    · obtain ⟨r, hr⟩ := List.exists_mem_of_length_pos (Nat.pos_of_ne_zero hzero)
      obtain ⟨hmem, he⟩ := List.mem_filter.1 hr
      obtain rfl : r.2 = k := by simpa using he
      exact hinv.fits r.2 (hinv.held r hmem)

/-- Rows that nobody has locked may go. -/
theorem Inv.remove (h : Inv root limit w) (doomed : List ν) : Inv root limit (w.remove doomed) := by
  unfold World.remove
  split
  · exact h
  · rename_i hfree
    have hrows : ∀ {k}, k ∈ (w.rows.filter (·.1 ∉ doomed)).map Prod.fst ↔ k ∈ w.rows.map Prod.fst ∧ k ∉ doomed := by
      intro k
      simp only [List.mem_map, List.mem_filter, decide_eq_true_eq]
      constructor
      · rintro ⟨r, ⟨hr, hd⟩, rfl⟩
        exact ⟨⟨r, hr, rfl⟩, hd⟩
      · rintro ⟨⟨r, hr, rfl⟩, hd⟩
        exact ⟨r, ⟨hr, hd⟩, rfl⟩
    refine ⟨fun k hk => h.rows k (hrows.1 hk).1, fun k hk => ?_, h.used, h.exclusive, fun q u hq => ?_, h.apart,
      fun k => (below_filter_le k _ _).trans (h.bound k)⟩
    · rcases List.mem_append.1 hk with hk | hk
      · obtain ⟨hk, hd⟩ := List.mem_filter.1 hk
        exact ⟨h.rows k hk, fun hmem => (hrows.1 hmem).2 (by simpa using hd)⟩
      · exact ⟨(h.gone k hk).1, fun hmem => (h.gone k hk).2 (hrows.1 hmem).1⟩
    · have hu := h.txns q u hq
      refine hu.other (fun k hk => ?_) (fun k hk => List.mem_append_right _ hk) (fun _ => Iff.rfl) (fun r hr => ?_)
        fun k _ => below_filter_le k _ _
      · simp only [World.has, decide_eq_true_eq, hrows] at hk ⊢
        by_cases hd : k ∈ doomed
        · refine hk.imp (fun hr => .inl hr) fun hk => List.mem_append_left _ ?_
          exact List.mem_filter.2 ⟨hk, by simpa using hd⟩
        · exact .inl (hk.imp id fun hk => ⟨hk, hd⟩)
      · obtain ⟨h1, h2, h3⟩ := hu.fresh r hr
        refine ⟨h1, fun hmem => h2 (hrows.1 hmem).1, fun hmem => ?_⟩
        rcases List.mem_append.1 hmem with hmem | hmem
        · exact h2 (List.mem_filter.1 hmem).1
        · exact h3 hmem

/-! ### One step of a transaction -/

/-- A row that is there may be locked if no other transaction has locked it. -/
theorem Inv.lock (h : Inv root limit w) {k : ν} (hk : w.has root k = true)
    (hfree : ¬ ∃ e ∈ w.locks, e.1 = k ∧ e.2 ≠ p) :
    Inv root limit { w with locks := (k, p) :: w.locks } := by
  have hother : ∀ {j q}, q ≠ p → ((j, q) ∈ (k, p) :: w.locks ↔ (j, q) ∈ w.locks) := by
    intro j q hqp
    simp [hqp]
  have hmine : ∀ {q}, (k, q) ∈ w.locks → q = p := fun hq => by
    by_contra hne
    exact hfree ⟨_, hq, rfl, hne⟩
  refine ⟨h.rows, h.gone, h.used, fun j q q' hq hq' => ?_, fun q u hq => ?_, h.apart, h.bound⟩
  · rcases List.mem_cons.1 hq with he | hold
    · obtain ⟨rfl, rfl⟩ := Prod.mk.inj he
      rcases List.mem_cons.1 hq' with he' | hold'
      · exact (Prod.mk.inj he').2.symm
      · exact (hmine hold').symm
    · rcases List.mem_cons.1 hq' with he' | hold'
      · obtain ⟨rfl, rfl⟩ := Prod.mk.inj he'
        exact hmine hold
      · exact h.exclusive j q q' hold hold'
  · have hu := h.txns q u hq
    by_cases hqp : q = p
    · subst hqp
      refine ⟨hu.safe, hu.seen, fun j hj => (hu.asked j hj).imp_left (List.mem_cons_of_mem _), hu.countedAsked,
        hu.fresh, fun r hr => List.mem_cons_of_mem _ (hu.held r hr), fun j hj hl => ?_, fun j hl => ?_⟩
      · rcases List.mem_cons.1 hl with he | hl
        · obtain ⟨rfl, -⟩ := Prod.mk.inj he
          exact hu.counted j hj ((hu.asked j (hu.countedAsked j hj)).resolve_right (not_gone_of_has h hk))
        · exact hu.counted j hj hl
      · rcases List.mem_cons.1 hl with he | hl
        · obtain ⟨rfl, -⟩ := Prod.mk.inj he
          by_cases hheld : (j, q) ∈ w.locks
          · exact hu.fits j hheld
          · rw [show below j u.pending = 0 from below_eq_zero fun r hr he => hheld (he ▸ hu.held r hr)]
            exact h.bound j
        · exact hu.fits j hl
    · exact hu.other (fun _ => .inl) (fun _ => id) (fun _ => hother hqp) hu.fresh fun _ _ => le_rfl

/-- An identifier that was never used is used. -/
theorem Inv.use (h : Inv root limit w) {c : ν} (hc : root c = false) :
    Inv root limit { w with used := c :: w.used } where
  rows := fun k hk => List.mem_cons_of_mem _ (h.rows k hk)
  gone := fun k hk => ⟨List.mem_cons_of_mem _ (h.gone k hk).1, (h.gone k hk).2⟩
  used := fun k hk => by
    rcases List.mem_cons.1 hk with rfl | hk
    · exact hc
    · exact h.used k hk
  exclusive := h.exclusive
  txns := fun q u hq => by
    have hu := h.txns q u hq
    refine hu.other (fun _ => .inl) (fun _ => id) (fun _ => Iff.rfl) (fun r hr => ?_) fun _ _ => le_rfl
    obtain ⟨h1, h2, h3⟩ := hu.fresh r hr
    exact ⟨List.mem_cons_of_mem _ h1, h2, h3⟩
  apart := h.apart
  bound := h.bound

theorem TxnInv.insert {c k : ν} {rest : List (Statement ν)} (h : Inv root limit w) (ht : TxnInv root limit w p t)
    (hrest : t.rest = .insert c k :: rest) (hk : w.has root k = true) (hc : c ∉ w.used) :
    TxnInv root limit { w with used := c :: w.used } p
      { t with rest := rest, counted := none, pending := (c, k) :: t.pending } := by
  have hsafe := ht.safe
  rw [hrest] at hsafe
  obtain ⟨hcounted, hsafe⟩ := hsafe
  have hlock : (k, p) ∈ w.locks :=
    (ht.asked k (ht.countedAsked k hcounted)).resolve_right (not_gone_of_has h hk)
  refine ⟨hsafe, ht.seen, ht.asked, nofun, fun r hr => ?_, fun r hr => ?_, nofun, fun j hl => ?_⟩
  · rcases List.mem_cons.1 hr with rfl | hr
    · exact ⟨List.mem_cons_self, fun hm => hc (h.rows c hm), fun hm => hc (h.gone c hm).1⟩
    · obtain ⟨h1, h2, h3⟩ := ht.fresh r hr
      exact ⟨List.mem_cons_of_mem _ h1, h2, h3⟩
  · rcases List.mem_cons.1 hr with rfl | hr
    · exact hlock
    · exact ht.held r hr
  · by_cases hj : k = j
    · subst hj
      have hlt := ht.counted k hcounted hlock
      rw [show below k ((c, k) :: t.pending) = below k t.pending + 1 by simp [below]]
      exact hlt
    · rw [show below j ((c, k) :: t.pending) = below j t.pending by simp [below, hj]]
      exact ht.fits j hl

theorem Inv.next (h : Inv root limit w) (ht : w.txns p = some t) : Inv root limit (w.next root limit p t) := by
  have hinv := h.txns p t ht
  have hsafe := hinv.safe
  have hold : ∀ q u, q ≠ p → w.txns q = some u → ∀ r ∈ t.pending, ∀ s ∈ u.pending, r.1 ≠ s.1 :=
    fun q u hqp hq => h.apart p q t u hqp.symm ht hq
  unfold World.next
  split
  · exact h.commit ht
  · rename_i k rest hrest
    rw [hrest] at hsafe
    split
    · rename_i hk
      refine h.set ⟨hsafe, fun j hj => ?_, hinv.asked, hinv.countedAsked, hinv.fresh, hinv.held, hinv.counted,
        hinv.fits⟩ hold
      rcases List.mem_cons.1 hj with rfl | hj
      · exact .inl hk
      · exact hinv.seen j hj
    · exact h.finish p
  · rename_i k rest hrest
    rw [hrest] at hsafe
    obtain ⟨hseen, hsafe⟩ := hsafe
    split
    · exact h
    · rename_i hfree
      split
      · rename_i hk
        have hl := h.lock hk hfree
        have hinv' := hl.txns p t ht
        refine hl.set ⟨hsafe, hinv'.seen, fun j hj => ?_, fun j hj => List.mem_cons_of_mem _ (hinv'.countedAsked j hj),
          hinv'.fresh, hinv'.held, hinv'.counted, hinv'.fits⟩ hold
        rcases List.mem_cons.1 hj with rfl | hj
        · exact .inl List.mem_cons_self
        · exact hinv'.asked j hj
      · rename_i hk
        -- the row was seen, so it is gone
        have hgone : k ∈ w.gone := by
          rcases hseen with hroot | hseen
          · exact (hk (by simp [World.has, hroot])).elim
          · exact (hinv.seen k hseen).resolve_left hk
        refine h.set ⟨hsafe, hinv.seen, fun j hj => ?_, fun j hj => List.mem_cons_of_mem _ (hinv.countedAsked j hj),
          hinv.fresh, hinv.held, hinv.counted, hinv.fits⟩ hold
        rcases List.mem_cons.1 hj with rfl | hj
        · exact .inr hgone
        · exact hinv.asked j hj
  · rename_i k rest hrest
    rw [hrest] at hsafe
    split
    · rename_i hlt
      have hcounted : ∀ j, (if k ∈ t.asked then some k else none) = some j → j = k ∧ k ∈ t.asked := by
        intro j hj
        split at hj
        · exact ⟨(Option.some.inj hj).symm, ‹_›⟩
        · cases hj
      refine h.set ⟨hsafe, hinv.seen, hinv.asked, fun j hj => ?_, hinv.fresh, hinv.held, fun j hj _ => ?_, hinv.fits⟩
        hold
      · obtain ⟨rfl, hasked⟩ := hcounted j hj
        exact hasked
      · obtain ⟨rfl, -⟩ := hcounted j hj
        exact hlt
    · exact h.finish p
  · rename_i c k rest hrest
    split
    · rename_i hok
      obtain ⟨hk, hc, hroot⟩ := hok
      refine (h.use (by simpa using hroot)).set (hinv.insert h hrest hk hc) fun q u hqp hq r hr s hs => ?_
      rcases List.mem_cons.1 hr with rfl | hr
      · rintro rfl
        exact hc ((h.txns q u hq).fresh s hs).1
      · exact hold q u hqp hq r hr s hs
    · exact h.finish p
  · rename_i rest hrest
    rw [hrest] at hsafe
    exact h.set ⟨hsafe, hinv.seen, hinv.asked, hinv.countedAsked, hinv.fresh, hinv.held, hinv.counted, hinv.fits⟩ hold

/-! ### Whole runs -/

theorem Inv.start (h : Inv root limit w) {program : List (Statement ν)} (hsafe : Safe root [] [] none program) :
    Inv root limit (w.set p ⟨program, [], [], none, []⟩) := by
  refine h.set ⟨hsafe, List.forall_mem_nil _, List.forall_mem_nil _, nofun, List.forall_mem_nil _,
    List.forall_mem_nil _, nofun, fun k _ => h.bound k⟩ fun _ _ _ _ _ hr => ?_
  cases hr

theorem inv_init : Inv root limit (⟨[], [], [], [], fun _ => none⟩ : World ν) where
  rows := List.forall_mem_nil _
  gone := List.forall_mem_nil _
  used := List.forall_mem_nil _
  exclusive := fun _ _ _ h => by cases h
  txns := fun _ _ h => by cases h
  apart := fun _ _ _ _ _ h => by cases h
  bound := fun k => Nat.zero_le _

variable {programs : ι → List (Statement ν)}

theorem inv_step (hsafe : ∀ i, Safe root [] [] none (programs i)) (w : World ν) (a : Action ν ι)
    (h : Inv root limit w) : Inv root limit ((machine root limit programs).step w a) := by
  match a with
  | .start p request =>
    show Inv root limit (if (w.txns p).isNone then w.set p ⟨programs request, [], [], none, []⟩ else w)
    split
    · exact h.start (hsafe request)
    · exact h
  | .next p =>
    show Inv root limit (match w.txns p with
      | none => w
      | some t => w.next root limit p t)
    split
    · exact h
    · exact h.next ‹_›
  | .rollback p => exact h.finish p
  | .remove doomed => exact h.remove doomed

/-- No parent ever has more children than its limit. -/
theorem below_le (hsafe : ∀ i, Safe root [] [] none (programs i)) (acts : List (Action ν ι)) (k : ν) :
    below k ((machine root limit programs).run acts).rows ≤ limit k :=
  (Machine.invariant inv_init (inv_step hsafe) acts).bound k

end Quota
end RepoPilot
