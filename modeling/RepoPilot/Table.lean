import Mathlib

/-! # Tables as lists of rows

A table is the list of its rows in insertion order. `update` is a conditional `UPDATE … WHERE`,
`List.filter` is a `SELECT` or (negated) a `DELETE`, and `++` is an `INSERT`. `Keyed key t` is a
unique constraint: no two rows of `t` agree on `key`. -/

namespace RepoPilot
namespace Table

variable {α β κ : Type}

/-- `UPDATE t SET f WHERE p`. -/
def update (p : α → Prop) [DecidablePred p] (f : α → α) (t : List α) : List α :=
  t.map fun r => if p r then f r else r

/-- The rows of `t` are pairwise distinct on `key`. -/
def Keyed (key : α → κ) (t : List α) : Prop := (t.map key).Nodup

section Update
variable {p : α → Prop} [DecidablePred p] {f : α → α} {t : List α} {r : α}

theorem mem_update : r ∈ update p f t ↔ ∃ q ∈ t, r = if p q then f q else q := by
  simp only [update, List.mem_map, eq_comm]

theorem mem_update_of_mem (h : r ∈ t) : (if p r then f r else r) ∈ update p f t :=
  mem_update.2 ⟨r, h, rfl⟩

theorem mem_update_of_not (h : r ∈ t) (hp : ¬ p r) : r ∈ update p f t := by
  have := mem_update_of_mem (p := p) (f := f) h
  rwa [if_neg hp] at this

theorem mem_update_of_pos (h : r ∈ t) (hp : p r) : f r ∈ update p f t := by
  have := mem_update_of_mem (p := p) (f := f) h
  rwa [if_pos hp] at this

/-- An `UPDATE` whose `WHERE` clause matches nothing changes nothing. -/
theorem update_of_none (h : ∀ r ∈ t, ¬ p r) : update p f t = t := by
  unfold update
  refine (List.map_congr_left fun r hr => ?_).trans (List.map_id t)
  rw [if_neg (h r hr), id]

@[simp] theorem update_nil : update p f ([] : List α) = [] := rfl

@[simp] theorem length_update : (update p f t).length = t.length := by simp [update]

/-- A column the update does not write keeps its values. -/
theorem map_update (g : α → β) (h : ∀ r ∈ t, p r → g (f r) = g r) :
    (update p f t).map g = t.map g := by
  unfold update
  rw [List.map_map]
  refine List.map_congr_left fun r hr => ?_
  by_cases hp : p r
  · simp [hp, h r hr hp]
  · simp [hp]

theorem filter_update {q : α → Bool} (h : ∀ r ∈ t, p r → q (f r) = q r) :
    (update p f t).filter q = update p f (t.filter q) := by
  induction t with
  | nil => rfl
  | cons r t ih =>
    have iht := ih fun r hr => h r (List.mem_cons_of_mem _ hr)
    simp only [update, List.map_cons, List.filter_cons] at iht ⊢
    by_cases hp : p r
    · rw [if_pos hp, h r List.mem_cons_self hp, iht]
      split <;> simp [hp]
    · rw [if_neg hp, iht]
      split <;> simp [hp]

/-- A selection none of whose rows is updated, before or after, is unchanged. -/
theorem filter_update_of_false {q : α → Bool} (h : ∀ r ∈ t, p r → q r = false ∧ q (f r) = false) :
    (update p f t).filter q = t.filter q := by
  rw [filter_update fun r hr hp => by rw [(h r hr hp).1, (h r hr hp).2]]
  refine update_of_none fun r hr hp => ?_
  obtain ⟨hr, hq⟩ := List.mem_filter.1 hr
  rw [(h r hr hp).1] at hq
  cases hq

end Update

namespace Keyed
variable {key : α → κ} {t : List α} {r q : α}

theorem nil : Keyed key ([] : List α) := List.nodup_nil

/-- Two rows of a keyed table with one key are one row. -/
theorem eq (h : Keyed key t) (hr : r ∈ t) (hq : q ∈ t) (hk : key r = key q) : r = q :=
  List.inj_on_of_nodup_map h hr hq hk

theorem update {p : α → Prop} [DecidablePred p] {f : α → α} (h : Keyed key t)
    (hf : ∀ r ∈ t, p r → key (f r) = key r) : Keyed key (Table.update p f t) := by
  unfold Keyed
  rw [map_update key hf]
  exact h

theorem filter (p : α → Bool) (h : Keyed key t) : Keyed key (t.filter p) :=
  (List.Sublist.map key List.filter_sublist).nodup h

theorem append {u : List α} (h : Keyed key t) (hu : Keyed key u)
    (hd : ∀ r ∈ t, ∀ q ∈ u, key r ≠ key q) : Keyed key (t ++ u) := by
  unfold Keyed
  rw [List.map_append, List.nodup_append]
  refine ⟨h, hu, fun a ha b hb => ?_⟩
  obtain ⟨r, hr, rfl⟩ := List.mem_map.1 ha
  obtain ⟨q, hq, rfl⟩ := List.mem_map.1 hb
  exact hd r hr q hq

theorem insert (h : Keyed key t) (hd : ∀ r ∈ t, key r ≠ key q) : Keyed key (t ++ [q]) :=
  h.append (List.nodup_singleton _) fun r hr q' hq' => by
    rw [List.mem_singleton.1 hq']; exact hd r hr

/-- Looking a row up by its key finds it. -/
theorem find?_eq [DecidableEq κ] (h : Keyed key t) (hr : r ∈ t) :
    t.find? (fun q => key q = key r) = some r := by
  cases hf : t.find? (fun q => key q = key r) with
  | none =>
    have := List.find?_eq_none.1 hf r hr
    simp at this
  | some q =>
    have hq := List.find?_some hf
    exact congrArg some (h.eq (List.mem_of_find?_eq_some hf) hr (by simpa using hq))

/-- Selecting by the key of a row selects that row alone. -/
theorem filter_eq_singleton [DecidableEq κ] (h : Keyed key t) (hr : r ∈ t) :
    t.filter (fun q => key q = key r) = [r] := by
  induction t with
  | nil => cases hr
  | cons a t ih =>
    unfold Keyed at h
    rw [List.map_cons, List.nodup_cons] at h
    rw [List.filter_cons]
    rcases List.mem_cons.1 hr with rfl | hr
    · rw [if_pos (decide_eq_true rfl), List.filter_eq_nil_iff.2]
      intro q hq
      have hne : key q ≠ key r := fun he => h.1 (he ▸ List.mem_map_of_mem hq)
      simpa using hne
    · have hne : key a ≠ key r := fun he => h.1 (he ▸ List.mem_map_of_mem hr)
      rw [if_neg (by simpa using hne)]
      exact ih h.2 hr

end Keyed

theorem exists_of_mem_zipWith {f : α → β → κ} {xs : List α} {ys : List β} {z : κ}
    (h : z ∈ List.zipWith f xs ys) : ∃ x ∈ xs, ∃ y ∈ ys, z = f x y := by
  rw [← List.map_uncurry_zip_eq_zipWith] at h
  obtain ⟨⟨x, y⟩, hp, rfl⟩ := List.mem_map.1 h
  exact ⟨x, (List.of_mem_zip hp).1, y, (List.of_mem_zip hp).2, rfl⟩

theorem map_zipWith_left {f : α → β → κ} {key : κ → α} (hkey : ∀ x y, key (f x y) = x) :
    ∀ {xs : List α} {ys : List β}, xs.length = ys.length → (List.zipWith f xs ys).map key = xs
  | [], _, _ => by simp
  | x :: xs, [], h => by simp at h
  | x :: xs, y :: ys, h => by
    have hlen : xs.length = ys.length := by simpa using h
    have ih := map_zipWith_left hkey hlen
    simp only [List.zipWith_cons_cons, List.map_cons, hkey, ih]

theorem zipWith_right {f : α → β → κ} {g : β → κ} (hf : ∀ x y, f x y = g y) :
    ∀ {xs : List α} {ys : List β}, xs.length = ys.length → List.zipWith f xs ys = ys.map g
  | [], [], _ => rfl
  | [], y :: ys, h => by simp at h
  | x :: xs, [], h => by simp at h
  | x :: xs, y :: ys, h => by
    have hlen : xs.length = ys.length := by simpa using h
    have ih := zipWith_right hf hlen
    simp only [List.zipWith_cons_cons, List.map_cons, hf, ih]

/-- Rows with newly drawn keys keep a table keyed. -/
theorem Keyed.append_drawn {f : α → β → κ} {key : κ → α} (hkey : ∀ x y, key (f x y) = x) {t : List κ}
    (h : Keyed key t) {xs : List α} {ys : List β} (hlen : xs.length = ys.length) (hn : xs.Nodup)
    (hnew : ∀ r ∈ t, key r ∉ xs) : Keyed key (t ++ List.zipWith f xs ys) := by
  unfold Keyed
  rw [List.map_append, map_zipWith_left hkey hlen, List.nodup_append]
  refine ⟨h, hn, fun a ha b hb he => ?_⟩
  obtain ⟨r, hr, rfl⟩ := List.mem_map.1 ha
  exact hnew r hr (he ▸ hb)

/-! ### Lists of processes

A process list only grows and each step replaces one entry. -/

section Processes
variable {t : List α} {i : Nat} {r x : α}

theorem map_set_of_eq (g : α → β) (hi : t[i]? = some r) (h : g x = g r) :
    (t.set i x).map g = t.map g := by
  rw [List.map_set, h]
  obtain ⟨hlt, rfl⟩ := List.getElem?_eq_some_iff.1 hi
  apply List.ext_getElem?
  intro j
  by_cases hj : i = j
  · subst hj; simp [hlt]
  · simp [hj]

theorem mem_of_getElem? (hi : t[i]? = some r) : r ∈ t := List.mem_of_getElem? hi

theorem mem_set_self (hi : t[i]? = some r) : x ∈ t.set i x := by
  obtain ⟨hlt, -⟩ := List.getElem?_eq_some_iff.1 hi
  exact List.mem_iff_getElem?.2 ⟨i, List.getElem?_set_self hlt⟩

theorem mem_set_cases (h : r ∈ t.set i x) : r = x ∨ ∃ j, j ≠ i ∧ t[j]? = some r := by
  obtain ⟨j, hj⟩ := List.mem_iff_getElem?.1 h
  by_cases hji : j = i
  · subst hji
    by_cases hlt : j < t.length
    · rw [List.getElem?_set_self hlt] at hj
      exact .inl (Option.some.inj hj).symm
    · rw [List.getElem?_eq_none (by simpa using hlt)] at hj
      cases hj
  · rw [List.getElem?_set_ne fun h => hji h.symm] at hj
    exact .inr ⟨j, hji, hj⟩

/-- Two entries of a keyed table at different places have different keys. -/
theorem Keyed.ne_of_ne {key : α → κ} (h : Keyed key t) {j : Nat} {q : α} (hr : t[i]? = some r)
    (hq : t[j]? = some q) (hij : j ≠ i) : key q ≠ key r := by
  intro he
  have h1 : (t.map key)[i]? = some (key r) := by rw [List.getElem?_map, hr]; rfl
  have h2 : (t.map key)[j]? = some (key r) := by rw [List.getElem?_map, hq, ← he]; rfl
  obtain ⟨hj, -⟩ := List.getElem?_eq_some_iff.1 h2
  exact hij ((List.getElem?_inj hj h).1 (h2.trans h1.symm))

theorem sum_map_set (g : α → Nat) (hi : t[i]? = some r) :
    ((t.set i x).map g).sum + g r = (t.map g).sum + g x := by
  induction t generalizing i with
  | nil => simp at hi
  | cons a t ih =>
    cases i with
    | zero => simp at hi; subst hi; simp; omega
    | succ i =>
      have := ih (i := i) (by simpa using hi)
      simp only [List.set_cons_succ, List.map_cons, List.sum_cons]
      omega

theorem filterMap_set_of_eq (g : α → Option β) (hi : t[i]? = some r) (h : g x = g r) :
    (t.set i x).filterMap g = t.filterMap g := by
  induction t generalizing i with
  | nil => simp at hi
  | cons a t ih =>
    cases i with
    | zero =>
      simp only [List.getElem?_cons_zero, Option.some.injEq] at hi
      subst hi
      simp only [List.set_cons_zero, List.filterMap_cons, h]
    | succ i =>
      have := ih (i := i) (by simpa using hi)
      simp only [List.set_cons_succ, List.filterMap_cons, this]

/-- A process that starts to contribute adds its contribution. -/
theorem filterMap_set_perm (g : α → Option β) (hi : t[i]? = some r) (h : g r = none) {y : β}
    (hx : g x = some y) : ((t.set i x).filterMap g).Perm (y :: t.filterMap g) := by
  induction t generalizing i with
  | nil => simp at hi
  | cons a t ih =>
    cases i with
    | zero =>
      simp only [List.getElem?_cons_zero, Option.some.injEq] at hi
      subst hi
      simp only [List.set_cons_zero, List.filterMap_cons, h, hx]
      exact .refl _
    | succ i =>
      have ih := ih (i := i) (by simpa using hi)
      simp only [List.set_cons_succ, List.filterMap_cons]
      cases g a with
      | none => exact ih
      | some b => exact (ih.cons b).trans (.swap y b _)

/-- Replacing a process by one that counts alike. -/
theorem countP_set_of_eq (p : α → Bool) (hi : t[i]? = some r) (h : p x = p r) : (t.set i x).countP p = t.countP p := by
  have he := congrArg (List.countP id) (map_set_of_eq p hi h)
  rwa [List.countP_map, List.countP_map, Function.id_comp] at he

/-- Replacing a process by one that counts as well. -/
theorem countP_set_le (p : α → Bool) (i : Nat) (x : α) : (t.set i x).countP p ≤ t.countP p + 1 := by
  induction t generalizing i with
  | nil => exact Nat.zero_le _
  | cons a t ih =>
    cases i with
    | zero =>
      simp only [List.set_cons_zero, List.countP_cons]
      split <;> split <;> omega
    | succ i =>
      have := ih i
      simp only [List.set_cons_succ, List.countP_cons]
      omega

/-- Entries with distinct keys, each of which is the key of an entry of `u`, are no more than those of `u`. -/
theorem length_le_of_keys {u : List β} {κ : Type} {g : α → Option κ} (key : β → κ) (hg : (t.filterMap g).Nodup)
    (h : ∀ r ∈ t, ∃ q ∈ u, g r = some (key q)) : t.length ≤ u.length := by
  have hlen : (t.filterMap g).length = t.length := by
    rw [List.length_filterMap_eq_countP, List.countP_eq_length]
    intro r hr
    obtain ⟨q, -, hq⟩ := h r hr
    rw [hq, Option.isSome_some]
  have hsub : t.filterMap g ⊆ u.map key := by
    intro k hk
    obtain ⟨r, hr, hk⟩ := List.mem_filterMap.1 hk
    obtain ⟨q, hq, he⟩ := h r hr
    exact List.mem_map.2 ⟨q, hq, Option.some.inj (he.symm.trans hk)⟩
  calc t.length = (t.filterMap g).length := hlen.symm
    _ ≤ (u.map key).length := (hg.subperm hsub).length_le
    _ = u.length := List.length_map ..

/-- Two processes that contribute to a table of distinct keys under one key are one process. -/
theorem eq_of_filterMap_once {g : α → Option β} {key : β → κ} (h : ((t.filterMap g).map key).Nodup) {i j : Nat} {q : α}
    {x y : β} (hi : t[i]? = some r) (hj : t[j]? = some q) (hx : g r = some x) (hy : g q = some y) (he : key x = key y) :
    i = j := by
  have hp : t.Pairwise fun a b => ∀ x, g a = some x → ∀ y, g b = some y → key x ≠ key y := by
    unfold List.Nodup at h
    rw [List.pairwise_map] at h
    exact List.pairwise_filterMap.1 h
  rw [List.pairwise_iff_getElem] at hp
  obtain ⟨hit, rfl⟩ := List.getElem?_eq_some_iff.1 hi
  obtain ⟨hjt, rfl⟩ := List.getElem?_eq_some_iff.1 hj
  rcases Nat.lt_trichotomy i j with hlt | heq | hlt
  · exact absurd he (hp i j hit hjt hlt x hx y hy)
  · exact heq
  · exact absurd he.symm (hp j i hjt hit hlt y hy x hx)

/-- Rows of a keyed table that are all one row are at most one. -/
theorem Keyed.length_le_one {key : α → κ} (h : Keyed key t) (he : ∀ r ∈ t, ∀ q ∈ t, r = q) : t.length ≤ 1 := by
  match t, h, he with
  | [], _, _ => exact Nat.zero_le 1
  | [_], _, _ => exact Nat.le_refl 1
  | a :: b :: t, h, he =>
    have hab : a = b := he a List.mem_cons_self b (List.mem_cons_of_mem _ List.mem_cons_self)
    unfold Keyed at h
    simp [hab] at h

end Processes

section Persists
variable {t t' t'' : List α} {r r' : α} {key : α → κ} {issued issued' : List κ} {R : α → α → Prop}

/-- Every row of the later table under an old key was there before, and `R` relates it to what it is now. -/
def Persists (key : α → κ) (issued : List κ) (R : α → α → Prop) (t t' : List α) : Prop :=
  ∀ r' ∈ t', key r' ∈ issued → ∃ r ∈ t, key r = key r' ∧ R r r'

theorem Persists.refl (hR : ∀ r, R r r) (t : List α) : Persists key issued R t t :=
  fun r hr _ => ⟨r, hr, rfl, hR r⟩

theorem Persists.trans (hR : ∀ r r' r'', R r r' → R r' r'' → R r r'') (h : Persists key issued R t t')
    (hi : ∀ i ∈ issued, i ∈ issued') (h' : Persists key issued' R t' t'') : Persists key issued R t t'' := by
  intro r'' hr'' hid
  obtain ⟨r', hr', hid', hR'⟩ := h' r'' hr'' (hi _ hid)
  obtain ⟨r, hr, hidr, hR₀⟩ := h r' hr' (hid' ▸ hid)
  exact ⟨r, hr, hidr.trans hid', hR r r' r'' hR₀ hR'⟩

theorem Persists.of_mem (h : Persists key issued R t t') (hk : Keyed key t) (hr : r ∈ t) (hi : key r ∈ issued)
    (hr' : r' ∈ t') (he : key r' = key r) : R r r' := by
  obtain ⟨q, hq, hqid, hR⟩ := h r' hr' (he ▸ hi)
  rwa [hk.eq hq hr (hqid.trans he)] at hR

end Persists

/-! ### Rows rewritten and rows added -/

section Grows
variable {t t' : List α} {r r' : α} {K : α → α → Prop} {N : α → Prop}

/-- Every row is rewritten along `K`, and new rows that satisfy `N` are added at the end. -/
def Grows (K : α → α → Prop) (N : α → Prop) (t t' : List α) : Prop :=
  ∃ u v, t' = u ++ v ∧ List.Forall₂ K t u ∧ ∀ r ∈ v, N r

theorem Grows.update {p : α → Prop} [DecidablePred p] {f : α → α} (hK : ∀ r, K r r) (h : ∀ r ∈ t, p r → K r (f r)) :
    Grows K N t (Table.update p f t) := by
  refine ⟨Table.update p f t, [], (List.append_nil _).symm, ?_, List.forall_mem_nil _⟩
  unfold Table.update
  rw [List.forall₂_map_right_iff, List.forall₂_same]
  intro r hr
  split
  · exact h r hr ‹_›
  · exact hK r

theorem Grows.refl (hK : ∀ r, K r r) (t : List α) : Grows K N t t :=
  ⟨t, [], (List.append_nil t).symm, List.forall₂_same.2 fun r _ => hK r, List.forall_mem_nil _⟩

theorem Grows.add (h : Grows K N t t') (hr : N r) : Grows K N t (t' ++ [r]) := by
  obtain ⟨u, v, rfl, hu, hv⟩ := h
  refine ⟨u, v ++ [r], List.append_assoc u v [r], hu, fun q hq => ?_⟩
  rcases List.mem_append.1 hq with hq | hq
  · exact hv q hq
  · exact List.mem_singleton.1 hq ▸ hr

theorem Grows.later (h : Grows K N t t') (hr : r ∈ t) : ∃ r' ∈ t', K r r' := by
  obtain ⟨u, v, rfl, hu, -⟩ := h
  obtain ⟨i, hi⟩ := List.mem_iff_getElem?.1 hr
  obtain ⟨hlt, rfl⟩ := List.getElem?_eq_some_iff.1 hi
  have hlt' : i < u.length := hu.length_eq ▸ hlt
  exact ⟨u[i], List.mem_append_left _ (List.getElem_mem hlt'), (List.forall₂_iff_get.1 hu).2 i hlt hlt'⟩

theorem Grows.earlier (h : Grows K N t t') (hr : r' ∈ t') : (∃ r ∈ t, K r r') ∨ N r' := by
  obtain ⟨u, v, rfl, hu, hv⟩ := h
  rcases List.mem_append.1 hr with hr | hr
  · left
    obtain ⟨i, hi⟩ := List.mem_iff_getElem?.1 hr
    obtain ⟨hlt, rfl⟩ := List.getElem?_eq_some_iff.1 hi
    have hlt' : i < t.length := hu.length_eq.symm ▸ hlt
    exact ⟨t[i], List.getElem_mem hlt', (List.forall₂_iff_get.1 hu).2 i hlt' hlt⟩
  · exact .inr (hv r' hr)

/-- A column that rewriting keeps stays in order when the rows that are added come last. -/
theorem Grows.pairwise {g : α → κ} [Preorder κ] {top : κ} (h : Grows K N t t') (hK : ∀ {r r'}, K r r' → g r' = g r)
    (hN : ∀ {r}, N r → g r = top) (ht : t.Pairwise (g · ≤ g ·)) (hle : ∀ r ∈ t, g r ≤ top) :
    t'.Pairwise (g · ≤ g ·) := by
  obtain ⟨u, v, rfl, hu, hv⟩ := h
  have hmap : u.map g = t.map g := by
    induction hu with
    | nil => rfl
    | cons hk _ ih =>
      rw [List.pairwise_cons] at ht
      rw [List.forall_mem_cons] at hle
      rw [List.map_cons, List.map_cons, ih ht.2 hle.2, hK hk]
  have hu' : u.Pairwise (g · ≤ g ·) := by
    rw [← List.pairwise_map (f := g) (R := (· ≤ ·)), hmap, List.pairwise_map]
    exact ht
  refine List.pairwise_append.2 ⟨hu', ?_, fun a ha b hb => ?_⟩
  · refine List.pairwise_of_forall_mem_list fun a ha b hb => ?_
    rw [hN (hv a ha), hN (hv b hb)]
  · rw [hN (hv b hb)]
    have : g a ∈ t.map g := hmap ▸ List.mem_map_of_mem ha
    obtain ⟨r, hr, he⟩ := List.mem_map.1 this
    exact he ▸ hle r hr

end Grows

/-! ### Rows at their places -/

section Places
variable {l : List α} {i j : Nat} {x y : α} {f : α → κ}

theorem kept_append (hx : l[i]? = some x) (ys : List α) : ∃ x', (l ++ ys)[i]? = some x' ∧ f x' = f x := by
  obtain ⟨hlt, -⟩ := List.getElem?_eq_some_iff.1 hx
  exact ⟨x, by rw [List.getElem?_append_left hlt]; exact hx, rfl⟩

/-- Rewriting a place keeps what the new value has of the old one. -/
theorem kept_set {x₀ : α} (hx : l[i]? = some x) (hj : l[j]? = some x₀) (hy : f y = f x₀) :
    ∃ x', (l.set j y)[i]? = some x' ∧ f x' = f x := by
  by_cases hij : j = i
  · subst hij
    obtain ⟨hlt, -⟩ := List.getElem?_eq_some_iff.1 hx
    cases hx.symm.trans hj
    exact ⟨y, List.getElem?_set_self hlt, hy⟩
  · exact ⟨x, by rw [List.getElem?_set_ne hij]; exact hx, rfl⟩

end Places

end Table
end RepoPilot
