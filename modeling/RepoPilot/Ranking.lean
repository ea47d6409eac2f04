import RepoPilot.Distinct
import RepoPilot.Mapping
import RepoPilot.Retrieval

/-! # Ranking candidates and packing evidence

`fuse` as its loop over two dictionaries, which comes to the sums and ranks of `Retrieval.fuse`; and what
`buildContext` keeps of the hits, under any count of tokens. -/

namespace RepoPilot
namespace Ranking

/-! ### The loop of `fuse` -/

/-- `scores` and `ranks`. -/
structure Tally where
  scores : Mapping Uuid ℚ
  ranks : Mapping Uuid (Mapping String Nat)

def Tally.empty : Tally := ⟨Mapping.empty, Mapping.empty⟩

def Tally.score (t : Tally) (id : Uuid) : ℚ := (t.scores.get? id).getD 0

def Tally.rank (t : Tally) (id : Uuid) : Mapping String Nat := (t.ranks.get? id).getD Mapping.empty

/-- The body of the inner loop. -/
def addPosition (channel : String) (t : Tally) (p : Uuid × Nat) : Tally where
  scores := t.scores.set p.1 (t.score p.1 + 1 / (60 + p.2))
  ranks := t.ranks.set p.1 ((t.rank p.1).set channel p.2)

/-- The loop over `enumerate(dict.fromkeys(ids), 1)`. -/
def addChannel (t : Tally) (c : String × List Uuid) : Tally := (c.2.eraseDups.zipIdx 1).foldl (addPosition c.1) t

def tally (channels : List (String × List Uuid)) : Tally := channels.foldl addChannel .empty

/-- The sort key `(-score, tie)` of `a` is at most that of `b`. -/
def KeyLe (score : Uuid → ℚ) (tie : Uuid → Text) (a b : Uuid) : Prop :=
  score b < score a ∨ score a = score b ∧ tie a ≤ tie b

instance (score : Uuid → ℚ) (tie : Uuid → Text) : DecidableRel (KeyLe score tie) := fun a b =>
  inferInstanceAs (Decidable (score b < score a ∨ score a = score b ∧ tie a ≤ tie b))

/-- `tie_keys.get(key, str(key))`. -/
def tie (tieKeys : Mapping Uuid Text) (id : Uuid) : Text := (tieKeys.get? id).getD (Json.uuidText id)

/-- `retrieval.ranking.fuse`. -/
def fuse (channels : Mapping String (List Uuid)) (limit : Nat) (tieKeys : Mapping Uuid Text) : List Ranked :=
  let t := tally channels.items
  ((t.scores.keys.insertionSort (KeyLe t.score (tie tieKeys))).take limit).map fun id =>
    ⟨id, t.score id, (t.rank id).items⟩

/-! ### What the loop adds up -/

section Channel
variable {channel : String} {ids : List Uuid} {n : Nat} {t : Tally} {id : Uuid}

theorem score_addPosition (p : Uuid × Nat) :
    (addPosition channel t p).score id = if id = p.1 then t.score id + 1 / (60 + p.2) else t.score id := by
  unfold Tally.score addPosition
  dsimp only
  rw [Mapping.get?_set]
  split
  · rename_i he
    rw [he]
    rfl
  · rfl

theorem rank_addPosition (p : Uuid × Nat) :
    (addPosition channel t p).rank id = if id = p.1 then (t.rank id).set channel p.2 else t.rank id := by
  unfold Tally.rank addPosition
  dsimp only
  rw [Mapping.get?_set]
  split
  · rename_i he
    rw [he]
    rfl
  · rfl

theorem keys_addPosition (p : Uuid × Nat) :
    (addPosition channel t p).scores.keys = t.scores.keys ++ if p.1 ∈ t.scores.keys then [] else [p.1] :=
  Mapping.keys_set _ _ _

/-- What a channel of distinct ids, ranked from `n`, does to the tally. -/
theorem foldl_addPosition (channel : String) (hn : ids.Nodup) (n : Nat) (t : Tally) :
    ((ids.zipIdx n).foldl (addPosition channel) t).scores.keys = t.scores.keys ++ ids.filter (· ∉ t.scores.keys) ∧
      ∀ id, (id ∉ ids →
          ((ids.zipIdx n).foldl (addPosition channel) t).score id = t.score id ∧
            ((ids.zipIdx n).foldl (addPosition channel) t).rank id = t.rank id) ∧
        (id ∈ ids →
          ((ids.zipIdx n).foldl (addPosition channel) t).score id = t.score id + 1 / (60 + (n + ids.idxOf id : Nat)) ∧
            ((ids.zipIdx n).foldl (addPosition channel) t).rank id = (t.rank id).set channel (n + ids.idxOf id)) := by
  induction ids generalizing n t with
  | nil =>
    refine ⟨(List.append_nil _).symm, fun id => ⟨fun _ => ⟨rfl, rfl⟩, fun h => ?_⟩⟩
    cases h
  | cons x ids ih =>
    obtain ⟨hx, hn⟩ := List.nodup_cons.1 hn
    obtain ⟨hkeys, hat⟩ := ih hn (n + 1) (addPosition channel t (x, n))
    rw [List.zipIdx_cons, List.foldl_cons]
    refine ⟨?_, fun id => ⟨fun hid => ?_, fun hid => ?_⟩⟩
    · have hrest : ids.filter (· ∉ t.scores.keys ++ if x ∈ t.scores.keys then [] else [x]) =
          ids.filter (· ∉ t.scores.keys) := by
        refine List.filter_congr fun y hy => ?_
        have hne : y ≠ x := fun he => hx (he ▸ hy)
        split <;> simp [hne]
      rw [hkeys, keys_addPosition, hrest, List.append_assoc, List.filter_cons]
      by_cases hmem : x ∈ t.scores.keys <;> simp [hmem]
    · rw [List.mem_cons, not_or] at hid
      obtain ⟨hs, hr⟩ := (hat id).1 hid.2
      rw [hs, hr, score_addPosition, rank_addPosition, if_neg hid.1, if_neg hid.1]
      exact ⟨rfl, rfl⟩
    · rcases List.mem_cons.1 hid with rfl | hid
      · obtain ⟨hs, hr⟩ := (hat id).1 hx
        rw [hs, hr, score_addPosition, rank_addPosition, if_pos rfl, if_pos rfl, List.idxOf_cons_self]
        exact ⟨rfl, rfl⟩
      · have hne : id ≠ x := fun he => hx (he ▸ hid)
        obtain ⟨hs, hr⟩ := (hat id).2 hid
        have hidx : n + (x :: ids).idxOf id = n + 1 + ids.idxOf id := by
          rw [List.idxOf_cons_ne _ hne.symm]
          omega
        rw [hs, hr, score_addPosition, rank_addPosition, if_neg hne, if_neg hne, hidx]
        exact ⟨rfl, rfl⟩

end Channel

section Channels
variable {cs : List (String × List Uuid)} {c : String × List Uuid} {id : Uuid}

theorem ranks_concat : Retrieval.ranks (cs ++ [c]) id =
    Retrieval.ranks cs id ++ ((Retrieval.position c.2 id).map (c.1, ·)).toList := by
  unfold Retrieval.ranks
  rw [List.filterMap_append]
  rfl

theorem score_concat : Retrieval.score (cs ++ [c]) id =
    Retrieval.score cs id + ((Retrieval.position c.2 id).map fun n => 1 / (60 + n : ℚ)).getD 0 := by
  unfold Retrieval.score
  rw [ranks_concat, List.map_append, List.sum_append]
  cases Retrieval.position c.2 id <;> simp

theorem position_of_mem {ids : List Uuid} (h : id ∈ ids) :
    Retrieval.position ids id = some (1 + ids.eraseDups.idxOf id) := by
  unfold Retrieval.position
  rw [if_pos h, Nat.add_comm]

theorem position_of_not_mem {ids : List Uuid} (h : id ∉ ids) : Retrieval.position ids id = none := if_neg h

/-- The channels in which an id is ranked are channels. -/
theorem mem_ranks {name : String} {n : Nat} :
    (name, n) ∈ Retrieval.ranks cs id ↔ ∃ ids, (name, ids) ∈ cs ∧ Retrieval.position ids id = some n := by
  unfold Retrieval.ranks
  simp only [List.mem_filterMap, Option.map_eq_some_iff, Prod.mk.injEq]
  constructor
  · rintro ⟨⟨name', ids⟩, hc, m, hm, rfl, rfl⟩
    exact ⟨ids, hc, hm⟩
  · rintro ⟨ids, hc, hm⟩
    exact ⟨(name, ids), hc, n, hm, rfl, rfl⟩

/-- The dictionaries after the loop: the distinct ids, their sums and their ranks. -/
structure Tallied (cs : List (String × List Uuid)) (t : Tally) : Prop where
  keys : t.scores.keys = Retrieval.candidateIds cs
  score : ∀ id, t.score id = Retrieval.score cs id
  rank : ∀ id, (t.rank id).items = Retrieval.ranks cs id

theorem Tallied.addChannel {t : Tally} (h : Tallied cs t) (hnew : c.1 ∉ cs.map (·.1)) :
    Tallied (cs ++ [c]) (addChannel t c) := by
  obtain ⟨hkeys, hat⟩ := foldl_addPosition c.1 (Distinct.nodup_eraseDups c.2) 1 t
  refine ⟨?_, fun id => ?_, fun id => ?_⟩
  · show ((c.2.eraseDups.zipIdx 1).foldl (addPosition c.1) t).scores.keys = _
    rw [hkeys, h.keys]
    unfold Retrieval.candidateIds
    rw [List.flatMap_append, List.flatMap_singleton, Distinct.eraseDups_append, Distinct.filter_eraseDups]
    simp only [List.mem_eraseDups]
  · show ((c.2.eraseDups.zipIdx 1).foldl (addPosition c.1) t).score id = _
    rw [score_concat]
    by_cases hid : id ∈ c.2
    · rw [((hat id).2 (List.mem_eraseDups.2 hid)).1, h.score, position_of_mem hid]
      rfl
    · rw [((hat id).1 fun hm => hid (List.mem_eraseDups.1 hm)).1, h.score, position_of_not_mem hid]
      exact (add_zero _).symm
  · show (((c.2.eraseDups.zipIdx 1).foldl (addPosition c.1) t).rank id).items = _
    rw [ranks_concat]
    by_cases hid : id ∈ c.2
    · have hnew' : c.1 ∉ (t.rank id).keys := by
        unfold Mapping.keys
        rw [h.rank]
        intro hm
        obtain ⟨⟨name, n⟩, hp, hname⟩ := List.mem_map.1 hm
        obtain ⟨ids, hc, -⟩ := mem_ranks.1 hp
        exact hnew (List.mem_map.2 ⟨_, hc, hname⟩)
      rw [((hat id).2 (List.mem_eraseDups.2 hid)).2, Mapping.items_set_of_new _ hnew', h.rank, position_of_mem hid]
      rfl
    · rw [((hat id).1 fun hm => hid (List.mem_eraseDups.1 hm)).2, h.rank, position_of_not_mem hid]
      exact (List.append_nil _).symm

theorem tallied (h : (cs.map (·.1)).Nodup) : Tallied cs (tally cs) := by
  induction cs using List.reverseRecOn with
  | nil => exact ⟨rfl, fun _ => rfl, fun _ => rfl⟩
  | append_singleton cs c ih =>
    rw [List.map_append, List.nodup_append] at h
    have hnew : c.1 ∉ cs.map (·.1) := fun hm => h.2.2 c.1 hm c.1 (List.mem_singleton_self _) rfl
    unfold tally at ih ⊢
    rw [List.foldl_concat]
    exact (ih h.1).addChannel hnew

end Channels

/-- The loop computes what `Retrieval.fuse` says. -/
theorem fuse_eq (channels : Mapping String (List Uuid)) (limit : Nat) (tieKeys : Mapping Uuid Text) :
    fuse channels limit tieKeys = Retrieval.fuse channels.items limit tieKeys.items := by
  have h := tallied channels.distinct
  have hscore : (tally channels.items).score = Retrieval.score channels.items := funext h.score
  unfold fuse
  simp only [hscore, h.keys, h.rank]
  rfl

/-! ### The order of the result -/

section Order
variable {score : Uuid → ℚ} {tie : Uuid → Text} {a b : Uuid}

instance : Std.Total (KeyLe score tie) where
  total a b := by
    unfold KeyLe
    rcases lt_trichotomy (score a) (score b) with h | h | h
    · exact .inr (.inl h)
    · rcases le_total (tie a) (tie b) with ht | ht
      · exact .inl (.inr ⟨h, ht⟩)
      · exact .inr (.inr ⟨h.symm, ht⟩)
    · exact .inl (.inl h)

instance : IsTrans Uuid (KeyLe score tie) where
  trans a b c := by
    rintro (hab | ⟨hab, htab⟩) (hbc | ⟨hbc, htbc⟩)
    · exact .inl (hbc.trans hab)
    · exact .inl (hbc ▸ hab)
    · exact .inl (hab ▸ hbc)
    · exact .inr ⟨hab.trans hbc, htab.trans htbc⟩

/-- The sort key of `a` is less than that of `b`. -/
def KeyLt (score : Uuid → ℚ) (tie : Uuid → Text) (a b : Uuid) : Prop :=
  score b < score a ∨ score a = score b ∧ tie a < tie b

theorem KeyLe.not_lt (h : KeyLe score tie a b) : ¬ KeyLt score tie b a := by
  rintro (hlt | ⟨heq, hlt⟩)
  · rcases h with h | ⟨h, -⟩
    · exact lt_asymm h hlt
    · exact hlt.ne h
  · rcases h with h | ⟨-, h⟩
    · exact h.ne heq
    · exact (lt_irrefl _ (hlt.trans_le h)).elim

theorem KeyLe.antisymm (hab : KeyLe score tie a b) (hba : KeyLe score tie b a) : tie a = tie b := by
  rcases hab with hlt | ⟨heq, hab⟩
  · rcases hba with hlt' | ⟨heq', -⟩
    · exact absurd hlt' (lt_asymm hlt)
    · exact absurd heq' hlt.ne
  · rcases hba with hlt' | ⟨-, hba⟩
    · exact absurd heq hlt'.ne
    · exact le_antisymm hab hba

/-- What comes before the cut is not preceded by what comes after it. -/
theorem keyLe_of_take {ids : List Uuid} {n : Nat} (ha : a ∈ (ids.insertionSort (KeyLe score tie)).take n) (hb : b ∈ ids)
    (hnot : b ∉ (ids.insertionSort (KeyLe score tie)).take n) : KeyLe score tie a b := by
  have hsorted := List.pairwise_insertionSort (KeyLe score tie) ids
  rw [← List.take_append_drop n (ids.insertionSort (KeyLe score tie)), List.pairwise_append] at hsorted
  have hb := (List.mem_insertionSort (KeyLe score tie)).2 hb
  rw [← List.take_append_drop n (ids.insertionSort (KeyLe score tie)), List.mem_append] at hb
  exact hsorted.2.2 a ha b (hb.resolve_left hnot)

end Order

/-- What `fuse` returns: the first `limit` candidates by descending score, then tie key. -/
structure Fused (channels : Mapping String (List Uuid)) (limit : Nat) (tieKeys : Mapping Uuid Text)
    (found : List Ranked) : Prop where
  distinct : (found.map (·.chunkId)).Nodup
  score : ∀ r ∈ found, r.score = (r.channelRanks.map fun p => 1 / (60 + p.2 : ℚ)).sum
  names : ∀ r ∈ found, (r.channelRanks.map (·.1)).Sublist channels.keys
  ranks : ∀ r ∈ found, ∀ name n, (name, n) ∈ r.channelRanks ↔
    ∃ ids, channels.get? name = some ids ∧ Retrieval.position ids r.chunkId = some n
  first : ∃ order : List Uuid, (∀ id, id ∈ order ↔ ∃ name ids, channels.get? name = some ids ∧ id ∈ ids) ∧ order.Nodup ∧
    order.Pairwise (KeyLe (Retrieval.score channels.items) (tie tieKeys)) ∧ found.map (·.chunkId) = order.take limit
  omitted : ∀ r ∈ found, ∀ name ids, channels.get? name = some ids → ∀ id ∈ ids, id ∉ found.map (·.chunkId) →
    ¬ KeyLt (Retrieval.score channels.items) (tie tieKeys) id r.chunkId

section Fuse
variable {channels channels' : Mapping String (List Uuid)} {limit : Nat} {tieKeys : Mapping Uuid Text}

theorem mem_candidateIds {id : Uuid} : id ∈ Retrieval.candidateIds channels.items ↔
    ∃ name ids, channels.get? name = some ids ∧ id ∈ ids := by
  unfold Retrieval.candidateIds
  rw [List.mem_eraseDups, List.mem_flatMap]
  constructor
  · rintro ⟨⟨name, ids⟩, hc, hid⟩
    exact ⟨name, ids, channels.get?_of_mem hc, hid⟩
  · rintro ⟨name, ids, hc, hid⟩
    exact ⟨(name, ids), channels.mem_of_get? hc, hid⟩

theorem map_fuse (channels : Mapping String (List Uuid)) (limit : Nat) (tieKeys : Mapping Uuid Text) :
    (fuse channels limit tieKeys).map (·.chunkId) = ((Retrieval.candidateIds channels.items).insertionSort
      (KeyLe (Retrieval.score channels.items) (tie tieKeys))).take limit := by
  rw [fuse_eq]
  unfold Retrieval.fuse
  rw [List.map_map]
  exact List.map_id _

theorem mem_fuse {r : Ranked} (hr : r ∈ fuse channels limit tieKeys) :
    r.score = Retrieval.score channels.items r.chunkId ∧ r.channelRanks = Retrieval.ranks channels.items r.chunkId := by
  rw [fuse_eq] at hr
  obtain ⟨id, -, rfl⟩ := List.mem_map.1 hr
  exact ⟨rfl, rfl⟩

theorem fused (channels : Mapping String (List Uuid)) (limit : Nat) (tieKeys : Mapping Uuid Text) :
    Fused channels limit tieKeys (fuse channels limit tieKeys) := by
  have hperm := List.perm_insertionSort (KeyLe (Retrieval.score channels.items) (tie tieKeys))
    (Retrieval.candidateIds channels.items)
  have hnodup := hperm.nodup_iff.2 (Distinct.nodup_eraseDups _)
  refine ⟨?_, fun r hr => ?_, fun r hr => ?_, fun r hr name n => ?_, ⟨_, fun id => ?_, hnodup, ?_, map_fuse _ _ _⟩, ?_⟩
  · rw [map_fuse]
    exact hnodup.sublist (List.take_sublist _ _)
  · rw [(mem_fuse hr).2]
    exact (mem_fuse hr).1
  · rw [(mem_fuse hr).2]
    unfold Retrieval.ranks Mapping.keys
    generalize channels.items = cs
    induction cs with
    | nil => exact .slnil
    | cons c cs ih =>
      rw [List.filterMap_cons]
      cases Retrieval.position c.2 r.chunkId with
      | none => exact ih.cons _
      | some n => exact ih.cons_cons _
  · rw [(mem_fuse hr).2, mem_ranks]
    exact ⟨fun ⟨ids, hc, hn⟩ => ⟨ids, channels.get?_of_mem hc, hn⟩,
      fun ⟨ids, hc, hn⟩ => ⟨ids, channels.mem_of_get? hc, hn⟩⟩
  · rw [List.mem_insertionSort, mem_candidateIds]
  · exact List.pairwise_insertionSort _ _
  · intro r hr name ids hc id hid hnot
    have hr' := List.mem_map_of_mem (f := (·.chunkId)) hr
    rw [map_fuse] at hr' hnot
    exact (keyLe_of_take hr' (mem_candidateIds.2 ⟨name, ids, hc, hid⟩) hnot).not_lt

/-- The tie keys tell the candidates apart. -/
def Distinguishes (tieKeys : Mapping Uuid Text) (channels : Mapping String (List Uuid)) : Prop :=
  ∀ a ∈ Retrieval.candidateIds channels.items, ∀ b ∈ Retrieval.candidateIds channels.items,
    tie tieKeys a = tie tieKeys b → a = b

theorem score_perm (h : channels.items.Perm channels'.items) (id : Uuid) :
    Retrieval.score channels.items id = Retrieval.score channels'.items id :=
  ((h.filterMap _).map _).sum_eq

theorem candidateIds_perm (h : channels.items.Perm channels'.items) :
    (Retrieval.candidateIds channels.items).Perm (Retrieval.candidateIds channels'.items) := by
  refine (List.perm_ext_iff_of_nodup (Distinct.nodup_eraseDups _) (Distinct.nodup_eraseDups _)).2 fun id => ?_
  rw [List.mem_eraseDups, List.mem_eraseDups]
  exact (h.flatMap_right _).mem_iff

/-- The order of the channels does not matter, except for the order of the ranks in a dictionary. -/
theorem fuse_perm (h : channels.items.Perm channels'.items) (hd : Distinguishes tieKeys channels) :
    List.Forall₂ (fun r r' => r.chunkId = r'.chunkId ∧ r.score = r'.score ∧ r.channelRanks.Perm r'.channelRanks)
      (fuse channels limit tieKeys) (fuse channels' limit tieKeys) := by
  have hscore : Retrieval.score channels.items = Retrieval.score channels'.items := funext (score_perm h)
  have hcandidates := candidateIds_perm h
  have horder : (Retrieval.candidateIds channels.items).insertionSort
        (KeyLe (Retrieval.score channels.items) (tie tieKeys)) =
      (Retrieval.candidateIds channels'.items).insertionSort
        (KeyLe (Retrieval.score channels'.items) (tie tieKeys)) := by
    rw [← hscore]
    refine List.Perm.eq_of_pairwise (fun a b ha hb hab hba => ?_) (List.pairwise_insertionSort _ _)
      (List.pairwise_insertionSort _ _)
      ((List.perm_insertionSort _ _).trans (hcandidates.trans (List.perm_insertionSort _ _).symm))
    rw [List.mem_insertionSort] at ha hb
    exact hd a ha b (hcandidates.mem_iff.2 hb) (hab.antisymm hba)
  have hids : (fuse channels limit tieKeys).map (·.chunkId) = (fuse channels' limit tieKeys).map (·.chunkId) := by
    rw [map_fuse, map_fuse, horder]
  have hlength : (fuse channels limit tieKeys).length = (fuse channels' limit tieKeys).length := by
    simpa using congrArg List.length hids
  refine List.forall₂_iff_get.2 ⟨hlength, fun i hi hi' => ?_⟩
  have he : ((fuse channels limit tieKeys).get ⟨i, hi⟩).chunkId = ((fuse channels' limit tieKeys).get ⟨i, hi'⟩).chunkId := by
    have hat := congrArg (fun ids => ids[i]?) hids
    simpa only [List.getElem?_map, List.getElem?_eq_getElem hi, List.getElem?_eq_getElem hi', Option.map_some,
      Option.some.injEq, List.get_eq_getElem] using hat
  have hr := mem_fuse (List.get_mem (fuse channels limit tieKeys) ⟨i, hi⟩)
  have hr' := mem_fuse (List.get_mem (fuse channels' limit tieKeys) ⟨i, hi'⟩)
  refine ⟨he, ?_, ?_⟩
  · rw [hr.1, hr'.1, he, hscore]
  · rw [hr.2, hr'.2, he]
    exact h.filterMap _

/-- `fuse` ranks the candidates as reciprocal rank fusion says, whatever the order of the channels. -/
theorem fuse_ranks (channels : Mapping String (List Uuid)) (limit : Nat) (tieKeys : Mapping Uuid Text) :
    Fused channels limit tieKeys (fuse channels limit tieKeys) ∧
      ∀ channels' : Mapping String (List Uuid), channels.items.Perm channels'.items → Distinguishes tieKeys channels →
        List.Forall₂ (fun r r' => r.chunkId = r'.chunkId ∧ r.score = r'.score ∧ r.channelRanks.Perm r'.channelRanks)
          (fuse channels limit tieKeys) (fuse channels' limit tieKeys) :=
  ⟨fused channels limit tieKeys, fun _ h hd => fuse_perm h hd⟩

end Fuse

/-! ### Evidence within a budget -/

section Packing
variable {env : Env} {commitSha : Text} {budget : Nat}

/-- The hits as evidence, cited in order. -/
def cite (commitSha : Text) (hits : List SearchHit) : List Evidence :=
  hits.mapIdx fun i h => Retrieval.citation commitSha (i + 1) h

/-- The hits at these places. -/
def pick (hits : List SearchHit) (places : List Nat) : List SearchHit := places.filterMap (hits[·]?)

/-- The evidence consists of the hits at the places `kept`; a hit at another place exceeds the budget when it is
cited after those kept before it. -/
structure Packed (env : Env) (commitSha : Text) (budget : Nat) (hits : List SearchHit) (kept : List Nat)
    (evidence : List Evidence) : Prop where
  increasing : kept.Pairwise (· < ·)
  places : ∀ i ∈ kept, i < hits.length
  sublist : (pick hits kept).Sublist hits
  cited : evidence = cite commitSha (pick hits kept)
  fits : env.countTokens (Retrieval.contextJson evidence) ≤ budget
  omitted : ∀ i h, hits[i]? = some h → i ∉ kept →
    budget < env.countTokens (Retrieval.contextJson (cite commitSha (pick hits (kept.filter (· < i)) ++ [h])))

theorem length_cite (hits : List SearchHit) : (cite commitSha hits).length = hits.length := List.length_mapIdx

theorem cite_concat (hits : List SearchHit) (h : SearchHit) :
    cite commitSha (hits ++ [h]) = cite commitSha hits ++ [Retrieval.citation commitSha (hits.length + 1) h] :=
  List.mapIdx_concat

theorem citationId_cite (commitSha : Text) (hits : List SearchHit) :
    (cite commitSha hits).map (·.citationId) = (List.range' 1 hits.length).map ('C' :: Json.decimal ·) := by
  induction hits using List.reverseRecOn with
  | nil => rfl
  | append_singleton hits h ih =>
    rw [cite_concat, List.map_append, ih, List.length_append, List.length_singleton, List.range'_concat, List.map_append,
      Nat.one_mul, Nat.add_comm 1]
    rfl

theorem length_pick {hits : List SearchHit} {places : List Nat} (h : ∀ i ∈ places, i < hits.length) :
    (pick hits places).length = places.length := by
  unfold pick
  rw [List.length_filterMap_eq_countP, List.countP_eq_length]
  intro i hi
  rw [List.getElem?_eq_getElem (h i hi), Option.isSome_some]

theorem pick_append {hits more : List SearchHit} {places : List Nat} (h : ∀ i ∈ places, i < hits.length) :
    pick (hits ++ more) places = pick hits places :=
  List.filterMap_congr fun i hi => List.getElem?_append_left (h i hi)

theorem pick_concat {hits : List SearchHit} {h : SearchHit} {places : List Nat} (hp : ∀ i ∈ places, i < hits.length) :
    pick (hits ++ [h]) (places ++ [hits.length]) = pick hits places ++ [h] := by
  have hlast : (hits ++ [h])[hits.length]? = some h := List.getElem?_concat_length
  unfold pick at *
  rw [List.filterMap_append, ← pick, pick_append hp, pick]
  simp only [List.filterMap_cons, hlast, List.filterMap_nil]

theorem filter_of_lt {places : List Nat} {n : Nat} (h : ∀ i ∈ places, i < n) : places.filter (· < n) = places :=
  List.filter_eq_self.2 fun i hi => decide_eq_true (h i hi)

namespace Packed
variable {hits : List SearchHit} {kept : List Nat} {evidence : List Evidence} {h : SearchHit}

theorem length (p : Packed env commitSha budget hits kept evidence) : evidence.length = (pick hits kept).length := by
  rw [p.cited, length_cite]

/-- The hit that comes next, once it is cited after the others. -/
theorem candidate (p : Packed env commitSha budget hits kept evidence) (h : SearchHit) :
    evidence ++ [Retrieval.citation commitSha (evidence.length + 1) h] = cite commitSha (pick hits kept ++ [h]) := by
  rw [cite_concat, p.length, ← p.cited]

theorem earlier (p : Packed env commitSha budget hits kept evidence) {i : Nat} (hi : i < hits.length) {x : SearchHit}
    (hx : (hits ++ [h])[i]? = some x) (hnot : i ∉ kept) :
    budget < env.countTokens (Retrieval.contextJson
      (cite commitSha (pick (hits ++ [h]) (kept.filter (· < i)) ++ [x]))) := by
  rw [List.getElem?_append_left hi] at hx
  rw [pick_append fun j hj => p.places j (List.mem_filter.1 hj).1]
  exact p.omitted i x hx hnot

/-- The next hit fits. -/
theorem keep (p : Packed env commitSha budget hits kept evidence)
    (hfits : env.countTokens (Retrieval.contextJson (cite commitSha (pick hits kept ++ [h]))) ≤ budget) :
    Packed env commitSha budget (hits ++ [h]) (kept ++ [hits.length]) (cite commitSha (pick hits kept ++ [h])) := by
  have hpick := pick_concat (h := h) p.places
  refine ⟨?_, fun i hi => ?_, ?_, by rw [hpick], hfits, fun i x hx hnot => ?_⟩
  · rw [List.pairwise_append]
    exact ⟨p.increasing, List.pairwise_singleton _ _, fun a ha b hb => List.mem_singleton.1 hb ▸ p.places a ha⟩
  · rw [List.length_append, List.length_singleton]
    rcases List.mem_append.1 hi with hi | hi
    · exact Nat.lt_succ_of_lt (p.places i hi)
    · rw [List.mem_singleton.1 hi]
      exact Nat.lt_succ_self _
  · rw [hpick]
    exact p.sublist.append_right [h]
  · rw [List.mem_append, not_or, List.mem_singleton] at hnot
    have hlt := (List.getElem?_eq_some_iff.1 hx).1
    rw [List.length_append, List.length_singleton] at hlt
    have hi : i < hits.length := by omega
    have hfilter : (kept ++ [hits.length]).filter (· < i) = kept.filter (· < i) := by
      rw [List.filter_append, List.filter_singleton, decide_eq_false (by omega)]
      exact List.append_nil _
    rw [hfilter]
    exact p.earlier hi hx hnot.1

/-- The next hit does not fit. -/
theorem skip (p : Packed env commitSha budget hits kept evidence)
    (hlarge : budget < env.countTokens (Retrieval.contextJson (cite commitSha (pick hits kept ++ [h])))) :
    Packed env commitSha budget (hits ++ [h]) kept evidence := by
  have hpick : pick (hits ++ [h]) kept = pick hits kept := pick_append p.places
  refine ⟨p.increasing, fun i hi => ?_, ?_, by rw [hpick, p.cited], p.fits, fun i x hx hnot => ?_⟩
  · rw [List.length_append]
    exact Nat.lt_add_right _ (p.places i hi)
  · rw [hpick]
    exact p.sublist.trans (List.sublist_append_left _ _)
  · by_cases hi : i < hits.length
    · exact p.earlier hi hx hnot
    · have hlt := (List.getElem?_eq_some_iff.1 hx).1
      rw [List.length_append, List.length_singleton] at hlt
      obtain rfl : i = hits.length := by omega
      rw [List.getElem?_concat_length] at hx
      cases hx
      rw [filter_of_lt p.places, hpick]
      exact hlarge

end Packed

theorem packed_foldl (env : Env) (commitSha : Text) (hempty : env.countTokens "[]".toList ≤ budget) (hits : List SearchHit) :
    ∃ kept, Packed env commitSha budget hits kept (hits.foldl (Retrieval.addHit env commitSha budget) []) := by
  induction hits using List.reverseRecOn with
  | nil => exact ⟨[], .nil, List.forall_mem_nil _, .slnil, rfl, hempty, nofun⟩
  | append_singleton hits h ih =>
    obtain ⟨kept, p⟩ := ih
    rw [List.foldl_concat]
    generalize hits.foldl (Retrieval.addHit env commitSha budget) [] = evidence at p
    unfold Retrieval.addHit
    dsimp only
    rw [p.candidate h]
    split
    · rename_i hfits
      exact ⟨_, p.keep hfits⟩
    · rename_i hlarge
      exact ⟨kept, p.skip (Nat.lt_of_not_le hlarge)⟩

/-- `build_context` packs the hits in order, and leaves out only what would have exceeded the budget. -/
theorem buildContext_packs (env : Env) (hits : List SearchHit) (commitSha : Text) (budget : Nat)
    (hempty : env.countTokens "[]".toList ≤ budget) :
    ∃ kept, Packed env commitSha budget hits kept (Retrieval.buildContext env hits commitSha budget).1 ∧
      (Retrieval.buildContext env hits commitSha budget).1.map (·.citationId) =
        (List.range' 1 kept.length).map ('C' :: Json.decimal ·) ∧
      (Retrieval.buildContext env hits commitSha budget).2 =
        env.countTokens (Retrieval.contextJson (Retrieval.buildContext env hits commitSha budget).1) ∧
      (Retrieval.buildContext env hits commitSha budget).2 ≤ budget := by
  obtain ⟨kept, p⟩ := packed_foldl env commitSha hempty hits
  have hids : (Retrieval.buildContext env hits commitSha budget).1.map (·.citationId) =
      (List.range' 1 kept.length).map ('C' :: Json.decimal ·) := by
    rw [← length_pick p.places, ← citationId_cite commitSha, ← p.cited]
    rfl
  exact ⟨kept, p, hids, rfl, p.fits⟩

/-- A tokenizer with one token for each character. -/
def characters : Env := { Env.plain with encode := fun text => text.map Char.toNat }

def plainHit (chunkId : Uuid) (content : Text) : SearchHit :=
  ⟨chunkId, 0, "a.py".toList, "python", none, 1, 1, 0, content.length, content, 1 / 61, [("lexical", 1)]⟩

theorem buildContext_packs_second :
    (∃ kept, Packed characters [] 160 [plainHit 1 (List.replicate 40 'x'), plainHit 2 "pass".toList] kept
        (Retrieval.buildContext characters [plainHit 1 (List.replicate 40 'x'), plainHit 2 "pass".toList] [] 160).1 ∧
      (Retrieval.buildContext characters [plainHit 1 (List.replicate 40 'x'), plainHit 2 "pass".toList] [] 160).1.map
        (·.citationId) = (List.range' 1 kept.length).map ('C' :: Json.decimal ·) ∧
      (Retrieval.buildContext characters [plainHit 1 (List.replicate 40 'x'), plainHit 2 "pass".toList] [] 160).2 =
        characters.countTokens (Retrieval.contextJson
          (Retrieval.buildContext characters [plainHit 1 (List.replicate 40 'x'), plainHit 2 "pass".toList] [] 160).1) ∧
      (Retrieval.buildContext characters [plainHit 1 (List.replicate 40 'x'), plainHit 2 "pass".toList] [] 160).2 ≤ 160) ∧
    (Retrieval.buildContext characters [plainHit 1 (List.replicate 40 'x'), plainHit 2 "pass".toList] [] 160).1.map
      (·.content) = ["pass".toList] :=
  ⟨buildContext_packs characters _ [] 160 (by decide), by decide +kernel⟩

end Packing

end Ranking
end RepoPilot
