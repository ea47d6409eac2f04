import RepoPilot.RedisLimiter
import RepoPilot.Mapping

/-! # The limiter in memory

`MemoryRateLimiter` stands in for Redis in tests and in the evaluation runner. Where the script looks at all
counters before it counts anything, this one counts key by key, and a counter that ends now has ended. -/

namespace RepoPilot
namespace MemoryLimiter
open RedisLimiter (Limit Server Entry)

/-- When a counter ends, and what it has counted. -/
abbrev Values := Mapping Text (Time × Int)

def limited : AppError := ⟨"rate_limited", "Too many attempts.", 429⟩

/-- `expires, count` before the test. -/
def current (now : Time) (limit : Limit) (values : Values) : Time × Int :=
  let fresh := (now + limit.seconds * 1000000, 0)
  let counter := (values.get? limit.key).getD fresh
  if counter.1 ≤ now then fresh else counter

/-- `MemoryRateLimiter.check`: what was counted before a limit is reached stays counted. -/
def check (now : Time) : List Limit → Values → Except AppError Unit × Values
  | [], values => (.ok (), values)
  | limit :: limits, values =>
    let (expires, count) := current now limit values
    if limit.count ≤ count then (.error limited, values)
    else check now limits (values.set limit.key (expires, count + 1))

section Check
variable {now : Time} {limit : Limit} {limits : List Limit} {values values' : Values}

theorem check_full (h : limit.count ≤ (current now limit values).2) :
    check now (limit :: limits) values = (.error limited, values) := if_pos h

theorem check_free (h : (current now limit values).2 < limit.count) :
    check now (limit :: limits) values =
      check now limits (values.set limit.key ((current now limit values).1, (current now limit values).2 + 1)) :=
  if_neg (not_le.2 h)

theorem current_congr (h : values.get? limit.key = values'.get? limit.key) :
    current now limit values = current now limit values' := by
  unfold current
  rw [h]

/-- A counter that has ended starts again, as one that is not there. -/
theorem current_fresh (h : ∀ v ∈ values.get? limit.key, v.1 ≤ now) :
    current now limit values = (now + limit.seconds * 1000000, 0) := by
  unfold current
  cases hv : values.get? limit.key with
  | none => exact ite_self _
  | some v => exact if_pos (h v hv)

theorem current_running {v : Time × Int} (h : values.get? limit.key = some v) (hv : now < v.1) :
    current now limit values = v := by
  unfold current
  rw [h]
  exact if_neg (not_le.2 hv)

/-- No limit is reached: every key is counted once, from what it was before the check. -/
theorem check_all (h : ∀ l ∈ limits, (current now l values).2 < l.count) (hd : (limits.map (·.key)).Nodup) :
    (check now limits values).1 = .ok () ∧
      (∀ l ∈ limits, (check now limits values).2.get? l.key =
        some ((current now l values).1, (current now l values).2 + 1)) ∧
      ∀ key ∉ limits.map (·.key), (check now limits values).2.get? key = values.get? key := by
  induction limits generalizing values with
  | nil => exact ⟨rfl, nofun, fun _ _ => rfl⟩
  | cons l limits ih =>
    rw [List.forall_mem_cons] at h
    obtain ⟨hl, hd⟩ := List.nodup_cons.1 hd
    rw [check_free h.1]
    set next := values.set l.key ((current now l values).1, (current now l values).2 + 1) with hnext
    have hother : ∀ key ≠ l.key, next.get? key = values.get? key := fun key hk => Mapping.get?_set_of_ne _ hk _
    have hsame : ∀ x ∈ limits, current now x next = current now x values := fun x hx =>
      current_congr (hother _ fun he => hl (List.mem_map.2 ⟨x, hx, he⟩))
    obtain ⟨hok, hmem, hout⟩ := ih (fun x hx => hsame x hx ▸ h.2 x hx) hd
    refine ⟨hok, List.forall_mem_cons.2 ⟨?_, fun x hx => ?_⟩, fun key hkey => ?_⟩
    · rw [hout l.key hl, hnext, Mapping.get?_set_self]
    · rw [hmem x hx, hsame x hx]
    · rw [List.map_cons, List.mem_cons, not_or] at hkey
      rw [hout key hkey.2, hother key hkey.1]

/-- A check touches only its own keys. -/
theorem check_other {key : Text} (h : key ∉ limits.map (·.key)) :
    (check now limits values).2.get? key = values.get? key := by
  induction limits generalizing values with
  | nil => rfl
  | cons l limits ih =>
    rw [List.map_cons, List.mem_cons, not_or] at h
    by_cases hl : l.count ≤ (current now l values).2
    · rw [check_full hl]
    · rw [check_free (not_le.1 hl), ih h.2, Mapping.get?_set_of_ne _ h.1]

end Check

/-! ### One counter on both sides -/

/-- A counter on the server and in memory, up to what has ended at `now`. -/
inductive Mirror (now : Time) : Option Entry → Option (Time × Int) → Prop
  | counted {n : Nat} (t : Time) (h : 1 ≤ n) : Mirror now (some ⟨n, some t⟩) (some (t, n))
  | ended {v : Option (Time × Int)} (h : ∀ p ∈ v, p.1 ≤ now) : Mirror now none v

/-- The counter ends at this very instant: the server still has it. -/
def Ending (now : Time) (s : Server) (limit : Limit) : Prop :=
  (RedisLimiter.live now s limit.stored).any (·.expires = some now)

/-- The limit of the key is reached, as the script tests it. -/
def Exhausted (now : Time) (s : Server) (limit : Limit) : Prop := limit.count ≤ RedisLimiter.get now s limit.stored

instance (now : Time) (s : Server) (limit : Limit) : Decidable (Ending now s limit) := by
  unfold Ending
  infer_instance

instance (now : Time) (s : Server) (limit : Limit) : Decidable (Exhausted now s limit) := by
  unfold Exhausted
  infer_instance

section Mirror
variable {last now : Time} {s : Server} {values : Values} {limit : Limit}

theorem Mirror.later {e : Option Entry} {v : Option (Time × Int)} (h : Mirror last e v) (hle : last ≤ now) :
    Mirror now e v := by
  cases h with
  | counted t h => exact .counted t h
  | ended h => exact .ended fun p hp => (h p hp).trans hle

/-- The server's counter has ended or runs on, and so has the one in memory, unless both end now. -/
theorem Mirror.cases_at (h : Mirror now (s limit.stored) (values.get? limit.key)) :
    (∃ n t, 1 ≤ n ∧ now < t ∧ RedisLimiter.live now s limit.stored = some ⟨n, some t⟩ ∧
        current now limit values = (t, (n : Int))) ∨
      (RedisLimiter.live now s limit.stored = none ∧
        current now limit values = (now + limit.seconds * 1000000, 0)) ∨
      Ending now s limit ∧ current now limit values = (now + limit.seconds * 1000000, 0) := by
  generalize hs : s limit.stored = e at h
  generalize hv : values.get? limit.key = v at h
  cases h with
  | @counted n t hn =>
    rcases lt_trichotomy now t with hlt | rfl | hgt
    · refine .inl ⟨n, t, hn, hlt, ?_, current_running hv hlt⟩
      exact RedisLimiter.live_eq.2 ⟨hs, fun t' ht => by cases ht; exact hlt.le⟩
    · refine .inr (.inr ⟨?_, current_fresh fun p hp => ?_⟩)
      · have hlive : RedisLimiter.live now s limit.stored = some ⟨n, some now⟩ :=
          RedisLimiter.live_eq.2 ⟨hs, fun t' ht => by cases ht; exact le_rfl⟩
        unfold Ending
        rw [hlive]
        exact decide_eq_true rfl
      · rw [hv] at hp
        cases hp
        exact le_rfl
    · refine .inr (.inl ⟨?_, current_fresh fun p hp => ?_⟩)
      · unfold RedisLimiter.live
        rw [hs, Option.filter_some, if_neg]
        simpa using hgt
      · rw [hv] at hp
        cases hp
        exact hgt.le
  | ended hended =>
    refine .inr (.inl ⟨?_, current_fresh fun p hp => hended p (hv ▸ hp)⟩)
    unfold RedisLimiter.live
    rw [hs]
    rfl

/-- Both sides read the same count, except at the instant a counter ends. -/
theorem Mirror.count_eq (h : Mirror now (s limit.stored) (values.get? limit.key)) (hend : ¬ Ending now s limit) :
    (current now limit values).2 = RedisLimiter.get now s limit.stored := by
  rcases h.cases_at with ⟨n, t, -, -, hlive, hcur⟩ | ⟨hlive, hcur⟩ | ⟨he, -⟩
  · rw [hcur, RedisLimiter.get_of_live hlive]
  · rw [hcur, RedisLimiter.get_of_none hlive]
    rfl
  · exact absurd he hend

/-- Counted on both sides, the counters are alike. -/
theorem Mirror.charge (h : Mirror now (s limit.stored) (values.get? limit.key)) (hend : ¬ Ending now s limit) :
    Mirror now (RedisLimiter.charge now s limit limit.stored)
      (some ((current now limit values).1, (current now limit values).2 + 1)) := by
  rcases h.cases_at with ⟨n, t, hn, -, hlive, hcur⟩ | ⟨hlive, hcur⟩ | ⟨he, -⟩
  · rw [RedisLimiter.charge_live hlive hn, Function.update_self, hcur]
    exact .counted t (Nat.le_succ_of_le hn)
  · rw [RedisLimiter.charge_new hlive, Function.update_self, hcur]
    split
    · exact .counted _ (Nat.le_refl 1)
    · rename_i hseconds
      refine .ended fun p hp => ?_
      cases hp
      have hle : limit.seconds * 1000000 ≤ 0 := by omega
      exact add_le_of_nonpos_right hle
  · exact absurd he hend

end Mirror

/-! ### One call on both sides -/

/-- All counters. -/
def Mirrors (now : Time) (s : Server) (values : Values) : Prop :=
  ∀ key, Mirror now (s ("repopilot:limit:".toList ++ key)) (values.get? key)

/-- The first key of the call is exhausted, or none is; and no counter that decides it ends at this instant. -/
def Clear (now : Time) (s : Server) : List Limit → Prop
  | [] => True
  | first :: rest =>
    Exhausted now s first ∧ (first.count ≤ 0 ∨ ¬ Ending now s first) ∨
      ∀ l ∈ first :: rest, ¬ Exhausted now s l ∧ ¬ Ending now s l

instance (now : Time) (s : Server) : (limits : List Limit) → Decidable (Clear now s limits)
  | [] => .isTrue trivial
  | first :: rest => by
    unfold Clear
    infer_instance

section Call
variable {now : Time} {s : Server} {values : Values} {limits : List Limit}

theorem Mirrors.later {last : Time} (h : Mirrors last s values) (hle : last ≤ now) : Mirrors now s values :=
  fun key => (h key).later hle

/-- A clear call is decided alike, and leaves like counters. -/
theorem Mirrors.check (h : Mirrors now s values) (hd : (limits.map (·.key)).Nodup) (hc : Clear now s limits) :
    ((RedisLimiter.check now .answered limits s).1 = .ok () ↔ (MemoryLimiter.check now limits values).1 = .ok ()) ∧
      Mirrors now (RedisLimiter.check now .answered limits s).2 (MemoryLimiter.check now limits values).2 := by
  have hall : (∀ l ∈ limits, ¬ Exhausted now s l ∧ ¬ Ending now s l) →
      ((RedisLimiter.check now .answered limits s).1 = .ok () ↔ (MemoryLimiter.check now limits values).1 = .ok ()) ∧
        Mirrors now (RedisLimiter.check now .answered limits s).2 (MemoryLimiter.check now limits values).2 := by
    intro hfree
    have hcount : ∀ l ∈ limits, (current now l values).2 < l.count := fun l hl => by
      rw [(h l.key).count_eq (hfree l hl).2]
      exact not_le.1 (hfree l hl).1
    obtain ⟨hok, hmem, hout⟩ := check_all hcount hd
    have hstored : (limits.map Limit.stored).Nodup := by
      have hmap : limits.map Limit.stored = (limits.map (·.key)).map ("repopilot:limit:".toList ++ ·) :=
        (List.map_map ..).symm
      rw [hmap]
      exact hd.map fun _ _ => List.append_cancel_left
    rw [RedisLimiter.check_answered, if_neg fun ⟨l, hl, hle⟩ => (hfree l hl).1 hle]
    refine ⟨iff_of_true rfl hok, fun key => ?_⟩
    by_cases hkey : key ∈ limits.map (·.key)
    · obtain ⟨l, hl, rfl⟩ := List.mem_map.1 hkey
      show Mirror now (limits.foldl (RedisLimiter.charge now) s l.stored) _
      rw [hmem l hl, RedisLimiter.foldl_charge_of_mem hstored hl]
      exact (h l.key).charge (hfree l hl).2
    · have hout' : limits.foldl (RedisLimiter.charge now) s ("repopilot:limit:".toList ++ key) =
          s ("repopilot:limit:".toList ++ key) := RedisLimiter.foldl_charge_of_not fun l hl he =>
        hkey (List.mem_map.2 ⟨l, hl, (List.append_cancel_left he).symm⟩)
      show Mirror now (limits.foldl (RedisLimiter.charge now) s _) _
      rw [hout key hkey, hout']
      exact h key
  cases limits with
  | nil => exact hall nofun
  | cons first rest =>
    rcases hc with ⟨hfull, hreal⟩ | hfree
    · have hmemory : first.count ≤ (current now first values).2 := by
        rcases (h first.key).cases_at with ⟨n, t, -, -, hlive, hcur⟩ | ⟨hlive, hcur⟩ | ⟨he, hcur⟩
        · have hle : first.count ≤ RedisLimiter.get now s first.stored := hfull
          rw [RedisLimiter.get_of_live hlive] at hle
          rwa [hcur]
        · unfold Exhausted at hfull
          rw [RedisLimiter.get_of_none hlive] at hfull
          rw [hcur]
          exact hfull
        · rw [hcur]
          exact hreal.resolve_right fun hn => hn he
      rw [RedisLimiter.check_answered, if_pos ⟨first, List.mem_cons_self, hfull⟩, check_full hmemory]
      exact ⟨iff_of_false nofun nofun, h⟩
    · exact hall hfree

end Call

/-! ### Calls one after the other -/

/-- A call, `elapsed` after the one before. -/
structure Call where
  elapsed : Nat
  limits : List Limit
  distinct : (limits.map (·.key)).Nodup

/-- The calls that the script accepts, when the last one before was at `now`. -/
def redisDecisions : Time → Server → List Call → List Bool
  | _, _, [] => []
  | now, s, c :: calls =>
    let p := RedisLimiter.check (now + c.elapsed) .answered c.limits s
    p.1.isOk :: redisDecisions (now + c.elapsed) p.2 calls

/-- The calls that the limiter in memory accepts. -/
def memoryDecisions : Time → Values → List Call → List Bool
  | _, _, [] => []
  | now, values, c :: calls =>
    let p := check (now + c.elapsed) c.limits values
    p.1.isOk :: memoryDecisions (now + c.elapsed) p.2 calls

/-- Every call is clear when it is made. -/
def AllClear : Time → Server → List Call → Prop
  | _, _, [] => True
  | now, s, c :: calls => Clear (now + c.elapsed) s c.limits ∧
      AllClear (now + c.elapsed) (RedisLimiter.check (now + c.elapsed) .answered c.limits s).2 calls

theorem isOk_congr {ε : Type} {x y : Except ε Unit} (h : x = .ok () ↔ y = .ok ()) : x.isOk = y.isOk := by
  cases x <;> cases y <;> simp_all [Except.isOk, Except.toBool]

theorem Mirrors.decisions {now : Time} {s : Server} {values : Values} (h : Mirrors now s values) {calls : List Call}
    (hc : AllClear now s calls) : redisDecisions now s calls = memoryDecisions now values calls := by
  induction calls generalizing now s values with
  | nil => rfl
  | cons c calls ih =>
    obtain ⟨hclear, hrest⟩ := hc
    have hlater : Mirrors (now + c.elapsed) s values := h.later (Int.le_add_of_nonneg_right (Int.natCast_nonneg _))
    obtain ⟨hdecided, hnext⟩ := hlater.check c.distinct hclear
    exact congrArg₂ List.cons (isOk_congr hdecided) (ih hnext hrest)

/-- A call that is refused for a later key tells the two limiters apart: in memory its first key is counted. -/
theorem Mirrors.told_apart {last : Time} {s : Server} {values : Values} (h : Mirrors last s values) {c : Call}
    {first : Limit} {rest : List Limit} (hc : c.limits = first :: rest) (hseconds : 0 < first.seconds)
    (hfree : ¬ Exhausted (last + c.elapsed) s first) (hend : ¬ Ending (last + c.elapsed) s first)
    (hlater : ∃ l ∈ rest, Exhausted (last + c.elapsed) s l) :
    ∃ next, redisDecisions last s [c, next] ≠ memoryDecisions last values [c, next] := by
  have hm := (h.later (Int.le_add_of_nonneg_right (Int.natCast_nonneg c.elapsed))) first.key
  revert hfree hend hlater hm
  generalize hnow : last + (c.elapsed : Time) = now
  intro hfree hend ⟨l, hl, hfull⟩ hm
  have hcount := hm.count_eq hend
  have hlt : (current now first values).2 < first.count := by
    rw [hcount]
    exact not_le.1 hfree
  have hredis : RedisLimiter.check now .answered c.limits s = (.error (RedisLimiter.limited c.limits), s) := by
    rw [RedisLimiter.check_answered, if_pos ⟨l, hc ▸ List.mem_cons_of_mem _ hl, hfull⟩]
  set values' := (MemoryLimiter.check now c.limits values).2 with hvalues
  have hstored : values'.get? first.key = some ((current now first values).1, (current now first values).2 + 1) := by
    have hnew : first.key ∉ rest.map (·.key) := by
      have hd := c.distinct
      rw [hc] at hd
      exact (List.nodup_cons.1 hd).1
    rw [hvalues, hc, check_free hlt, check_other hnew, Mapping.get?_set_self]
  have hafter : now < (current now first values).1 := by
    rcases hm.cases_at with ⟨n, t, -, hnt, -, hcur⟩ | ⟨-, hcur⟩ | ⟨he, -⟩
    · rwa [hcur]
    · rw [hcur]
      have hpos : 0 < first.seconds * 1000000 := by omega
      exact lt_add_of_pos_right now hpos
    · exact absurd he hend
  -- the same key once more, with room for one request
  let again : Limit := ⟨first.key, RedisLimiter.get now s first.stored + 1, first.seconds⟩
  have haccept : RedisLimiter.check now .answered [again] s = (.ok (), RedisLimiter.charge now s again) := by
    rw [RedisLimiter.check_answered, if_neg]
    · rfl
    · rintro ⟨x, hx, hle⟩
      rw [List.mem_singleton.1 hx] at hle
      exact absurd hle (Int.not_le.2 (Int.lt_succ _))
  have hreject : MemoryLimiter.check now [again] values' = (.error limited, values') := by
    refine check_full ?_
    have hagain : current now again values' = _ := current_running hstored hafter
    rw [hagain, hcount]
  refine ⟨⟨0, [again], List.nodup_singleton _⟩, fun he => ?_⟩
  have hsecond := congrArg (fun l : List Bool => l[1]?) he
  have hzero : now + ((0 : Nat) : Time) = now := Int.add_zero now
  simp only [redisDecisions, memoryDecisions, hnow, hzero, hredis, ← hvalues, haccept, hreject] at hsecond
  cases hsecond

theorem mirrors_empty (now : Time) : Mirrors now (fun _ => none) Mapping.empty := fun key =>
  .ended fun p hp => by
    rw [Mapping.get?_empty] at hp
    cases hp

/-- From empty state, clear calls are decided alike. -/
theorem decisions_alike (start : Time) (calls : List Call) (h : AllClear start (fun _ => none) calls) :
    redisDecisions start (fun _ => none) calls = memoryDecisions start Mapping.empty calls :=
  (mirrors_empty start).decisions h

/-- A key of its own and a shared one; the second call is refused for the first of its keys. -/
theorem decisions_alike_refused :
    redisDecisions 0 (fun _ => none) [⟨0, [⟨['a'], 1, 60⟩, ⟨['b'], 5, 60⟩], by decide⟩,
        ⟨1, [⟨['a'], 1, 60⟩, ⟨['b'], 5, 60⟩], by decide⟩, ⟨1, [⟨['b'], 5, 60⟩], by decide⟩] =
      memoryDecisions 0 Mapping.empty [⟨0, [⟨['a'], 1, 60⟩, ⟨['b'], 5, 60⟩], by decide⟩,
        ⟨1, [⟨['a'], 1, 60⟩, ⟨['b'], 5, 60⟩], by decide⟩, ⟨1, [⟨['b'], 5, 60⟩], by decide⟩] :=
  decisions_alike 0 _ ⟨by decide, by decide, by decide, trivial⟩

/-- The second call is refused for its second key; in memory its first key is counted all the same. -/
theorem decisions_differ : ¬ ∀ start calls,
    redisDecisions start (fun _ => none) calls = memoryDecisions start Mapping.empty calls := fun h =>
  absurd (h 0 [⟨0, [⟨['b'], 1, 60⟩], by decide⟩, ⟨1, [⟨['a'], 1, 60⟩, ⟨['b'], 1, 60⟩], by decide⟩,
    ⟨1, [⟨['a'], 1, 60⟩], by decide⟩]) (by decide)

end MemoryLimiter
end RepoPilot
