import RepoPilot.RateLimits
import RepoPilot.Json

/-! # The limiter in Redis, command by command

`RedisRateLimiter.check` packs its limits into `KEYS` and `ARGV`; the script reads them by index, first all
counters, then it counts the request in all of them. The server runs a script as a whole, at one reading of its
clock. -/

namespace RepoPilot
namespace RedisLimiter

/-! ### The server -/

/-- A number under a key, and when it expires. -/
structure Entry where
  value : Nat
  expires : Option Time
  deriving DecidableEq

abbrev Server := Text → Option Entry

/-- The entry of a key, unless it has expired. -/
def live (now : Time) (s : Server) (key : Text) : Option Entry := (s key).filter fun e => e.expires.all (now ≤ ·)

/-- `tonumber(redis.call('GET', key) or '0')`. -/
def get (now : Time) (s : Server) (key : Text) : Nat := ((live now s key).map (·.value)).getD 0

/-- `INCR`: the new value, and the server. -/
def incr (now : Time) (key : Text) (s : Server) : Nat × Server :=
  match live now s key with
  | some e => (e.value + 1, Function.update s key (some { e with value := e.value + 1 }))
  | none => (1, Function.update s key (some ⟨1, none⟩))

/-- `EXPIRE`, which deletes the key when the time is not positive. -/
def expire (now : Time) (key : Text) (seconds : Int) (s : Server) : Server :=
  match live now s key with
  | some e =>
    Function.update s key (if 0 < seconds then some { e with expires := some (now + seconds * 1000000) } else none)
  | none => s

/-! ### The script -/

/-- An argument of the command. -/
inductive Arg
  | text (s : Text)
  | number (n : Int)

def Arg.key : Arg → Text
  | .text s => s
  | .number n => Json.dumps .python (.num n)

/-- `tonumber`; the arguments that are not numbers are the keys. -/
def Arg.toNumber : Arg → Option Int
  | .text _ => none
  | .number n => some n

/-- `tonumber(ARGV[n])`, counted from one; `none` is an error of the script. -/
def argument (argv : List Arg) (n : Nat) : Option Int := if n = 0 then none else (argv[n - 1]?).bind Arg.toNumber

/-- The first loop: some key has reached its limit. -/
def full (now : Time) (argv : List Arg) (s : Server) : List (Text × Nat) → Option Bool
  | [] => some false
  | (key, i) :: rest =>
    match argument argv ((i - 1) * 2 + 1) with
    | none => none
    | some limit => if limit ≤ get now s key then some true else full now argv s rest

/-- The second loop; the flag says whether it came to its end. -/
def countAll (now : Time) (argv : List Arg) : List (Text × Nat) → Server → Bool × Server
  | [], s => (true, s)
  | (key, i) :: rest, s =>
    let (count, s) := incr now key s
    if count = 1 then
      match argument argv ((i - 1) * 2 + 2) with
      | none => (false, s)
      | some seconds => countAll now argv rest (expire now key seconds s)
    else countAll now argv rest s

/-- `EVAL SCRIPT numkeys args`; no result is an error. -/
def eval (now : Time) (numkeys : Nat) (args : List Arg) (s : Server) : Option Nat × Server :=
  let keys := ((args.take numkeys).map Arg.key).zipIdx 1
  let argv := args.drop numkeys
  match full now argv s keys with
  | none => (none, s)
  | some true => (some 0, s)
  | some false =>
    let (ended, s) := countAll now argv keys s
    (if ended then some 1 else none, s)

/-! ### `RedisRateLimiter.check` -/

structure Limit where
  key : Text
  count : Int
  seconds : Int

def Limit.stored (l : Limit) : Text := "repopilot:limit:".toList ++ l.key

def packed (limits : List Limit) : List Arg :=
  limits.map (fun l => .text l.stored) ++ limits.flatMap fun l => [.number l.count, .number l.seconds]

def limited (limits : List Limit) : AppError :=
  ⟨if ∃ l ∈ limits, 60 < l.seconds then "import_rate_limited" else "rate_limited",
    "Too many attempts. Please try again later.", 429⟩

def check (now : Time) (reply : RateLimits.Reply) (limits : List Limit) (s : Server) : Except AppError Unit × Server :=
  match reply with
  | .unreachable => (.error RateLimits.unavailable, s)
  | .lost => (.error RateLimits.unavailable, (eval now limits.length (packed limits) s).2)
  | .answered =>
    match eval now limits.length (packed limits) s with
    | (none, s) => (.error RateLimits.unavailable, s)
    | (some result, s) => (if result = 1 then .ok () else .error (limited limits), s)

/-! ### What the script does with its arguments -/

/-- The second half of the arguments. -/
def arguments (limits : List Limit) : List Arg := limits.flatMap fun l => [.number l.count, .number l.seconds]

theorem arguments_even (limits : List Limit) (i : Nat) :
    (arguments limits)[i * 2]? = (limits[i]?).map (.number ·.count) := by
  induction limits generalizing i with
  | nil => rfl
  | cons l limits ih =>
    cases i with
    | zero => rfl
    | succ i =>
      rw [Nat.succ_mul]
      exact ih i

theorem arguments_odd (limits : List Limit) (i : Nat) :
    (arguments limits)[i * 2 + 1]? = (limits[i]?).map (.number ·.seconds) := by
  induction limits generalizing i with
  | nil => rfl
  | cons l limits ih =>
    cases i with
    | zero => rfl
    | succ i =>
      rw [Nat.succ_mul]
      exact ih i

section Argument
variable {limits rest : List Limit} {l : Limit} {k : Nat}

theorem get_of_drop (h : limits.drop k = l :: rest) : limits[k]? = some l ∧ limits.drop (k + 1) = rest := by
  rw [← List.head?_drop, h, ← List.drop_drop, h]
  exact ⟨rfl, rfl⟩

theorem argument_count (h : limits.drop k = l :: rest) :
    argument (arguments limits) ((k + 1 - 1) * 2 + 1) = some l.count := by
  unfold argument
  rw [if_neg (by omega), Nat.add_sub_cancel, Nat.add_sub_cancel, arguments_even, (get_of_drop h).1]
  rfl

theorem argument_seconds (h : limits.drop k = l :: rest) :
    argument (arguments limits) ((k + 1 - 1) * 2 + 2) = some l.seconds := by
  unfold argument
  rw [if_neg (by omega), Nat.add_sub_cancel, show k * 2 + 2 - 1 = k * 2 + 1 by omega, arguments_odd, (get_of_drop h).1]
  rfl

end Argument

/-- Count one request under one limit: `INCR`, and `EXPIRE` for a new counter. -/
def charge (now : Time) (s : Server) (l : Limit) : Server :=
  let r := incr now l.stored s
  if r.1 = 1 then expire now l.stored l.seconds r.2 else r.2

section Script
variable {now : Time} {s : Server} {limits rest : List Limit} {k : Nat}

theorem full_drop (h : limits.drop k = rest) :
    full now (arguments limits) s ((rest.map Limit.stored).zipIdx (k + 1)) =
      some (decide (∃ l ∈ rest, l.count ≤ get now s l.stored)) := by
  induction rest generalizing k with
  | nil => simp [full]
  | cons l rest ih =>
    rw [List.map_cons, List.zipIdx_cons]
    unfold full
    rw [argument_count h]
    dsimp only
    by_cases hl : l.count ≤ get now s l.stored
    · simp [hl]
    · rw [if_neg hl, ih (get_of_drop h).2]
      simp [hl]

theorem countAll_drop (h : limits.drop k = rest) :
    countAll now (arguments limits) ((rest.map Limit.stored).zipIdx (k + 1)) s = (true, rest.foldl (charge now) s) := by
  induction rest generalizing k s with
  | nil => rfl
  | cons l rest ih =>
    rw [List.map_cons, List.zipIdx_cons, List.foldl_cons]
    unfold countAll charge
    rw [argument_seconds h]
    dsimp only
    split
    · exact ih (get_of_drop h).2
    · exact ih (get_of_drop h).2

/-- The indices line up: the script reads the limits in their order, whatever their number is. -/
theorem eval_packed (now : Time) (limits : List Limit) (s : Server) :
    eval now limits.length (packed limits) s =
      if ∃ l ∈ limits, l.count ≤ get now s l.stored then (some 0, s) else (some 1, limits.foldl (charge now) s) := by
  have hkeys : ((packed limits).take limits.length).map Arg.key = limits.map Limit.stored := by
    unfold packed
    rw [List.take_left' (List.length_map _), List.map_map]
    rfl
  have hargs : (packed limits).drop limits.length = arguments limits := by
    unfold packed
    rw [List.drop_left' (List.length_map _)]
    rfl
  have hfull : full now (arguments limits) s ((limits.map Limit.stored).zipIdx 1) =
      some (decide (∃ l ∈ limits, l.count ≤ get now s l.stored)) := full_drop (k := 0) rfl
  have hcount : countAll now (arguments limits) ((limits.map Limit.stored).zipIdx 1) s =
      (true, limits.foldl (charge now) s) := countAll_drop (k := 0) rfl
  unfold eval
  dsimp only
  rw [hkeys, hargs, hfull, hcount]
  by_cases hlimit : ∃ l ∈ limits, l.count ≤ get now s l.stored
  · rw [if_pos hlimit, decide_eq_true hlimit]
  · rw [if_neg hlimit, decide_eq_false hlimit]
    rfl

theorem check_answered (now : Time) (limits : List Limit) (s : Server) :
    check now .answered limits s =
      if ∃ l ∈ limits, l.count ≤ get now s l.stored then (.error (limited limits), s)
      else (.ok (), limits.foldl (charge now) s) := by
  unfold check
  dsimp only
  rw [eval_packed]
  by_cases hlimit : ∃ l ∈ limits, l.count ≤ get now s l.stored
  · rw [if_pos hlimit, if_pos hlimit]
    rfl
  · rw [if_neg hlimit, if_neg hlimit]
    rfl

/-- The script of a call whose reply is lost was run. -/
theorem check_lost (now : Time) (limits : List Limit) (s : Server) :
    check now .lost limits s = (.error RateLimits.unavailable,
      if ∃ l ∈ limits, l.count ≤ get now s l.stored then s else limits.foldl (charge now) s) := by
  unfold check
  dsimp only
  rw [eval_packed]
  split <;> rfl

end Script

/-! ### Counting a request -/

/-- Every counter is at least one, and expires. -/
def Good (s : Server) : Prop := ∀ key e, s key = some e → 1 ≤ e.value ∧ ∃ t, e.expires = some t

section Charge
variable {now : Time} {s s' : Server} {l : Limit} {limits : List Limit} {key : Text} {e : Entry}

theorem live_eq : live now s key = some e ↔ s key = some e ∧ ∀ t ∈ e.expires, now ≤ t := by
  unfold live
  rw [Option.filter_eq_some_iff, Option.all_eq_true]
  simp only [decide_eq_true_eq, Option.mem_def]

theorem get_of_live (h : live now s key = some e) : get now s key = e.value := by
  unfold get
  rw [h]
  rfl

theorem get_of_none (h : live now s key = none) : get now s key = 0 := by
  unfold get
  rw [h]
  rfl

theorem incr_of_ne {key' : Text} (h : key ≠ key') : (incr now key' s).2 key = s key := by
  unfold incr
  split <;> exact Function.update_of_ne h _ _

theorem expire_of_ne {key' : Text} {seconds : Int} (h : key ≠ key') : expire now key' seconds s key = s key := by
  unfold expire
  cases live now s key' with
  | none => rfl
  | some e => exact Function.update_of_ne h _ _

theorem charge_of_ne (h : key ≠ l.stored) : charge now s l key = s key := by
  unfold charge
  split
  · rw [expire_of_ne h, incr_of_ne h]
  · exact incr_of_ne h

theorem charge_live (h : live now s l.stored = some e) (hv : 1 ≤ e.value) :
    charge now s l = Function.update s l.stored (some { e with value := e.value + 1 }) := by
  unfold charge incr
  rw [h]
  dsimp only
  rw [if_neg (by omega)]

theorem charge_new (h : live now s l.stored = none) :
    charge now s l = Function.update s l.stored
      (if 0 < l.seconds then some ⟨1, some (now + l.seconds * 1000000)⟩ else none) := by
  have hlive : live now (Function.update s l.stored (some ⟨1, none⟩)) l.stored = some ⟨1, none⟩ := by
    rw [live_eq, Function.update_self]
    exact ⟨rfl, nofun⟩
  unfold charge incr
  rw [h]
  dsimp only
  rw [if_pos rfl]
  unfold expire
  rw [hlive]
  exact Function.update_idem _ _ _

theorem incr_congr (now : Time) (h : s key = s' key) : (incr now key s).1 = (incr now key s').1 ∧
    (incr now key s).2 key = (incr now key s').2 key := by
  unfold incr live
  rw [h]
  split <;> simp only [Function.update_self, and_self]

theorem expire_congr {seconds : Int} (h : s key = s' key) : expire now key seconds s key = expire now key seconds s' key := by
  have hlive : live now s key = live now s' key := by
    unfold live
    rw [h]
  unfold expire
  rw [hlive]
  cases live now s' key with
  | none => exact h
  | some e =>
    dsimp only
    rw [Function.update_self, Function.update_self]

/-- What a charge writes under its key depends on what is there. -/
theorem charge_congr (h : s l.stored = s' l.stored) : charge now s l l.stored = charge now s' l l.stored := by
  obtain ⟨hvalue, hat⟩ := incr_congr now h
  unfold charge
  rw [hvalue]
  split
  · exact expire_congr hat
  · exact hat

theorem charge_good (h : Good s) : Good (charge now s l) := by
  intro key e he
  by_cases hk : key = l.stored
  · subst hk
    cases hl : live now s l.stored with
    | none =>
      rw [charge_new hl, Function.update_self] at he
      split at he
      · cases he
        exact ⟨Nat.le_refl 1, _, rfl⟩
      · cases he
    | some e' =>
      obtain ⟨hv, t, ht⟩ := h _ _ (live_eq.1 hl).1
      rw [charge_live hl hv, Function.update_self] at he
      cases he
      exact ⟨Nat.le_add_left 1 _, t, ht⟩
  · rw [charge_of_ne hk] at he
    exact h key e he

theorem foldl_charge_good (h : Good s) : Good (limits.foldl (charge now) s) := by
  induction limits generalizing s with
  | nil => exact h
  | cons l limits ih => exact ih (charge_good h)

theorem foldl_charge_of_not (h : ∀ l ∈ limits, key ≠ l.stored) : limits.foldl (charge now) s key = s key := by
  induction limits generalizing s with
  | nil => rfl
  | cons l limits ih =>
    rw [List.forall_mem_cons] at h
    rw [List.foldl_cons, ih h.2, charge_of_ne h.1]

/-- Distinct keys are charged independently. -/
theorem foldl_charge_of_mem (hd : (limits.map Limit.stored).Nodup) (hl : l ∈ limits) :
    limits.foldl (charge now) s l.stored = charge now s l l.stored := by
  induction limits generalizing s with
  | nil => cases hl
  | cons x limits ih =>
    obtain ⟨hx, hd⟩ := List.nodup_cons.1 hd
    rw [List.foldl_cons]
    rcases List.mem_cons.1 hl with rfl | hl
    · exact foldl_charge_of_not fun y hy he => hx (he ▸ List.mem_map_of_mem hy)
    · rw [ih hd hl]
      refine charge_congr (charge_of_ne fun he => hx ?_)
      rw [← he]
      exact List.mem_map_of_mem hl

end Charge

/-! ### The limiter of the requests -/

section Refines
variable {name : RateLimits.Key → Text} {now : Time} {redis : RateLimits.Redis} {s : Server} {key : RateLimits.Key}

/-- The counters of the requests are on the server under the names of their keys. -/
def Represents (name : RateLimits.Key → Text) (redis : RateLimits.Redis) (s : Server) : Prop :=
  ∀ key, s ("repopilot:limit:".toList ++ name key) = (redis key).map fun c => ⟨c.count, some c.expires⟩

/-- A limit of a request, as the script gets it. -/
def limitOf (name : RateLimits.Key → Text) (l : RateLimits.Limit) : Limit := ⟨name l.key, l.count, l.seconds⟩

theorem Represents.live (h : Represents name redis s) (now : Time) (key : RateLimits.Key) :
    live now s ("repopilot:limit:".toList ++ name key) =
      (RateLimits.running now redis key).map fun c => ⟨c.count, some c.expires⟩ := by
  unfold RedisLimiter.live RateLimits.running
  rw [h key]
  cases redis key with
  | none => rfl
  | some c => by_cases hc : now ≤ c.expires <;> simp [Option.filter, hc]

theorem Represents.get (h : Represents name redis s) :
    get now s ("repopilot:limit:".toList ++ name key) = RateLimits.get now redis key := by
  unfold RedisLimiter.get RateLimits.get
  rw [h.live]
  cases RateLimits.running now redis key <;> rfl

theorem Represents.charge (h : Represents name redis s) (hn : Function.Injective name) (hg : Good s) {l : RateLimits.Limit}
    (hl : 0 < l.seconds) : Represents name (RateLimits.incr now l redis) (charge now s (limitOf name l)) := by
  intro key
  by_cases hk : key = l.key
  · subst hk
    have hlive := h.live now l.key
    unfold RateLimits.incr
    rw [Function.update_self]
    cases hr : RateLimits.running now redis l.key with
    | none =>
      rw [hr] at hlive
      have hpos : 0 < (limitOf name l).seconds := Int.natCast_pos.2 hl
      rw [charge_new hlive, if_pos hpos]
      show Function.update s (limitOf name l).stored _ (limitOf name l).stored = _
      rw [Function.update_self]
      rfl
    | some c =>
      rw [hr] at hlive
      have hv := (hg _ _ (live_eq.1 hlive).1).1
      rw [charge_live hlive hv]
      exact Function.update_self (limitOf name l).stored _ s
  · have hne : "repopilot:limit:".toList ++ name key ≠ (limitOf name l).stored := fun he =>
      hk (hn (List.append_cancel_left he))
    rw [RateLimits.incr_of_ne fun he => hk he.symm, charge_of_ne hne]
    exact h key

/-- The script does what the counters of the requests do. -/
theorem Represents.eval (h : Represents name redis s) (hn : Function.Injective name) (hg : Good s)
    {limits : List RateLimits.Limit} (hl : ∀ l ∈ limits, 0 < l.seconds) :
    (eval now (limits.map (limitOf name)).length (packed (limits.map (limitOf name))) s).1 =
        some (if (RateLimits.script now limits redis).1 then 1 else 0) ∧
      Represents name (RateLimits.script now limits redis).2
        (eval now (limits.map (limitOf name)).length (packed (limits.map (limitOf name))) s).2 := by
  have hfull : (∃ l ∈ limits.map (limitOf name), l.count ≤ RedisLimiter.get now s l.stored) ↔
      ∃ l ∈ limits, l.count ≤ RateLimits.get now redis l.key := by
    simp only [List.mem_map, exists_exists_and_eq_and]
    refine exists_congr fun l => and_congr_right fun _ => ?_
    rw [← h.get]
    exact Int.ofNat_le
  have hcharged : ∀ limits : List RateLimits.Limit, (∀ l ∈ limits, 0 < l.seconds) → ∀ {redis : RateLimits.Redis} {s : Server},
      Represents name redis s → Good s → Represents name (limits.foldl (fun r l => RateLimits.incr now l r) redis)
        ((limits.map (limitOf name)).foldl (RedisLimiter.charge now) s) := by
    intro limits
    induction limits with
    | nil => exact fun _ _ _ h _ => h
    | cons l limits ih =>
      intro hl redis s h hg
      rw [List.forall_mem_cons] at hl
      exact ih hl.2 (h.charge hn hg hl.1) (charge_good hg)
  rw [eval_packed]
  unfold RateLimits.script
  by_cases hlimit : ∃ l ∈ limits, l.count ≤ RateLimits.get now redis l.key
  · rw [if_pos (hfull.2 hlimit), if_pos hlimit]
    exact ⟨rfl, h⟩
  · rw [if_neg fun he => hlimit (hfull.1 he), if_neg hlimit]
    exact ⟨rfl, hcharged limits hl h hg⟩

end Refines

/-! ### Many checks -/

/-- A key always has the same count and the same seconds; every limit of the program lasts. -/
structure Policy where
  count : Text → Int
  seconds : Text → Int
  positive : ∀ key, 0 < seconds key

def Policy.limits (p : Policy) (keys : List Text) : List Limit := keys.map fun key => ⟨key, p.count key, p.seconds key⟩

/-- A check by some client, `elapsed` after the one before, and what becomes of the call. -/
structure Call where
  elapsed : Nat
  keys : List Text
  distinct : keys.Nodup
  reply : RateLimits.Reply

structure State where
  now : Time
  server : Server

namespace State
variable (p : Policy)

def init : State := ⟨0, fun _ => none⟩

/-- When the call is made. -/
def time (s : State) (c : Call) : Time := s.now + c.elapsed

def step (s : State) (c : Call) : State :=
  ⟨s.time c, (check (s.time c) c.reply (p.limits c.keys) s.server).2⟩

def run (calls : List Call) : State := calls.foldl (step p) init

/-- The check does not raise. -/
def Accepts (s : State) (c : Call) : Prop := (check (s.time c) c.reply (p.limits c.keys) s.server).1 = .ok ()

/-- The check raises because of a limit. -/
def Rejects (s : State) (c : Call) : Prop :=
  (check (s.time c) c.reply (p.limits c.keys) s.server).1 = .error (limited (p.limits c.keys))

instance (s : State) (c : Call) : Decidable (s.Accepts p c) := by
  unfold Accepts
  infer_instance

instance (key : Text) (c : Call) : Decidable (key ∈ c.keys) :=
  decidable_of_iff (c.keys.any (· = key) = true) (by simp)

/-- The checks naming `key` that are accepted up to `until_`. -/
def accepted (key : Text) (until_ : Time) : State → List Call → Nat
  | _, [] => 0
  | s, c :: calls =>
    (if key ∈ c.keys ∧ s.Accepts p c ∧ s.time c ≤ until_ then 1 else 0) + accepted key until_ (s.step p c) calls

/-! ### What every check does -/

section Check
variable {p} {s : State} {c : Call} {calls : List Call} {key : Text} {e : Entry}

theorem nodup_stored (c : Call) : ((p.limits c.keys).map Limit.stored).Nodup := by
  unfold Policy.limits
  rw [List.map_map]
  exact c.distinct.map fun a b h => List.append_cancel_left h

theorem mem_limits {l : Limit} : l ∈ p.limits c.keys ↔ l.key ∈ c.keys ∧ l = ⟨l.key, p.count l.key, p.seconds l.key⟩ := by
  unfold Policy.limits
  rw [List.mem_map]
  constructor
  · rintro ⟨key, hk, rfl⟩
    exact ⟨hk, rfl⟩
  · rintro ⟨hk, hl⟩
    exact ⟨l.key, hk, hl.symm⟩

/-- The check passes every limit. -/
def Passes (p : Policy) (s : State) (c : Call) : Prop :=
  ∀ key ∈ c.keys, (get (s.time c) s.server ("repopilot:limit:".toList ++ key) : Int) < p.count key

theorem passes_iff : s.Passes p c ↔ ¬ ∃ l ∈ p.limits c.keys, l.count ≤ get (s.time c) s.server l.stored := by
  unfold Passes Policy.limits
  simp only [List.mem_map, not_exists, not_and, forall_exists_index, and_imp, forall_apply_eq_imp_iff₂, not_le]
  rfl

/-- The server after a check. -/
theorem server_step (p : Policy) (s : State) (c : Call) : (s.step p c).server = s.server ∨ s.Passes p c ∧
    (s.step p c).server = (p.limits c.keys).foldl (charge (s.time c)) s.server := by
  unfold step
  dsimp only
  by_cases hp : s.Passes p c
  · cases c.reply with
    | unreachable => exact .inl rfl
    | lost =>
      rw [check_lost, if_neg (passes_iff.1 hp)]
      exact .inr ⟨hp, rfl⟩
    | answered =>
      rw [check_answered, if_neg (passes_iff.1 hp)]
      exact .inr ⟨hp, rfl⟩
  · have hfull := not_not.1 fun h => hp (passes_iff.2 h)
    cases c.reply with
    | unreachable => exact .inl rfl
    | lost =>
      rw [check_lost, if_pos hfull]
      exact .inl rfl
    | answered =>
      rw [check_answered, if_pos hfull]
      exact .inl rfl

/-- An accepted check has passed and counted. -/
theorem server_of_accepts (h : s.Accepts p c) : s.Passes p c ∧
    (s.step p c).server = (p.limits c.keys).foldl (charge (s.time c)) s.server := by
  unfold Accepts at h
  unfold step
  dsimp only
  cases hreply : c.reply with
  | unreachable =>
    rw [hreply] at h
    cases h
  | lost =>
    rw [hreply, check_lost] at h
    cases h
  | answered =>
    rw [hreply, check_answered] at h
    rw [check_answered]
    split at h
    · cases h
    · rename_i hfull
      rw [if_neg hfull]
      exact ⟨passes_iff.2 hfull, rfl⟩

theorem limited_ne_unavailable (limits : List Limit) : limited limits ≠ RateLimits.unavailable := by
  intro h
  have hstatus : (429 : Nat) = 503 := congrArg AppError.status h
  omega

/-- A rejected check has changed nothing. -/
theorem server_of_rejects (h : s.Rejects p c) : (s.step p c).server = s.server := by
  unfold Rejects at h
  unfold step
  dsimp only
  cases hreply : c.reply with
  | unreachable => rfl
  | lost =>
    rw [hreply, check_lost] at h
    exact absurd (Except.error.inj h).symm (limited_ne_unavailable _)
  | answered =>
    rw [hreply, check_answered] at h
    rw [check_answered]
    split at h
    · rename_i hfull
      rw [if_pos hfull]
    · cases h

theorem good_step (h : Good s.server) : Good (s.step p c).server := by
  rcases server_step p s c with he | ⟨-, he⟩
  · rw [he]
    exact h
  · rw [he]
    exact foldl_charge_good h

theorem good_run (p : Policy) (calls : List Call) : Good (run p calls).server := by
  induction calls using List.reverseRecOn with
  | nil => exact fun key e he => by cases he
  | append_singleton calls c ih =>
    unfold run at ih ⊢
    rw [List.foldl_concat]
    exact good_step ih

/-- The key as the server stores it. -/
def stored (key : Text) : Text := "repopilot:limit:".toList ++ key

/-- A key that is charged is charged under its own limit. -/
theorem foldl_charge_at (hk : key ∈ c.keys) (now : Time) (server : Server) :
    (p.limits c.keys).foldl (charge now) server (stored key) =
      charge now server ⟨key, p.count key, p.seconds key⟩ (stored key) :=
  foldl_charge_of_mem (l := ⟨key, p.count key, p.seconds key⟩) (nodup_stored c) (mem_limits.2 ⟨hk, rfl⟩)

theorem foldl_charge_off (hk : key ∉ c.keys) (now : Time) (server : Server) :
    (p.limits c.keys).foldl (charge now) server (stored key) = server (stored key) :=
  foldl_charge_of_not fun l hl he => hk ((List.append_cancel_left he : key = l.key) ▸ (mem_limits.1 hl).1)

/-- A running counter is counted up and keeps its expiry. -/
theorem charged_live (hg : Good s.server) (hl : live (s.time c) s.server (stored key) = some e) :
    charge (s.time c) s.server ⟨key, p.count key, p.seconds key⟩ (stored key) = some { e with value := e.value + 1 } := by
  have hv := (hg _ _ (live_eq.1 hl).1).1
  rw [charge_live (l := ⟨key, p.count key, p.seconds key⟩) hl hv]
  exact Function.update_self _ _ _

/-- A new counter runs for the seconds of its limit. -/
theorem charged_new (hl : live (s.time c) s.server (stored key) = none) :
    charge (s.time c) s.server ⟨key, p.count key, p.seconds key⟩ (stored key) =
      some ⟨1, some (s.time c + p.seconds key * 1000000)⟩ := by
  rw [charge_new (l := ⟨key, p.count key, p.seconds key⟩) hl, if_pos (p.positive key)]
  exact Function.update_self _ _ _

/-! ### At most `count` until the key expires -/

theorem accepted_of_late {until_ : Time} (h : until_ < s.now) : accepted p key until_ s calls = 0 := by
  induction calls generalizing s with
  | nil => rfl
  | cons c calls ih =>
    have hlate : until_ < s.time c := lt_of_lt_of_le h (le_add_of_nonneg_right (Int.natCast_nonneg _))
    unfold accepted
    rw [if_neg fun hc => absurd hc.2.2 (not_le.2 hlate), ih hlate]

/-- What a running counter has left bounds the checks that are still accepted. -/
theorem accepted_le (calls : List Call) {until_ : Time} (hg : Good s.server) (he : s.server (stored key) = some e)
    (hexp : e.expires = some until_) (hv : (e.value : Int) ≤ p.count key) :
    (accepted p key until_ s calls + e.value : Int) ≤ p.count key := by
  induction calls generalizing s e with
  | nil => simpa [accepted] using hv
  | cons c calls ih =>
    unfold accepted
    by_cases hlate : until_ < s.time c
    · rw [if_neg fun hc => absurd hc.2.2 (not_le.2 hlate), accepted_of_late (s := s.step p c) hlate]
      simpa using hv
    have hlive : live (s.time c) s.server (stored key) = some e := by
      refine live_eq.2 ⟨he, fun t ht => ?_⟩
      rw [hexp] at ht
      cases ht
      exact not_lt.1 hlate
    have hcharged : s.Passes p c → key ∈ c.keys →
        (p.limits c.keys).foldl (charge (s.time c)) s.server (stored key) = some { e with value := e.value + 1 } ∧
          (e.value : Int) + 1 ≤ p.count key := by
      intro hpass hk
      refine ⟨(foldl_charge_at hk _ _).trans (charged_live hg hlive), ?_⟩
      have hlt := hpass key hk
      rw [show "repopilot:limit:".toList ++ key = stored key from rfl, get_of_live hlive] at hlt
      omega
    by_cases hc : key ∈ c.keys ∧ s.Accepts p c ∧ s.time c ≤ until_
    · obtain ⟨hk, ha, -⟩ := hc
      obtain ⟨hpass, hserver⟩ := server_of_accepts ha
      obtain ⟨hnew, hle⟩ := hcharged hpass hk
      have hrest := ih (e := { e with value := e.value + 1 }) (s := s.step p c) (good_step hg) (hserver ▸ hnew) hexp (by push_cast; omega)
      rw [if_pos ⟨hk, ha, not_lt.1 hlate⟩]
      push_cast at hrest ⊢
      omega
    · rw [if_neg hc]
      rcases server_step p s c with hserver | ⟨hpass, hserver⟩
      · have hrest := ih (s := s.step p c) (good_step hg) (hserver ▸ he) hexp hv
        push_cast
        omega
      · by_cases hk : key ∈ c.keys
        · obtain ⟨hnew, hle⟩ := hcharged hpass hk
          have hrest := ih (e := { e with value := e.value + 1 }) (s := s.step p c) (good_step hg) (hserver ▸ hnew) hexp (by push_cast; omega)
          push_cast at hrest ⊢
          omega
        · have hkeep := foldl_charge_off (p := p) hk (s.time c) s.server
          have hrest := ih (s := s.step p c) (good_step hg) (hserver ▸ hkeep.trans he) hexp hv
          push_cast
          omega

/-- What a check does to the counters. -/
structure Checked (p : Policy) (s : State) (c : Call) : Prop where
  rejected : s.Rejects p c → (s.step p c).server = s.server
  counted : s.Accepts p c → ∀ key ∈ c.keys,
    get (s.time c) (s.step p c).server (stored key) = get (s.time c) s.server (stored key) + 1
  kept : s.Accepts p c → ∀ key ∈ c.keys, ∀ e, live (s.time c) s.server (stored key) = some e →
    (s.step p c).server (stored key) = some { e with value := e.value + 1 }
  others : s.Accepts p c → ∀ key, (∀ k ∈ c.keys, key ≠ stored k) → (s.step p c).server key = s.server key

theorem checked (hg : Good s.server) (c : Call) : Checked p s c := by
  refine ⟨server_of_rejects, fun ha key hk => ?_, fun ha key hk e he => ?_, fun ha key hk => ?_⟩
  · have hserver := (server_of_accepts ha).2
    cases hl : live (s.time c) s.server (stored key) with
    | none =>
      have hnow : s.time c ≤ s.time c + p.seconds key * 1000000 :=
        le_add_of_nonneg_right (Int.mul_nonneg (p.positive key).le (by decide))
      have hafter : live (s.time c) (s.step p c).server (stored key) =
          some ⟨1, some (s.time c + p.seconds key * 1000000)⟩ := by
        refine live_eq.2 ⟨by rw [hserver, foldl_charge_at hk, charged_new hl], fun t ht => ?_⟩
        cases ht
        exact hnow
      rw [get_of_live hafter, get_of_none hl]
    | some e =>
      have hafter : live (s.time c) (s.step p c).server (stored key) = some { e with value := e.value + 1 } :=
        live_eq.2 ⟨by rw [hserver, foldl_charge_at hk, charged_live hg hl], (live_eq.1 hl).2⟩
      rw [get_of_live hafter, get_of_live hl]
  · rw [(server_of_accepts ha).2, foldl_charge_at hk, charged_live hg he]
  · rw [(server_of_accepts ha).2]
    refine foldl_charge_of_not fun l hl he => ?_
    exact hk l.key (mem_limits.1 hl).1 he

/-- The check creates the counter `e` under `key`. -/
def Creates (p : Policy) (s : State) (c : Call) (key : Text) (e : Entry) : Prop :=
  live (s.time c) s.server (stored key) = none ∧ live (s.time c) (s.step p c).server (stored key) = some e

theorem accepted_of_creates {until_ : Time} (hg : Good s.server) (h : s.Creates p c key e) (hexp : e.expires = some until_)
    (more : List Call) : (accepted p key until_ s (c :: more) : Int) ≤ p.count key := by
  obtain ⟨hnone, hsome⟩ := h
  rcases server_step p s c with hserver | ⟨hpass, hserver⟩
  · rw [hserver, hnone] at hsome
    cases hsome
  have hk : key ∈ c.keys := by
    by_contra hk
    rw [hserver] at hsome
    unfold live at hnone hsome
    rw [foldl_charge_off hk, hnone] at hsome
    cases hsome
  have he := (live_eq.1 hsome).1
  have hnew := he
  rw [hserver, foldl_charge_at hk, charged_new hnone] at hnew
  cases hnew
  have hcount : (0 : Int) < p.count key := by
    have hlt := hpass key hk
    rwa [show "repopilot:limit:".toList ++ key = stored key from rfl, get_of_none hnone] at hlt
  have hrest := accepted_le more (good_step hg) he hexp (Int.add_one_le_iff.2 hcount)
  unfold accepted
  split <;> (push_cast at hrest ⊢; omega)

end Check

/-- In any run of checks by any clients: what a check does to the counters, that every counter expires, and that
between the creation of a counter and its expiry at most as many checks are accepted as its limit allows. -/
theorem limits_hold (p : Policy) (calls : List Call) :
    (∀ key e, (run p calls).server key = some e → ∃ t, e.expires = some t) ∧
      ∀ c, Checked p (run p calls) c ∧ ∀ key e until_, (run p calls).Creates p c key e → e.expires = some until_ →
        ∀ more, (accepted p key until_ (run p calls) (c :: more) : Int) ≤ p.count key :=
  ⟨fun key e he => (good_run p calls key e he).2, fun c => ⟨checked (good_run p calls) c,
    fun _ _ _ hc hexp more => accepted_of_creates (good_run p calls) hc hexp more⟩⟩

/-- The limits on the questions of one user. -/
def answers : Policy where
  count key := if key = "answer:user:minute:0".toList then 5 else 30
  seconds key := if key = "answer:user:minute:0".toList then 60 else 86400
  positive key := by split <;> decide

/-- A question `elapsed` after the one before. -/
def asked (elapsed : Nat) : Call :=
  ⟨elapsed, ["answer:user:minute:0".toList, "answer:user:day:0".toList], by decide +kernel, .answered⟩

/-- Of seven questions, eight seconds apart, five are accepted before the first counter expires. -/
theorem limits_hold_answers :
    init.Creates answers (asked 0) "answer:user:minute:0".toList ⟨1, some 60000000⟩ ∧
      (accepted answers "answer:user:minute:0".toList 60000000 init
        (asked 0 :: List.replicate 6 (asked 8000000)) : Int) ≤ answers.count "answer:user:minute:0".toList ∧
      accepted answers "answer:user:minute:0".toList 60000000 init
        (asked 0 :: List.replicate 6 (asked 8000000)) = 5 := by
  have hcreates : init.Creates answers (asked 0) "answer:user:minute:0".toList ⟨1, some 60000000⟩ := by
    unfold Creates
    decide +kernel
  exact ⟨hcreates, ((limits_hold answers []).2 (asked 0)).2 _ _ _ hcreates rfl _, by decide +kernel⟩

end State
end RedisLimiter
end RepoPilot
