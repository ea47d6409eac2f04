import RepoPilot.Basic
import Mathlib

/-! # Rate limits

`core/rate_limits.py`: counters in Redis that expire. A counter starts with the first request it counts and runs
for the seconds of the limit; requests beyond the count are refused until it has expired. -/

namespace RepoPilot
namespace RateLimits

/-- A key such as `"imports:user:" + str(user_id)`. -/
structure Key where
  name : String
  userId : Uuid
  deriving DecidableEq

structure Limit where
  key : Key
  count : Nat
  seconds : Nat
  deriving DecidableEq

structure Counter where
  count : Nat
  expires : Time
  deriving DecidableEq

abbrev Redis := Key → Option Counter

/-- The counter of a key, unless it has expired. -/
def running (now : Time) (redis : Redis) (key : Key) : Option Counter :=
  (redis key).filter fun c => now ≤ c.expires

/-- `tonumber(redis.call('GET', key) or '0')`. -/
def get (now : Time) (redis : Redis) (key : Key) : Nat := ((running now redis key).map (·.count)).getD 0

/-- `INCR`, and `EXPIRE` if the counter is new. -/
def incr (now : Time) (limit : Limit) (redis : Redis) : Redis :=
  Function.update redis limit.key <| some <|
    match running now redis limit.key with
    | some c => { c with count := c.count + 1 }
    | none => ⟨1, now + RepoPilot.seconds limit.seconds⟩

/-- The script: `false` leaves every counter alone, `true` has counted the request in all of them. -/
def script (now : Time) (limits : List Limit) (redis : Redis) : Bool × Redis :=
  if ∃ l ∈ limits, l.count ≤ get now redis l.key then (false, redis)
  else (true, limits.foldl (fun r l => incr now l r) redis)

/-- What becomes of the call; the script of a lost one was run. -/
inductive Reply
  | answered
  | lost
  | unreachable
  deriving DecidableEq

def unavailable : AppError :=
  ⟨"rate_limit_unavailable", "Request protection is unavailable. Try again shortly.", 503⟩

def limited (limits : List Limit) : AppError :=
  ⟨if ∃ l ∈ limits, 60 < l.seconds then "import_rate_limited" else "rate_limited",
    "Too many attempts. Please try again later.", 429⟩

/-- `RedisRateLimiter.check`. -/
def checkLimits (now : Time) (reply : Reply) (limits : List Limit) (redis : Redis) : Option AppError × Redis :=
  match reply with
  | .unreachable => (some unavailable, redis)
  | .lost => (some unavailable, (script now limits redis).2)
  | .answered =>
    let p := script now limits redis
    (if p.1 then none else some (limited limits), p.2)

section Single
variable {now : Time} {limit : Limit} {redis : Redis}

theorem incr_of_ne {key : Key} (h : limit.key ≠ key) : incr now limit redis key = redis key :=
  Function.update_of_ne h.symm _ _

theorem script_full (h : limit.count ≤ get now redis limit.key) : script now [limit] redis = (false, redis) := by
  simp [script, h]

theorem script_free (h : get now redis limit.key < limit.count) :
    script now [limit] redis = (true, incr now limit redis) := by
  simp [script, h]

/-- A running counter shows what is stored. -/
theorem get_of_running {c : Counter} (h : running now redis limit.key = some c) :
    redis limit.key = some c ∧ get now redis limit.key = c.count := by
  refine ⟨(Option.filter_eq_some_iff.1 h).1, ?_⟩
  unfold get
  rw [h]
  rfl

theorem get_of_none (h : running now redis limit.key = none) : get now redis limit.key = 0 := by
  unfold get
  rw [h]
  rfl

theorem incr_of_running {c : Counter} (h : running now redis limit.key = some c) :
    incr now limit redis = Function.update redis limit.key (some { c with count := c.count + 1 }) := by
  unfold incr
  rw [h]

theorem incr_of_none (h : running now redis limit.key = none) :
    incr now limit redis = Function.update redis limit.key (some ⟨1, now + RepoPilot.seconds limit.seconds⟩) := by
  unfold incr
  rw [h]

end Single

end RateLimits
end RepoPilot
