import RepoPilot.Archive

/-! # Reading no more than a limit

`BoundedReader` lets `tarfile` read the decompressed archive, one byte beyond the limit at most: that byte is an
error, and so is every read after it. What `tarfile` leaves unread is read at the end, and counts too. -/

namespace RepoPilot
namespace Archive

/-- What is left of the stream, how much of it may still be read, and until when. -/
structure BoundedReader where
  stream : List UInt8
  remaining : Int
  deadline : Time

namespace BoundedReader

/-- `GzipFile.read`: everything for -1; other negative sizes are a `ValueError`. -/
def streamRead (size : Int) (stream : List UInt8) : Option (List UInt8 × List UInt8) :=
  if size < -1 then none
  else if size = -1 then some (stream, [])
  else some (stream.take size.toNat, stream.drop size.toNat)

/-- The size that is asked of the stream. -/
def wanted (size : Option Int) (remaining : Int) : Int :=
  min
    (match size with
      | some n => if 0 ≤ n then n else remaining + 1
      | none => remaining + 1)
    (remaining + 1)

/-- `BoundedReader.read`. -/
def read (now : Time) (size : Option Int) (r : BoundedReader) : Except Fault (List UInt8) × BoundedReader :=
  if r.deadline < now then (.error .timeout, r)
  else
    match streamRead (wanted size r.remaining) r.stream with
    | none => (.error .invalid, r)
    | some (data, rest) =>
      let r' := { r with stream := rest, remaining := r.remaining - data.length }
      (if r'.remaining < 0 then .error .tooLarge else .ok data, r')

/-- One read after the other. -/
def reads : List (Time × Option Int) → BoundedReader → List (Except Fault (List UInt8))
  | [], _ => []
  | (now, size) :: calls, r => (r.read now size).1 :: reads calls (r.read now size).2

/-! ### What one read does -/

/-- A successful read. -/
def Returned : Except Fault (List UInt8) → Prop
  | .ok _ => True
  | .error _ => False

/-- The data of the reads that returned. -/
def returned (outcomes : List (Except Fault (List UInt8))) : List (List UInt8) := outcomes.filterMap Except.toOption

/-- The reader has seen more than it may return. -/
def Spent (r : BoundedReader) : Prop := r.remaining < 0

section Read
variable {r : BoundedReader} {now : Time} {size : Option Int} {data : List UInt8} {f : Fault}

theorem wanted_le (size : Option Int) (remaining : Int) : wanted size remaining ≤ remaining + 1 := min_le_right _ _

theorem wanted_nonneg (size : Option Int) {remaining : Int} (h : 0 ≤ remaining) : 0 ≤ wanted size remaining := by
  have hone : 0 ≤ remaining + 1 := by omega
  refine le_min ?_ hone
  split
  · split
    · assumption
    · exact hone
  · exact hone

/-- A spent reader stays spent and returns nothing. -/
theorem read_spent (now : Time) (size : Option Int) (h : r.Spent) : (∃ f, (r.read now size).1 = .error f) ∧ (r.read now size).2.Spent := by
  unfold read
  split
  · exact ⟨⟨_, rfl⟩, h⟩
  · split
    · exact ⟨⟨_, rfl⟩, h⟩
    · rename_i data rest _
      have hspent : r.remaining - data.length < 0 := by
        unfold Spent at h
        omega
      dsimp only
      rw [if_pos hspent]
      exact ⟨⟨_, rfl⟩, hspent⟩

/-- What a reader that is not spent does before the deadline: it takes bytes off the stream, one too many at most. -/
theorem read_live (size : Option Int) (h : 0 ≤ r.remaining) (ht : now ≤ r.deadline) :
    ∃ data rest, r.stream = data ++ rest ∧ (data.length : Int) ≤ r.remaining + 1 ∧
      (wanted size r.remaining ≠ 0 → data = [] → rest = []) ∧
      r.read now size = (if (data.length : Int) = r.remaining + 1 then .error .tooLarge else .ok data,
        { r with stream := rest, remaining := r.remaining - data.length }) := by
  have hle := wanted_le size r.remaining
  have hnonneg := wanted_nonneg size h
  refine ⟨r.stream.take (wanted size r.remaining).toNat, r.stream.drop (wanted size r.remaining).toNat,
    (List.take_append_drop _ _).symm, ?_, fun hne hnil => ?_, ?_⟩
  · rw [List.length_take]
    omega
  · rw [List.take_eq_nil_iff] at hnil
    rcases hnil with hzero | hnil
    · omega
    · rw [hnil, List.drop_nil]
  · unfold read streamRead
    rw [if_neg (not_lt.2 ht), if_neg (by omega), if_neg (by omega)]
    dsimp only
    have hlength : ((r.stream.take (wanted size r.remaining).toNat).length : Int) ≤ r.remaining + 1 := by
      rw [List.length_take]
      omega
    congr 1
    by_cases hfull : ((r.stream.take (wanted size r.remaining).toNat).length : Int) = r.remaining + 1
    · rw [if_pos hfull, if_pos (by omega)]
    · rw [if_neg hfull, if_neg (by omega)]

@[simp] theorem read_deadline : (r.read now size).2.deadline = r.deadline := by
  unfold read
  split
  · rfl
  · split <;> rfl

end Read

/-! ### Any sequence of reads -/

/-- What a reader with `remaining` to return makes of a stream. -/
structure Bounded (stream : List UInt8) (limit : Int) (outcomes : List (Except Fault (List UInt8))) : Prop where
  /-- What is returned are consecutive pieces of the stream. -/
  pieces : (returned outcomes).flatten <+: stream
  /-- They are no longer than the limit. -/
  within : returned outcomes ≠ [] → ((returned outcomes).flatten.length : Int) ≤ limit
  /-- A stream within the limit is never refused. -/
  exact : (stream.length : Int) ≤ limit → ∀ o ∈ outcomes, Returned o
  /-- After a failure every read fails. -/
  permanent : outcomes.Pairwise fun a b => ¬ Returned a → ¬ Returned b

theorem reads_spent {r : BoundedReader} (h : r.Spent) (calls : List (Time × Option Int)) :
    ∀ o ∈ r.reads calls, ¬ Returned o := by
  induction calls generalizing r with
  | nil => exact List.forall_mem_nil _
  | cons c calls ih =>
    obtain ⟨⟨f, hf⟩, hspent⟩ := read_spent c.1 c.2 h
    refine List.forall_mem_cons.2 ⟨?_, ih hspent⟩
    rw [hf]
    exact id

theorem returned_of_failed {outcomes : List (Except Fault (List UInt8))} (h : ∀ o ∈ outcomes, ¬ Returned o) :
    returned outcomes = [] := by
  unfold returned
  rw [List.filterMap_eq_nil_iff]
  intro o ho
  cases o with
  | ok data => exact absurd trivial (h _ ho)
  | error f => rfl

theorem pairwise_of_failed {outcomes : List (Except Fault (List UInt8))} (h : ∀ o ∈ outcomes, ¬ Returned o) :
    outcomes.Pairwise fun a b => ¬ Returned a → ¬ Returned b :=
  List.pairwise_of_forall_mem_list fun _ _ b hb _ => h b hb

theorem bounded_of_live {r : BoundedReader} (h : 0 ≤ r.remaining) {calls : List (Time × Option Int)}
    (ht : ∀ c ∈ calls, c.1 ≤ r.deadline) : Bounded r.stream r.remaining (r.reads calls) := by
  induction calls generalizing r with
  | nil => exact ⟨List.nil_prefix, fun hne => absurd rfl hne, fun _ => List.forall_mem_nil _, .nil⟩
  | cons c calls ih =>
    rw [List.forall_mem_cons] at ht
    obtain ⟨data, rest, hstream, hlength, -, hread⟩ := read_live c.2 h ht.1
    have hcons : r.reads (c :: calls) = (r.read c.1 c.2).1 :: (r.read c.1 c.2).2.reads calls := rfl
    rw [hcons, hread]
    by_cases hfull : (data.length : Int) = r.remaining + 1
    · -- the byte beyond the limit
      have hspent : ({ r with stream := rest, remaining := r.remaining - data.length } : BoundedReader).Spent := by
        show r.remaining - data.length < 0
        omega
      have hfailed := reads_spent hspent calls
      have hall : ∀ o ∈ (Except.error Fault.tooLarge :: reads calls _), ¬ Returned o :=
        List.forall_mem_cons.2 ⟨id, hfailed⟩
      rw [if_pos hfull]
      refine ⟨?_, fun hne => absurd (returned_of_failed hall) hne, fun hfits => ?_, pairwise_of_failed hall⟩
      · rw [returned_of_failed hall]
        exact List.nil_prefix
      · rw [hstream, List.length_append] at hfits
        push_cast at hfits
        omega
    · have hrest := ih (r := { r with stream := rest, remaining := r.remaining - data.length })
        (by show 0 ≤ r.remaining - data.length; omega) ht.2
      rw [if_neg hfull]
      have hreturned : ∀ outcomes, returned (.ok data :: outcomes) = data :: returned outcomes := fun _ => rfl
      refine ⟨?_, fun _ => ?_, fun hfits => ?_, ?_⟩
      · rw [hreturned, List.flatten_cons, hstream]
        exact (List.prefix_append_right_inj data).2 hrest.pieces
      · rw [hreturned, List.flatten_cons, List.length_append]
        by_cases hnil : returned (reads calls { r with stream := rest, remaining := r.remaining - data.length }) = []
        · rw [hnil, List.flatten_nil, List.length_nil]
          omega
        · have hwithin := hrest.within hnil
          dsimp only at hwithin
          push_cast
          omega
      · refine List.forall_mem_cons.2 ⟨trivial, hrest.exact ?_⟩
        rw [hstream, List.length_append] at hfits
        push_cast at hfits
        show (rest.length : Int) ≤ r.remaining - data.length
        omega
      · exact List.pairwise_cons.2 ⟨fun o _ hno => absurd trivial hno, hrest.permanent⟩

/-- For any stream, limit and sizes, before the deadline. -/
theorem reads_bounded {r : BoundedReader} {calls : List (Time × Option Int)} (ht : ∀ c ∈ calls, c.1 ≤ r.deadline) :
    Bounded r.stream r.remaining (r.reads calls) := by
  by_cases h : 0 ≤ r.remaining
  · exact bounded_of_live h ht
  · have hall := reads_spent (r := r) (not_le.1 h) calls
    refine ⟨?_, fun hne => absurd (returned_of_failed hall) hne, fun hfits => ?_, pairwise_of_failed hall⟩
    · rw [returned_of_failed hall]
      exact List.nil_prefix
    · omega

/-! ### The whole archive -/

/-- What `tarfile` does with the reader: any reads, each after what the reads before it gave. -/
inductive Walk (α : Type)
  | done (a : α)
  | read (size : Option Int) (next : Except Fault (List UInt8) → Walk α)

/-- The `n`-th reading of the clock is `clock n`; the result, the next reading and the reader. -/
def Walk.run {α : Type} (clock : Nat → Time) : Walk α → Nat → BoundedReader → α × Nat × BoundedReader
  | .done a, n, r => (a, n, r)
  | .read size next, n, r => (next (r.read (clock n) size).1).run clock (n + 1) (r.read (clock n) size).2

/-- How much of `stream` is read and left, when `limit` may be read. -/
structure Accounts (stream : List UInt8) (limit : Int) (r : BoundedReader) : Prop where
  suffix : r.stream <:+ stream
  spent : r.remaining + stream.length ≤ limit + r.stream.length

theorem Accounts.start (stream : List UInt8) (limit : Int) (deadline : Time) : Accounts stream limit ⟨stream, limit, deadline⟩ :=
  ⟨List.suffix_refl _, le_rfl⟩

theorem streamRead_eq {size : Int} {stream data rest : List UInt8} (h : streamRead size stream = some (data, rest)) :
    stream = data ++ rest := by
  unfold streamRead at h
  split at h
  · cases h
  · split at h
    · cases h
      exact (List.append_nil _).symm
    · cases h
      exact (List.take_append_drop _ _).symm

theorem Accounts.read {stream : List UInt8} {limit : Int} {r : BoundedReader} (h : Accounts stream limit r) (now : Time)
    (size : Option Int) : Accounts stream limit (r.read now size).2 := by
  unfold BoundedReader.read
  split
  · exact h
  · split
    · exact h
    · rename_i data rest hread
      have hsplit := streamRead_eq hread
      refine ⟨(hsplit ▸ List.suffix_append data rest).trans h.suffix, ?_⟩
      have hspent := h.spent
      rw [hsplit, List.length_append] at hspent
      push_cast at hspent
      show r.remaining - data.length + stream.length ≤ limit + rest.length
      omega

theorem Accounts.walk {α : Type} {stream : List UInt8} {limit : Int} {clock : Nat → Time} (walk : Walk α) {n : Nat}
    {r : BoundedReader} (h : Accounts stream limit r) : Accounts stream limit (walk.run clock n r).2.2 := by
  induction walk generalizing n r with
  | done a => exact h
  | read size next ih => exact ih _ (h.read _ _)

theorem read_ok {r : BoundedReader} {now : Time} {size : Option Int} {data : List UInt8}
    (h : (r.read now size).1 = .ok data) :
    r.stream = data ++ (r.read now size).2.stream ∧ 0 ≤ (r.read now size).2.remaining ∧
      (data = [] → 0 < wanted size r.remaining → r.stream = []) := by
  unfold read at h ⊢
  split at h
  · cases h
  · rename_i hnow
    rw [if_neg hnow]
    split at h
    · cases h
    · rename_i data' rest hread
      dsimp only at h ⊢
      split at h
      · cases h
      · rename_i hlive
        cases h
        refine ⟨streamRead_eq hread, not_lt.1 hlive, fun hnil hpos => ?_⟩
        unfold streamRead at hread
        rw [if_neg (by omega), if_neg (by omega)] at hread
        cases hread
        rw [List.take_eq_nil_iff] at hnil
        rcases hnil with hzero | hnil
        · omega
        · exact hnil

/-- `while bounded.read(64 * 1024)`: what it raises. -/
def drain (clock : Nat → Time) (n : Nat) (r : BoundedReader) : Option Fault :=
  match h : (r.read (clock n) (some (64 * 1024))).1 with
  | .error f => some f
  | .ok [] => none
  | .ok (_ :: _) => drain clock (n + 1) (r.read (clock n) (some (64 * 1024))).2
termination_by r.stream.length
decreasing_by
  rw [(read_ok h).1, List.length_append, List.length_cons]
  omega

/-- The loop ends without an error only at the end of the stream. -/
theorem drain_eq_none {clock : Nat → Time} {n : Nat} {r : BoundedReader} {stream : List UInt8} {limit : Int}
    (ha : Accounts stream limit r) (h : drain clock n r = none) : (stream.length : Int) ≤ limit := by
  induction n, r using drain.induct clock with
  | case1 n r f hread =>
    rw [drain] at h
    split at h
    · cases h
    · rename_i hread'
      cases hread.symm.trans hread'
    · rename_i hread'
      cases hread.symm.trans hread'
  | case2 n r hread =>
    obtain ⟨hstream, hlive, hend⟩ := read_ok hread
    rw [List.nil_append] at hstream
    have hafter := (ha.read (clock n) (some (64 * 1024))).spent
    have hremaining : 0 ≤ r.remaining := by
      by_contra hneg
      obtain ⟨⟨f, hf⟩, -⟩ := read_spent (clock n) (some (64 * 1024)) (not_le.1 hneg)
      cases hread.symm.trans hf
    have hpos : 0 < wanted (some (64 * 1024)) r.remaining := by
      unfold wanted
      dsimp only
      rw [if_pos (by omega)]
      omega
    rw [← hstream, hend rfl hpos, List.length_nil] at hafter
    omega
  | case3 n r byte data hread ih =>
    refine ih (ha.read _ _) ?_
    rw [drain] at h
    split at h
    · cases h
    · rename_i hread'
      cases hread.symm.trans hread'
    · exact h

/-- The members that `tarfile` finds in the expanded stream, and what ends them: its own fault, or one of the reads that
follow. -/
def expand (walk : Walk (List Member × Option Fault)) (clock : Nat → Time) (expandedBytes : Int) (seconds : Time)
    (stream : List UInt8) : Tar :=
  let p := walk.run clock 1 ⟨stream, expandedBytes, clock 0 + seconds⟩
  ⟨p.1.1, p.1.2.or (drain clock p.2.1 p.2.2)⟩

/-- Before the deadline `BoundedReader` returns consecutive pieces within the limit, refuses no stream within it, and
fails for good; and an archive is read only if the whole expanded stream is within its limit, whatever `tarfile` reads
of it and when. -/
theorem expansion_bounded (stream : List UInt8) (limit : Int) (deadline : Time) (calls : List (Time × Option Int))
    (ht : ∀ c ∈ calls, c.1 ≤ deadline) :
    Bounded stream limit (reads calls ⟨stream, limit, deadline⟩) ∧
      ∀ (u : LowerCase) (sha256 : List UInt8 → Text) (limits : ArchiveLimits) (walk : Walk (List Member × Option Fault))
        (clock : Nat → Time) (seconds : Time) (result : Result),
        readArchive u sha256 limits (expand walk clock limit seconds stream) = .ok result →
          (stream.length : Int) ≤ limit := by
  refine ⟨reads_bounded (r := ⟨stream, limit, deadline⟩) ht, fun u sha256 limits walk clock seconds result h => ?_⟩
  have hending : (expand walk clock limit seconds stream).ending = none := by
    unfold readArchive at h
    split at h
    · cases h
    · split at h
      · cases h
      · assumption
  obtain ⟨-, hdrain⟩ := Option.or_eq_none_iff.1 hending
  exact drain_eq_none ((Accounts.start stream limit _).walk walk) hdrain

/-- A stream of three bytes and a limit of two: the second read sees the third byte. -/
theorem expansion_bounded_over :
    Bounded [1, 2, 3] 2 (reads [(0, some 1), (1, none), (2, some (-1)), (3, some 0)] ⟨[1, 2, 3], 2, 15⟩) :=
  (expansion_bounded [1, 2, 3] 2 15 [(0, some 1), (1, none), (2, some (-1)), (3, some 0)] (by decide)).1

end BoundedReader
end Archive
end RepoPilot
