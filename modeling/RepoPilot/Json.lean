import Mathlib

/-! # JSON with integer numbers

`dumps` is the serializer of Python's `json.dumps` and, in the compact style, of `serde_json`;
`parse` is a reader for every style it writes in. `parse_dumps`: reading back what was written gives
the value, so writing loses nothing (`dumps_injective`). -/

namespace RepoPilot

inductive Json
  | null
  | bool (b : Bool)
  | num (n : Int)
  | str (s : List Char)
  | arr (xs : List Json)
  | obj (kvs : List (List Char × Json))

namespace Json

/-- How a serializer escapes and how many blanks it puts after `,` and `:`. -/
structure Style where
  asciiOnly : Bool
  blanks : Nat

/-- `json.dumps(…)`. -/
def Style.python : Style := ⟨true, 1⟩

/-- `json.dumps(…, ensure_ascii=False)`. -/
def Style.pythonUnicode : Style := ⟨false, 1⟩

/-- `json.dumps(…, ensure_ascii=False, separators=(",", ":"))` and `serde_json`. -/
def Style.compact : Style := ⟨false, 0⟩

/-! ### Writing -/

def hexDigit (n : Nat) : Char := if n < 10 then Char.ofNat (48 + n) else Char.ofNat (87 + n)

def hex4 (n : Nat) : List Char :=
  [hexDigit (n / 4096 % 16), hexDigit (n / 256 % 16), hexDigit (n / 16 % 16), hexDigit (n % 16)]

/-- UTF-16 code units. -/
def units (c : Char) : List Nat :=
  if c.toNat < 0x10000 then [c.toNat]
  else [0xD800 + (c.toNat - 0x10000) / 0x400, 0xDC00 + (c.toNat - 0x10000) % 0x400]

def unicodeEscape (n : Nat) : List Char := '\\' :: 'u' :: hex4 n

/-- The letter after the backslash of a short escape. -/
def shortEscape (c : Char) : Option Char :=
  if c = '"' then some '"'
  else if c = '\\' then some '\\'
  else if c = '\n' then some 'n'
  else if c = '\r' then some 'r'
  else if c = '\t' then some 't'
  else if c.toNat = 8 then some 'b'
  else if c.toNat = 12 then some 'f'
  else none

def escapeChar (asciiOnly : Bool) (c : Char) : List Char :=
  match shortEscape c with
  | some e => ['\\', e]
  | none =>
    if c.toNat < 32 ∨ asciiOnly = true ∧ 126 < c.toNat then (units c).flatMap unicodeEscape else [c]

def quote (asciiOnly : Bool) (s : List Char) : List Char :=
  '"' :: (s.flatMap (escapeChar asciiOnly) ++ ['"'])

/-- Decimal digits, least significant first; the first argument is fuel. -/
def digitsRev : Nat → Nat → List Nat
  | 0, _ => []
  | k + 1, n => if n < 10 then [n] else n % 10 :: digitsRev k (n / 10)

def decimal (n : Nat) : List Char := ((digitsRev (n + 1) n).map hexDigit).reverse

def integer : Int → List Char
  | .ofNat n => decimal n
  | .negSucc n => '-' :: decimal (n + 1)

def comma (st : Style) : List Char := ',' :: List.replicate st.blanks ' '

def colon (st : Style) : List Char := ':' :: List.replicate st.blanks ' '

mutual

def dumps (st : Style) : Json → List Char
  | .null => ['n', 'u', 'l', 'l']
  | .bool true => ['t', 'r', 'u', 'e']
  | .bool false => ['f', 'a', 'l', 's', 'e']
  | .num n => integer n
  | .str s => quote st.asciiOnly s
  | .arr [] => ['[', ']']
  | .arr (x :: xs) => '[' :: (dumps st x ++ dumpsItems st xs)
  | .obj [] => ['{', '}']
  | .obj ((k, v) :: kvs) => '{' :: (quote st.asciiOnly k ++ (colon st ++ (dumps st v ++ dumpsMembers st kvs)))

/-- The items after the first, and the closing bracket. -/
def dumpsItems (st : Style) : List Json → List Char
  | [] => [']']
  | x :: xs => comma st ++ (dumps st x ++ dumpsItems st xs)

/-- The members after the first, and the closing brace. -/
def dumpsMembers (st : Style) : List (List Char × Json) → List Char
  | [] => ['}']
  | (k, v) :: kvs =>
    comma st ++ (quote st.asciiOnly k ++ (colon st ++ (dumps st v ++ dumpsMembers st kvs)))

end

/-- The last `k` hexadecimal digits of `n`. -/
def hexPad : Nat → Nat → List Char
  | 0, _ => []
  | k + 1, n => hexPad k (n / 16) ++ [hexDigit (n % 16)]

/-- `str(uuid)`. -/
def uuidText (n : Nat) : List Char :=
  hexPad 8 (n / 16 ^ 24) ++ '-' :: hexPad 4 (n / 16 ^ 20) ++ '-' :: hexPad 4 (n / 16 ^ 16) ++
    '-' :: hexPad 4 (n / 16 ^ 12) ++ '-' :: hexPad 12 n

/-! ### Reading -/

def hexValue (c : Char) : Option Nat :=
  if 48 ≤ c.toNat ∧ c.toNat ≤ 57 then some (c.toNat - 48)
  else if 97 ≤ c.toNat ∧ c.toNat ≤ 102 then some (c.toNat - 87)
  else if 65 ≤ c.toNat ∧ c.toNat ≤ 70 then some (c.toNat - 55)
  else none

def readHex4 (a b c d : Char) : Option Nat := do
  let a ← hexValue a
  let b ← hexValue b
  let c ← hexValue c
  let d ← hexValue d
  some (a * 4096 + b * 256 + c * 16 + d)

/-- The character a short escape stands for. -/
def unescape (e : Char) : Option Nat :=
  if e = '"' ∨ e = '\\' ∨ e = '/' then some e.toNat
  else if e = 'n' then some 10
  else if e = 'r' then some 13
  else if e = 't' then some 9
  else if e = 'b' then some 8
  else if e = 'f' then some 12
  else none

/-- Code units and code points up to the closing quote. -/
def readUnits : List Char → Option (List Nat × List Char)
  | [] => none
  | '"' :: rest => some ([], rest)
  | '\\' :: 'u' :: a :: b :: c :: d :: rest => do
    let n ← readHex4 a b c d
    let (us, r) ← readUnits rest
    some (n :: us, r)
  | '\\' :: e :: rest => do
    let n ← unescape e
    let (us, r) ← readUnits rest
    some (n :: us, r)
  | c :: rest =>
    if c = '\\' ∨ c.toNat < 32 then none
    else do
      let (us, r) ← readUnits rest
      some (c.toNat :: us, r)

/-- Join surrogate pairs; a lone surrogate is no character. -/
def joinUnits : List Nat → Option (List Char)
  | [] => some []
  | [n] => if 0xD800 ≤ n ∧ n < 0xE000 then none else some [Char.ofNat n]
  | n :: m :: rest =>
    if 0xD800 ≤ n ∧ n < 0xDC00 then
      if 0xDC00 ≤ m ∧ m < 0xE000 then
        (joinUnits rest).map (Char.ofNat (0x10000 + (n - 0xD800) * 0x400 + (m - 0xDC00)) :: ·)
      else none
    else if 0xDC00 ≤ n ∧ n < 0xE000 then none
    else (joinUnits (m :: rest)).map (Char.ofNat n :: ·)

/-- A string, after its opening quote. -/
def readString (cs : List Char) : Option (List Char × List Char) := do
  let (us, r) ← readUnits cs
  let s ← joinUnits us
  some (s, r)

def IsDigit (c : Char) : Prop := 48 ≤ c.toNat ∧ c.toNat ≤ 57

instance : DecidablePred IsDigit := fun c => inferInstanceAs (Decidable (48 ≤ c.toNat ∧ c.toNat ≤ 57))

def digitsValue (ds : List Char) : Nat := ds.foldl (fun n d => n * 10 + (d.toNat - 48)) 0

def readNat (cs : List Char) : Option (Nat × List Char) :=
  match cs.takeWhile (IsDigit ·) with
  | [] => none
  | ds => some (digitsValue ds, cs.dropWhile (IsDigit ·))

def IsBlank (c : Char) : Prop := c = ' ' ∨ c = '\n' ∨ c = '\t' ∨ c = '\r'

instance : DecidablePred IsBlank := fun c =>
  inferInstanceAs (Decidable (c = ' ' ∨ c = '\n' ∨ c = '\t' ∨ c = '\r'))

def skip (cs : List Char) : List Char := cs.dropWhile (IsBlank ·)

/-- A string and the colon after it. -/
def readKey (cs : List Char) : Option (List Char × List Char) :=
  match skip cs with
  | '"' :: r => do
    let (k, r) ← readString r
    match skip r with
    | ':' :: r => some (k, r)
    | _ => none
  | _ => none

mutual

/-- One value; the first argument is fuel. -/
def readValue : Nat → List Char → Option (Json × List Char)
  | 0, _ => none
  | n + 1, cs =>
    match skip cs with
    | '"' :: r => (readString r).map fun p => (.str p.1, p.2)
    | '[' :: r =>
      match skip r with
      | ']' :: r => some (.arr [], r)
      | r => do
        let (x, r) ← readValue n r
        let (xs, r) ← readItems n r
        some (.arr (x :: xs), r)
    | '{' :: r =>
      match skip r with
      | '}' :: r => some (.obj [], r)
      | r => do
        let (k, r) ← readKey r
        let (v, r) ← readValue n r
        let (kvs, r) ← readMembers n r
        some (.obj ((k, v) :: kvs), r)
    | 'n' :: 'u' :: 'l' :: 'l' :: r => some (.null, r)
    | 't' :: 'r' :: 'u' :: 'e' :: r => some (.bool true, r)
    | 'f' :: 'a' :: 'l' :: 's' :: 'e' :: r => some (.bool false, r)
    | '-' :: r => (readNat r).map fun p => (.num (-p.1), p.2)
    | r => (readNat r).map fun p => (.num p.1, p.2)

def readItems : Nat → List Char → Option (List Json × List Char)
  | 0, _ => none
  | n + 1, cs =>
    match skip cs with
    | ']' :: r => some ([], r)
    | ',' :: r => do
      let (x, r) ← readValue n r
      let (xs, r) ← readItems n r
      some (x :: xs, r)
    | _ => none

def readMembers : Nat → List Char → Option (List (List Char × Json) × List Char)
  | 0, _ => none
  | n + 1, cs =>
    match skip cs with
    | '}' :: r => some ([], r)
    | ',' :: r => do
      let (k, r) ← readKey r
      let (v, r) ← readValue n r
      let (kvs, r) ← readMembers n r
      some ((k, v) :: kvs, r)
    | _ => none

end

/-- A document: one value and nothing but blanks after it. -/
def parse (cs : List Char) : Option Json :=
  match readValue (cs.length + 1) cs with
  | some (j, r) => if skip r = [] then some j else none
  | none => none

/-! ### Reading back strings -/

theorem toNat_lt (c : Char) : c.toNat < 0x110000 := by
  have h := c.valid
  unfold UInt32.isValidChar Nat.isValidChar at h
  change c.val.toNat < _
  omega

theorem not_surrogate (c : Char) : c.toNat < 0xD800 ∨ 0xE000 ≤ c.toNat := by
  have h := c.valid
  unfold UInt32.isValidChar Nat.isValidChar at h
  change c.val.toNat < _ ∨ _ ≤ c.val.toNat
  omega

theorem hexValue_hexDigit : ∀ n < 16, hexValue (hexDigit n) = some n := by decide

theorem readHex4_hexDigits {n : Nat} (h : n < 65536) :
    readHex4 (hexDigit (n / 4096 % 16)) (hexDigit (n / 256 % 16)) (hexDigit (n / 16 % 16))
      (hexDigit (n % 16)) = some n := by
  have hm : ∀ k, k % 16 < 16 := fun k => Nat.mod_lt _ (by decide)
  simp only [readHex4, hexValue_hexDigit _ (hm _), Option.bind_eq_bind, Option.bind_some]
  congr 1
  omega

theorem readUnits_unicodeEscape {n : Nat} (h : n < 65536) (r : List Char) :
    readUnits (unicodeEscape n ++ r) = (readUnits r).map fun p => (n :: p.1, p.2) := by
  simp only [unicodeEscape, hex4, List.cons_append, List.nil_append, readUnits, readHex4_hexDigits h,
    Option.bind_eq_bind, Option.bind_some]
  cases readUnits r <;> rfl

theorem units_lt (c : Char) : ∀ n ∈ units c, n < 65536 := by
  intro n hn
  have := toNat_lt c
  unfold units at hn
  split at hn
  · simp only [List.mem_singleton] at hn; omega
  · simp only [List.mem_cons, List.not_mem_nil, or_false] at hn; omega

theorem readUnits_unicodeEscapes (us : List Nat) (h : ∀ n ∈ us, n < 65536) (r : List Char) :
    readUnits (us.flatMap unicodeEscape ++ r) = (readUnits r).map fun p => (us ++ p.1, p.2) := by
  induction us with
  | nil => simp
  | cons n us ih =>
    rw [List.flatMap_cons, List.append_assoc, readUnits_unicodeEscape (h n (by simp)),
      ih fun m hm => h m (by simp [hm])]
    cases readUnits r <;> rfl

theorem unescape_shortEscape {c e : Char} (h : shortEscape c = some e) :
    unescape e = some c.toNat ∧ e ≠ 'u' := by
  unfold shortEscape at h
  split_ifs at h with h1 h2 h3 h4 h5 h6 h7 <;> cases h
  · subst h1; decide
  · subst h2; decide
  · subst h3; decide
  · subst h4; decide
  · subst h5; decide
  · rw [h6]; decide
  · rw [h7]; decide

theorem readUnits_short {e : Char} {n : Nat} (hu : e ≠ 'u') (h : unescape e = some n) (r : List Char) :
    readUnits ('\\' :: e :: r) = (readUnits r).map fun p => (n :: p.1, p.2) := by
  rw [readUnits]
  · simp only [h, Option.bind_eq_bind, Option.bind_some]
    cases readUnits r <;> rfl
  · intro a b c d rest he
    exact absurd he hu

theorem readUnits_plain {c : Char} (hq : c ≠ '"') (hb : c ≠ '\\') (hc : 32 ≤ c.toNat) (r : List Char) :
    readUnits (c :: r) = (readUnits r).map fun p => (c.toNat :: p.1, p.2) := by
  rw [readUnits]
  · rw [if_neg (by rintro (h | h); exacts [hb h, by omega])]
    cases readUnits r <;> rfl
  · exact hq
  · intro a b c' d rest h
    exact absurd h hb
  · intro e rest h
    exact absurd h hb

/-- What is read back for one character: its code point, or its code units when it was escaped by
number. -/
def written (asciiOnly : Bool) (c : Char) : List Nat :=
  match shortEscape c with
  | some _ => [c.toNat]
  | none => if c.toNat < 32 ∨ asciiOnly = true ∧ 126 < c.toNat then units c else [c.toNat]

theorem ne_of_shortEscape_none {c : Char} (h : shortEscape c = none) : c ≠ '"' ∧ c ≠ '\\' := by
  constructor <;> rintro rfl <;> revert h <;> decide

theorem readUnits_escapeChar (asciiOnly : Bool) (c : Char) (r : List Char) :
    readUnits (escapeChar asciiOnly c ++ r) =
      (readUnits r).map fun p => (written asciiOnly c ++ p.1, p.2) := by
  unfold escapeChar written
  cases hs : shortEscape c with
  | some e =>
    obtain ⟨he, hu⟩ := unescape_shortEscape hs
    simpa using readUnits_short hu he r
  | none =>
    dsimp only
    split_ifs with hc
    · exact readUnits_unicodeEscapes _ (units_lt c) r
    · obtain ⟨hq, hb⟩ := ne_of_shortEscape_none hs
      simpa using readUnits_plain hq hb (by omega) r

theorem joinUnits_point (c : Char) (us : List Nat) :
    joinUnits (c.toNat :: us) = (joinUnits us).map (c :: ·) := by
  have hc : ¬ (0xD800 ≤ c.toNat ∧ c.toNat < 0xE000) := by have := not_surrogate c; omega
  cases us with
  | nil => simp only [joinUnits, if_neg hc, Char.ofNat_toNat]; rfl
  | cons m us =>
    rw [joinUnits, if_neg (by omega), if_neg (by omega), Char.ofNat_toNat]

theorem joinUnits_units (c : Char) (us : List Nat) :
    joinUnits (units c ++ us) = (joinUnits us).map (c :: ·) := by
  unfold units
  split_ifs with h
  · exact joinUnits_point c us
  · have hlt := toNat_lt c
    have hjoin : 0x10000 + (0xD800 + (c.toNat - 0x10000) / 0x400 - 0xD800) * 0x400 +
        (0xDC00 + (c.toNat - 0x10000) % 0x400 - 0xDC00) = c.toNat := by omega
    simp only [List.cons_append, List.nil_append]
    rw [joinUnits, if_pos (by omega), if_pos (by omega), hjoin, Char.ofNat_toNat]

theorem joinUnits_written (asciiOnly : Bool) (c : Char) (us : List Nat) :
    joinUnits (written asciiOnly c ++ us) = (joinUnits us).map (c :: ·) := by
  unfold written
  split
  · exact joinUnits_point c us
  · split_ifs
    · exact joinUnits_units c us
    · exact joinUnits_point c us

theorem readUnits_quote (asciiOnly : Bool) (s r : List Char) :
    readUnits (s.flatMap (escapeChar asciiOnly) ++ '"' :: r) =
      some (s.flatMap (written asciiOnly), r) := by
  induction s with
  | nil => simp [readUnits]
  | cons c s ih =>
    rw [List.flatMap_cons, List.append_assoc, readUnits_escapeChar, ih]
    rfl

theorem joinUnits_flatMap (asciiOnly : Bool) (s : List Char) :
    joinUnits (s.flatMap (written asciiOnly)) = some s := by
  induction s with
  | nil => rfl
  | cons c s ih => rw [List.flatMap_cons, joinUnits_written, ih]; rfl

theorem readString_quote (asciiOnly : Bool) (s r : List Char) :
    readString (s.flatMap (escapeChar asciiOnly) ++ '"' :: r) = some (s, r) := by
  simp only [readString, readUnits_quote, joinUnits_flatMap, Option.bind_eq_bind, Option.bind_some]

/-! ### Reading back numbers -/

theorem isDigit_hexDigit : ∀ n < 10, IsDigit (hexDigit n) ∧ (hexDigit n).toNat - 48 = n := by decide

theorem digitsRev_lt (k n : Nat) : ∀ d ∈ digitsRev k n, d < 10 := by
  induction k generalizing n with
  | zero => simp [digitsRev]
  | succ k ih =>
    intro d hd
    unfold digitsRev at hd
    split_ifs at hd with h
    · simp only [List.mem_singleton] at hd; omega
    · rcases List.mem_cons.1 hd with rfl | hd
      · exact Nat.mod_lt _ (by decide)
      · exact ih _ d hd

theorem digitsRev_value (k n : Nat) (h : n < k) :
    (digitsRev k n).foldr (fun d m => m * 10 + d) 0 = n := by
  induction k generalizing n with
  | zero => omega
  | succ k ih =>
    unfold digitsRev
    split_ifs with hn
    · simp
    · rw [List.foldr_cons, ih (n / 10) (by omega)]
      omega

theorem digitsRev_ne_nil (k n : Nat) : digitsRev (k + 1) n ≠ [] := by
  unfold digitsRev; split <;> simp

theorem isDigit_of_mem_decimal {n : Nat} : ∀ c ∈ decimal n, IsDigit c := by
  intro c hc
  simp only [decimal, List.mem_reverse, List.mem_map] at hc
  obtain ⟨d, hd, rfl⟩ := hc
  exact (isDigit_hexDigit d (digitsRev_lt _ _ d hd)).1

theorem digitsValue_decimal (n : Nat) : digitsValue (decimal n) = n := by
  have hfold : ∀ ds : List Nat, (∀ d ∈ ds, d < 10) →
      (ds.map hexDigit).foldr (fun d m => m * 10 + (d.toNat - 48)) 0 = ds.foldr (fun d m => m * 10 + d) 0 := by
    intro ds hds
    induction ds with
    | nil => rfl
    | cons d ds ih =>
      simp only [List.map_cons, List.foldr_cons]
      rw [ih fun e he => hds e (by simp [he]), (isDigit_hexDigit d (hds d (by simp))).2]
  unfold digitsValue decimal
  rw [List.foldl_reverse, hfold _ (digitsRev_lt _ _), digitsRev_value _ _ (Nat.lt_succ_self n)]

theorem decimal_ne_nil (n : Nat) : decimal n ≠ [] := by
  simpa [decimal] using digitsRev_ne_nil n n

/-- `r` cannot continue a number. -/
def Stops (r : List Char) : Prop := ∀ c ∈ r.head?, ¬ IsDigit c

theorem takeWhile_digits {ds r : List Char} (hd : ∀ c ∈ ds, IsDigit c) (hr : Stops r) :
    (ds ++ r).takeWhile (IsDigit ·) = ds ∧ (ds ++ r).dropWhile (IsDigit ·) = r := by
  induction ds with
  | nil =>
    cases r with
    | nil => exact ⟨rfl, rfl⟩
    | cons c r =>
      have : ¬ IsDigit c := hr c rfl
      simp [this]
  | cons d ds ih =>
    obtain ⟨h1, h2⟩ := ih fun c hc => hd c (by simp [hc])
    have : IsDigit d := hd d (by simp)
    simp only [List.cons_append, List.takeWhile_cons, List.dropWhile_cons, this, decide_true, if_true, h1, h2,
      and_self]

theorem readNat_decimal (n : Nat) {r : List Char} (hr : Stops r) :
    readNat (decimal n ++ r) = some (n, r) := by
  obtain ⟨h1, h2⟩ := takeWhile_digits (isDigit_of_mem_decimal (n := n)) hr
  have hv := digitsValue_decimal n
  unfold readNat
  rw [h1, h2]
  cases hd : decimal n with
  | nil => exact absurd hd (decimal_ne_nil n)
  | cons d ds =>
    rw [hd] at hv
    exact congrArg (fun m => some (m, r)) hv

/-! ### Reading back values -/

theorem skip_cons {c : Char} (h : ¬ IsBlank c) (cs : List Char) : skip (c :: cs) = c :: cs := by
  simp [skip, h]

theorem skip_replicate (k : Nat) (cs : List Char) : skip (List.replicate k ' ' ++ cs) = skip cs := by
  induction k with
  | zero => rfl
  | succ k ih =>
    have hb : IsBlank ' ' := by decide
    rw [List.replicate_succ, List.cons_append, skip, List.dropWhile_cons_of_pos (by simpa using hb)]
    exact ih

/-- The first character of a written value. -/
def Begins (c : Char) : Prop := ¬ IsBlank c ∧ c ≠ ']' ∧ c ≠ '}'

theorem begins_of_isDigit {c : Char} (h : IsDigit c) : Begins c := by
  refine ⟨?_, ?_, ?_⟩ <;> intro hc
  · rcases hc with rfl | rfl | rfl | rfl <;> revert h <;> decide
  · subst hc; revert h; decide
  · subst hc; revert h; decide

theorem decimal_cons (n : Nat) : ∃ d ds, decimal n = d :: ds ∧ IsDigit d := by
  cases hd : decimal n with
  | nil => exact absurd hd (decimal_ne_nil n)
  | cons d ds => exact ⟨d, ds, rfl, isDigit_of_mem_decimal d (by rw [hd]; exact List.mem_cons_self)⟩

theorem integer_cons (i : Int) : ∃ c cs, integer i = c :: cs ∧ Begins c := by
  cases i with
  | ofNat n =>
    obtain ⟨d, ds, h, hd⟩ := decimal_cons n
    exact ⟨d, ds, h, begins_of_isDigit hd⟩
  | negSucc n => exact ⟨'-', decimal (n + 1), rfl, by decide, by decide, by decide⟩

theorem dumps_cons (st : Style) (j : Json) : ∃ c cs, dumps st j = c :: cs ∧ Begins c := by
  cases j with
  | null => exact ⟨_, _, by rw [dumps], by decide, by decide, by decide⟩
  | bool b => cases b <;> exact ⟨_, _, by rw [dumps], by decide, by decide, by decide⟩
  | num i => rw [dumps]; exact integer_cons i
  | str s => exact ⟨_, _, by rw [dumps]; rfl, by decide, by decide, by decide⟩
  | arr xs => cases xs <;> exact ⟨_, _, by rw [dumps], by decide, by decide, by decide⟩
  | obj kvs =>
    rcases kvs with _ | ⟨⟨k, v⟩, kvs⟩ <;> exact ⟨_, _, by rw [dumps], by decide, by decide, by decide⟩

theorem dumps_length_pos (st : Style) (j : Json) : 0 < (dumps st j).length := by
  obtain ⟨c, cs, h, -⟩ := dumps_cons st j
  rw [h]
  exact Nat.succ_pos _

theorem stops_cons {c : Char} (h : ¬ IsDigit c) (r : List Char) : Stops (c :: r) := by
  intro c' hc
  cases hc
  exact h

theorem stops_items (st : Style) (xs : List Json) (r : List Char) : Stops (dumpsItems st xs ++ r) := by
  cases xs <;> rw [dumpsItems] <;> exact stops_cons (by decide) _

theorem stops_members (st : Style) (kvs : List (List Char × Json)) (r : List Char) :
    Stops (dumpsMembers st kvs ++ r) := by
  rcases kvs with _ | ⟨⟨k, v⟩, kvs⟩ <;> rw [dumpsMembers] <;> exact stops_cons (by decide) _

theorem readKey_quote (st : Style) (k r : List Char) :
    readKey (quote st.asciiOnly k ++ (colon st ++ r)) = some (k, List.replicate st.blanks ' ' ++ r) := by
  have hs := readString_quote st.asciiOnly k (colon st ++ r)
  have hq : quote st.asciiOnly k ++ (colon st ++ r) =
      '"' :: (k.flatMap (escapeChar st.asciiOnly) ++ '"' :: (colon st ++ r)) := by
    simp [quote]
  unfold readKey
  rw [hq, skip_cons (by decide)]
  simp only [hs, Option.bind_eq_bind, Option.bind_some]
  rw [colon, List.cons_append, skip_cons (by decide)]
  rfl

theorem readKey_blanks (k : Nat) (cs : List Char) : readKey (List.replicate k ' ' ++ cs) = readKey cs := by
  unfold readKey
  rw [skip_replicate]

theorem readValue_blanks (n k : Nat) (cs : List Char) :
    readValue n (List.replicate k ' ' ++ cs) = readValue n cs := by
  cases n with
  | zero => rfl
  | succ n => rw [readValue, readValue, skip_replicate]

theorem readValue_digit {n : Nat} {d : Char} (hd : IsDigit d) (cs : List Char) :
    readValue (n + 1) (d :: cs) = (readNat (d :: cs)).map fun p => (.num p.1, p.2) := by
  rw [readValue, skip_cons (begins_of_isDigit hd).1]
  split <;> rename_i heq <;> first | (cases heq; exact absurd hd (by decide)) | rfl

theorem readValue_integer (n : Nat) (i : Int) {r : List Char} (hr : Stops r) :
    readValue (n + 1) (integer i ++ r) = some (.num i, r) := by
  cases i with
  | ofNat m =>
    obtain ⟨d, ds, h, hd⟩ := decimal_cons m
    have hm := readNat_decimal m hr
    rw [integer, h, List.cons_append, readValue_digit hd, ← List.cons_append, ← h, hm]
    rfl
  | negSucc m =>
    have hm := readNat_decimal (m + 1) hr
    rw [integer, List.cons_append, readValue, skip_cons (by decide)]
    simp only [hm, Option.map_some]
    rfl

mutual

/-- Reading takes back exactly what writing put in front. -/
theorem readValue_dumps (st : Style) (j : Json) (n : Nat) (hn : (dumps st j).length ≤ n) {r : List Char}
    (hr : Stops r) : readValue n (dumps st j ++ r) = some (j, r) := by
  obtain ⟨n, rfl⟩ : ∃ m, n = m + 1 := ⟨n - 1, by have := dumps_length_pos st j; omega⟩
  match j with
  | .null => rw [dumps, readValue]; rfl
  | .bool true => rw [dumps, readValue]; rfl
  | .bool false => rw [dumps, readValue]; rfl
  | .num i => rw [dumps]; exact readValue_integer n i hr
  | .str s =>
    rw [dumps, quote, readValue, List.cons_append, skip_cons (by decide)]
    have hs := readString_quote st.asciiOnly s r
    simp only [List.append_assoc, List.cons_append, List.nil_append, hs, Option.map_some]
  | .arr [] => rw [dumps, readValue]; rfl
  | .arr (x :: xs) =>
    rw [dumps] at hn ⊢
    simp only [List.length_cons, List.length_append] at hn
    have hx := readValue_dumps st x n (by omega) (stops_items st xs r)
    have hxs := readItems_dumps st xs n (by omega) r
    rw [List.cons_append, List.append_assoc, readValue, skip_cons (by decide)]
    obtain ⟨c, cs, hc, hb, hbr, -⟩ := dumps_cons st x
    rw [hc] at hx ⊢
    simp only [List.cons_append, skip_cons hb] at hx ⊢
    split
    · rename_i heq; cases heq; exact absurd rfl hbr
    · simp only [hx, hxs, Option.bind_eq_bind, Option.bind_some]
  | .obj [] => rw [dumps, readValue]; rfl
  | .obj ((k, v) :: kvs) =>
    rw [dumps] at hn ⊢
    simp only [List.length_cons, List.length_append] at hn
    have hv := readValue_dumps st v n (by omega) (stops_members st kvs r)
    have hvs := readMembers_dumps st kvs n (by omega) r
    have hk := readKey_quote st k (dumps st v ++ (dumpsMembers st kvs ++ r))
    simp only [List.cons_append, List.append_assoc, quote] at hk ⊢
    rw [readValue, skip_cons (by decide)]
    simp only [skip_cons (c := '"') (by decide)]
    split
    · rename_i heq; exact absurd (List.cons.inj heq).1 (by decide)
    · simp only [hk, readValue_blanks, hv, hvs, Option.bind_eq_bind, Option.bind_some]

theorem readItems_dumps (st : Style) (xs : List Json) (n : Nat) (hn : (dumpsItems st xs).length ≤ n)
    (r : List Char) : readItems n (dumpsItems st xs ++ r) = some (xs, r) := by
  match xs, n with
  | [], 0 => rw [dumpsItems] at hn; exact absurd hn (by decide)
  | [], n + 1 => rw [dumpsItems, readItems]; rfl
  | x :: xs, 0 => rw [dumpsItems] at hn; simp [comma] at hn
  | x :: xs, n + 1 =>
    rw [dumpsItems] at hn ⊢
    simp only [comma, List.cons_append, List.length_cons, List.length_append] at hn
    have hx := readValue_dumps st x n (by omega) (stops_items st xs r)
    have hxs := readItems_dumps st xs n (by omega) r
    rw [comma, List.cons_append, List.cons_append, readItems, skip_cons (by decide)]
    simp only [List.append_assoc, readValue_blanks, hx, hxs, Option.bind_eq_bind, Option.bind_some]

theorem readMembers_dumps (st : Style) (kvs : List (List Char × Json)) (n : Nat)
    (hn : (dumpsMembers st kvs).length ≤ n) (r : List Char) :
    readMembers n (dumpsMembers st kvs ++ r) = some (kvs, r) := by
  match kvs, n with
  | [], 0 => rw [dumpsMembers] at hn; exact absurd hn (by decide)
  | [], n + 1 => rw [dumpsMembers, readMembers]; rfl
  | (k, v) :: kvs, 0 => rw [dumpsMembers] at hn; simp [comma] at hn
  | (k, v) :: kvs, n + 1 =>
    rw [dumpsMembers] at hn ⊢
    simp only [comma, List.cons_append, List.length_cons, List.length_append] at hn
    have hv := readValue_dumps st v n (by omega) (stops_members st kvs r)
    have hvs := readMembers_dumps st kvs n (by omega) r
    have hk := readKey_quote st k (dumps st v ++ (dumpsMembers st kvs ++ r))
    rw [comma, List.cons_append, List.cons_append, readMembers, skip_cons (by decide)]
    simp only [List.append_assoc, readKey_blanks, hk, readValue_blanks, hv, hvs, Option.bind_eq_bind,
      Option.bind_some]

end

theorem parse_dumps (st : Style) (j : Json) : parse (dumps st j) = some j := by
  have h := readValue_dumps st j ((dumps st j).length + 1) (by omega) (r := []) (by intro c hc; cases hc)
  rw [List.append_nil] at h
  simp only [parse, h]
  rfl

/-- Writing is injective in every style. -/
theorem dumps_injective (st : Style) : Function.Injective (dumps st) := fun j j' h =>
  Option.some.inj (by rw [← parse_dumps st j, h, parse_dumps])

/-! ### What is written -/

theorem isDigit_plain {c : Char} (h : IsDigit c) : 32 ≤ c.toNat := by
  have := h.1
  omega

theorem plain_integer (i : Int) : ∀ c ∈ integer i, 32 ≤ c.toNat := by
  intro c hc
  cases i with
  | ofNat n => exact isDigit_plain (isDigit_of_mem_decimal c hc)
  | negSucc n =>
    rcases List.mem_cons.1 hc with rfl | hc
    · decide
    · exact isDigit_plain (isDigit_of_mem_decimal c hc)

theorem plain_hexDigit : ∀ n < 16, 32 ≤ (hexDigit n).toNat ∧ (hexDigit n).toNat < 128 := by decide

/-- A character between blank and delete. -/
def Ascii (c : Char) : Prop := 32 ≤ c.toNat ∧ c.toNat < 128

theorem ascii_unicodeEscape (n : Nat) : ∀ c ∈ unicodeEscape n, Ascii c := by
  have hm : ∀ k, k % 16 < 16 := fun k => Nat.mod_lt _ (by omega)
  intro c hc
  simp only [unicodeEscape, hex4, List.mem_cons, List.not_mem_nil, or_false] at hc
  rcases hc with rfl | rfl | rfl | rfl | rfl | rfl
  · exact ⟨by decide, by decide⟩
  · exact ⟨by decide, by decide⟩
  all_goals exact plain_hexDigit _ (hm _)

theorem ascii_shortEscape {c e : Char} (h : shortEscape c = some e) : Ascii e := by
  unfold shortEscape at h
  split_ifs at h <;> cases h <;> exact ⟨by decide, by decide⟩

theorem escapeChar_cases (asciiOnly : Bool) (c : Char) :
    (∀ d ∈ escapeChar asciiOnly c, Ascii d) ∨ escapeChar asciiOnly c = [c] ∧ 32 ≤ c.toNat := by
  unfold escapeChar
  cases hs : shortEscape c with
  | some e =>
    left
    intro d hd
    simp only [List.mem_cons, List.not_mem_nil, or_false] at hd
    rcases hd with rfl | rfl
    · exact ⟨by decide, by decide⟩
    · exact ascii_shortEscape hs
  | none =>
    dsimp only
    split_ifs with hc
    · left
      intro d hd
      obtain ⟨n, -, hd⟩ := List.mem_flatMap.1 hd
      exact ascii_unicodeEscape n d hd
    · exact .inr ⟨rfl, by omega⟩

theorem plain_quote (asciiOnly : Bool) (s : List Char) : ∀ c ∈ quote asciiOnly s, 32 ≤ c.toNat := by
  intro c hc
  simp only [quote, List.mem_cons, List.mem_append, List.mem_flatMap, List.not_mem_nil, or_false] at hc
  rcases hc with rfl | ⟨d, -, hc⟩ | rfl
  · decide
  · rcases escapeChar_cases asciiOnly d with h | ⟨h, hd⟩
    · exact (h c hc).1
    · rw [h, List.mem_singleton] at hc
      exact hc ▸ hd
  · decide

theorem plain_blanks (st : Style) (d : Char) (hd : 32 ≤ d.toNat) :
    ∀ c ∈ d :: List.replicate st.blanks ' ', 32 ≤ c.toNat := by
  intro c hc
  rcases List.mem_cons.1 hc with rfl | hc
  · exact hd
  · rw [List.eq_of_mem_replicate hc]
    decide

mutual

/-- What is written has no control characters. -/
theorem plain_dumps (st : Style) (j : Json) : ∀ c ∈ dumps st j, 32 ≤ c.toNat := by
  match j with
  | .null => simp [dumps]
  | .bool true => simp [dumps]
  | .bool false => simp [dumps]
  | .num i => rw [dumps]; exact plain_integer i
  | .str s => rw [dumps]; exact plain_quote _ s
  | .arr [] => simp [dumps]
  | .arr (x :: xs) =>
    rw [dumps, List.forall_mem_cons, List.forall_mem_append]
    exact ⟨by decide, plain_dumps st x, plain_items st xs⟩
  | .obj [] => simp [dumps]
  | .obj ((k, v) :: kvs) =>
    simp only [dumps, List.forall_mem_cons, List.forall_mem_append]
    exact ⟨by decide, plain_quote _ k, plain_blanks st ':' (by decide), plain_dumps st v, plain_members st kvs⟩

theorem plain_items (st : Style) (xs : List Json) : ∀ c ∈ dumpsItems st xs, 32 ≤ c.toNat := by
  match xs with
  | [] => simp [dumpsItems]
  | x :: xs =>
    simp only [dumpsItems, List.forall_mem_append]
    exact ⟨plain_blanks st ',' (by decide), plain_dumps st x, plain_items st xs⟩

theorem plain_members (st : Style) (kvs : List (List Char × Json)) : ∀ c ∈ dumpsMembers st kvs, 32 ≤ c.toNat := by
  match kvs with
  | [] => simp [dumpsMembers]
  | (k, v) :: kvs =>
    simp only [dumpsMembers, List.forall_mem_append]
    exact ⟨plain_blanks st ',' (by decide), plain_quote _ k, plain_blanks st ':' (by decide), plain_dumps st v,
      plain_members st kvs⟩

end

theorem length_decimal_le (n : Nat) : (decimal n).length ≤ n + 1 := by
  have hlen : ∀ k m, (digitsRev k m).length ≤ k := by
    intro k
    induction k with
    | zero => intro m; simp [digitsRev]
    | succ k ih =>
      intro m
      unfold digitsRev
      split
      · simp
      · simpa using ih (m / 10)
  simpa [decimal] using hlen (n + 1) n

@[simp] theorem length_hexPad (k n : Nat) : (hexPad k n).length = k := by
  induction k generalizing n with
  | zero => rfl
  | succ k ih => simp [hexPad, ih]

theorem length_uuidText (n : Nat) : (uuidText n).length = 36 := by simp [uuidText]

end Json
end RepoPilot
