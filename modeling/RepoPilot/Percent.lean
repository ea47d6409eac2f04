import Mathlib

/-! # Percent encoding

Bytes are written as characters: a safe byte as itself, every other one as `%` and two hexadecimal digits. What was
written is read back, whatever the safe bytes are, as long as they are ASCII and none of them is `%`. -/

namespace RepoPilot
namespace Percent

def digit (n : Nat) : Char := if n < 10 then Char.ofNat (48 + n) else Char.ofNat (55 + n)

/-- The value of a hexadecimal digit in either letter case. -/
def value (c : Char) : Option Nat :=
  if 48 ≤ c.toNat ∧ c.toNat ≤ 57 then some (c.toNat - 48)
  else if 65 ≤ c.toNat ∧ c.toNat ≤ 70 then some (c.toNat - 55)
  else if 97 ≤ c.toNat ∧ c.toNat ≤ 102 then some (c.toNat - 87)
  else none

def unquote : List Char → List UInt8
  | [] => []
  | '%' :: a :: b :: rest =>
    match value a, value b with
    | some x, some y => UInt8.ofNat (16 * x + y) :: unquote rest
    | _, _ => 37 :: unquote (a :: b :: rest)
  | c :: rest => String.utf8EncodeChar c ++ unquote rest

variable (safe : UInt8 → Prop) [DecidablePred safe]

def quoteByte (b : UInt8) : List Char :=
  if safe b then [Char.ofNat b.toNat] else ['%', digit (b.toNat / 16), digit (b.toNat % 16)]

def quote (bytes : List UInt8) : List Char := bytes.flatMap (quoteByte safe)

/-- The safe bytes are ASCII and none of them is `%`. -/
def Proper : Prop := ∀ b, safe b → b.toNat < 128 ∧ b.toNat ≠ 37

variable {safe}

theorem value_digit : ∀ n < 16, value (digit n) = some n := by decide

theorem digit_alphanum : ∀ n < 16, (digit n).isAlphanum = true := by decide

theorem utf8EncodeChar_ascii : ∀ n < 128, String.utf8EncodeChar (Char.ofNat n) = [UInt8.ofNat n] := by decide

theorem ofNat_ne_percent : ∀ n < 128, n ≠ 37 → Char.ofNat n ≠ '%' := by decide

theorem unquote_cons {c : Char} (h : c ≠ '%') (rest : List Char) :
    unquote (c :: rest) = String.utf8EncodeChar c ++ unquote rest := by
  rw [unquote.eq_def]
  split
  · rename_i h'
    cases h'
  · rename_i h'
    cases h'
    exact absurd rfl h
  · rename_i h'
    cases h'
    rfl

theorem unquote_percent {x y : Nat} {a b : Char} (ha : value a = some x) (hb : value b = some y) (rest : List Char) :
    unquote ('%' :: a :: b :: rest) = UInt8.ofNat (16 * x + y) :: unquote rest := by
  rw [unquote, ha, hb]

theorem unquote_quoteByte (hs : Proper safe) (b : UInt8) (rest : List Char) :
    unquote (quoteByte safe b ++ rest) = b :: unquote rest := by
  have hb : b.toNat < 256 := b.toNat_lt
  unfold quoteByte
  split
  · obtain ⟨hlt, hne⟩ := hs b ‹_›
    rw [List.singleton_append, unquote_cons (ofNat_ne_percent _ hlt hne), utf8EncodeChar_ascii _ hlt]
    simp
  · show unquote ('%' :: digit (b.toNat / 16) :: digit (b.toNat % 16) :: rest) = _
    rw [unquote_percent (value_digit _ (by omega)) (value_digit _ (by omega)),
      show 16 * (b.toNat / 16) + b.toNat % 16 = b.toNat by omega, UInt8.ofNat_toNat]

/-- What was quoted is read back, with anything behind it. -/
theorem unquote_quote_append (hs : Proper safe) (bytes : List UInt8) (rest : List Char) :
    unquote (quote safe bytes ++ rest) = bytes ++ unquote rest := by
  induction bytes with
  | nil => rfl
  | cons b bytes ih =>
    show unquote (quoteByte safe b ++ quote safe bytes ++ rest) = _
    rw [List.append_assoc, unquote_quoteByte hs, ih]
    rfl

theorem unquote_quote (hs : Proper safe) (bytes : List UInt8) : unquote (quote safe bytes) = bytes := by
  have h := unquote_quote_append hs bytes []
  rwa [List.append_nil, show unquote [] = [] from rfl, List.append_nil] at h

/-- The characters of a quoted text: safe ones, `%` and hexadecimal digits. -/
theorem mem_quote {bytes : List UInt8} {c : Char} (h : c ∈ quote safe bytes) :
    (∃ b ∈ bytes, safe b ∧ c = Char.ofNat b.toNat) ∨ c = '%' ∨ c.isAlphanum = true := by
  obtain ⟨b, hb, hc⟩ := List.mem_flatMap.1 h
  have hlt : b.toNat < 256 := b.toNat_lt
  unfold quoteByte at hc
  split at hc
  · exact .inl ⟨b, hb, ‹_›, List.mem_singleton.1 hc⟩
  · right
    rcases List.mem_cons.1 hc with hc | hc
    · exact .inl hc
    right
    rcases List.mem_cons.1 hc with rfl | hc
    · exact digit_alphanum _ (by omega)
    · rw [List.mem_singleton.1 hc]
      exact digit_alphanum _ (by omega)

end Percent
end RepoPilot
