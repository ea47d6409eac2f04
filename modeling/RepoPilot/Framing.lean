import Mathlib

/-! # Framed text

UTF-8 read byte by byte, `\r\n` read as `\n`, and text cut at blank lines, each for input that arrives
in parts. What is left of a first part may be normalised again with the next one (`Cut.append`), unless a `\r`
preceded a `\r\n` in the first part. -/

namespace RepoPilot
namespace Framing

/-! ### UTF-8 -/

/-- What one more byte makes of the bytes of an unfinished character. -/
inductive Push
  | char (c : Char)
  | more
  | bad

def Continuation (b : UInt8) : Prop := 0x80 ≤ b ∧ b ≤ 0xBF

instance (b : UInt8) : Decidable (Continuation b) := inferInstanceAs (Decidable (_ ∧ _))

/-- The second byte of a character of three or four bytes: no overlong form, no surrogate, nothing beyond
the last code point. -/
def Second (lead b : UInt8) : Prop :=
  Continuation b ∧ (lead = 0xE0 → 0xA0 ≤ b) ∧ (lead = 0xED → b ≤ 0x9F) ∧ (lead = 0xF0 → 0x90 ≤ b) ∧
    (lead = 0xF4 → b ≤ 0x8F)

instance (lead b : UInt8) : Decidable (Second lead b) := inferInstanceAs (Decidable (_ ∧ _))

def sixBits (b : UInt8) : Nat := b.toNat % 64

/-- One byte of the strict incremental decoder. -/
def push : List UInt8 → UInt8 → Push
  | [], b =>
    if b < 0x80 then .char (Char.ofNat b.toNat)
    else if 0xC2 ≤ b ∧ b ≤ 0xF4 then .more
    else .bad
  | [a], b =>
    if a < 0xE0 then
      if Continuation b then .char (Char.ofNat (a.toNat % 32 * 64 + sixBits b)) else .bad
    else if Second a b then .more
    else .bad
  | [a, b], c =>
    if ¬ Continuation c then .bad
    else if a < 0xF0 then .char (Char.ofNat ((a.toNat % 16 * 64 + sixBits b) * 64 + sixBits c))
    else .more
  | a :: b :: c :: _, d =>
    if Continuation d then .char (Char.ofNat (((a.toNat % 8 * 64 + sixBits b) * 64 + sixBits c) * 64 + sixBits d))
    else .bad

/-- The characters of `bytes`, which follow the unfinished character `pending`, and the bytes of the character
that is unfinished at the end; `none` when a byte cannot follow. -/
def decode : List UInt8 → List UInt8 → List Char × Option (List UInt8)
  | pending, [] => ([], some pending)
  | pending, b :: bytes =>
    match push pending b with
    | .char c => (c :: (decode [] bytes).1, (decode [] bytes).2)
    | .more => decode (pending ++ [b]) bytes
    | .bad => ([], none)

theorem decode_append {p a b : List UInt8} {t : List Char} {q : List UInt8} (h : decode p a = (t, some q)) :
    decode p (a ++ b) = (t ++ (decode q b).1, (decode q b).2) := by
  induction a generalizing p t with
  | nil =>
    obtain ⟨rfl, hq⟩ := Prod.mk.inj h
    obtain rfl := Option.some.inj hq
    rfl
  | cons x a ih =>
    simp only [decode, List.cons_append] at h ⊢
    cases hx : push p x with
    | char c =>
      simp only [hx] at h ⊢
      obtain ⟨rfl, hq⟩ := Prod.mk.inj h
      rw [ih (Prod.ext rfl hq)]
      rfl
    | more =>
      simp only [hx] at h ⊢
      exact ih h
    | bad =>
      simp only [hx] at h
      cases h

theorem decode_append_bad {p a b : List UInt8} (h : (decode p a).2 = none) : decode p (a ++ b) = decode p a := by
  induction a generalizing p with
  | nil => cases h
  | cons x a ih =>
    simp only [decode, List.cons_append] at h ⊢
    cases hx : push p x with
    | char c =>
      simp only [hx] at h ⊢
      rw [ih h]
    | more =>
      simp only [hx] at h ⊢
      exact ih h
    | bad => rfl

/-- The bytes of a text. -/
def encode (t : List Char) : List UInt8 := t.flatMap String.utf8EncodeChar

/-- The bytes may begin a character. -/
def Lead : List UInt8 → Prop
  | [] => True
  | [a] => 0xC2 ≤ a ∧ a ≤ 0xF4
  | [a, b] => 0xE0 ≤ a ∧ a ≤ 0xF4 ∧ Second a b
  | [a, b, c] => 0xF0 ≤ a ∧ a ≤ 0xF4 ∧ Second a b ∧ Continuation c
  | _ => False

theorem lead_push {p : List UInt8} {b : UInt8} (hp : Lead p) (h : push p b = .more) : Lead (p ++ [b]) := by
  match p with
  | [] =>
    simp only [push] at h
    split at h
    · cases h
    · split at h
      · assumption
      · cases h
  | [a] =>
    simp only [push] at h
    split at h
    · split at h <;> cases h
    · split at h
      · exact ⟨UInt8.not_lt.1 ‹_›, hp.2, ‹_›⟩
      · cases h
  | [a, c] =>
    simp only [push] at h
    split at h
    · cases h
    · split at h
      · cases h
      · exact ⟨UInt8.not_lt.1 ‹_›, hp.2.1, hp.2.2, not_not.1 ‹_›⟩
  | a :: c :: d :: _ =>
    simp only [push] at h
    split at h <;> cases h

theorem val_ofNat {n : Nat} (h : n < 0xD800 ∨ 0xDFFF < n ∧ n < 0x110000) : (Char.ofNat n).val.toNat = n := by
  have hv : n.isValidChar := h
  unfold Char.ofNat
  rw [dif_pos hv]
  rfl

theorem encode_push {p : List UInt8} {b : UInt8} {c : Char} (hp : Lead p) (h : push p b = .char c) :
    String.utf8EncodeChar c = p ++ [b] := by
  have hbyte : ∀ {n : Nat} {x : UInt8}, n = x.toNat → UInt8.ofNat n = x := by
    rintro n x rfl
    exact UInt8.ofNat_toNat
  match p with
  | [] =>
    simp only [push] at h
    split at h
    · rename_i hb
      cases h
      have hb : b.toNat < 0x80 := hb
      unfold String.utf8EncodeChar
      rw [val_ofNat (by omega)]
      dsimp only
      rw [if_pos (by omega), hbyte rfl]
      rfl
    · split at h <;> cases h
  | [a] =>
    simp only [push] at h
    split at h
    · rename_i ha
      split at h
      · rename_i hb
        cases h
        have ha : a.toNat < 0xE0 := ha
        have ha' : 0xC2 ≤ a.toNat := hp.1
        have hb' : 0x80 ≤ b.toNat ∧ b.toNat ≤ 0xBF := hb
        unfold String.utf8EncodeChar sixBits
        rw [val_ofNat (by omega)]
        dsimp only
        rw [if_neg (by omega), if_pos (by omega), hbyte (x := a) (by omega), hbyte (x := b) (by omega)]
        rfl
      · cases h
    · split at h <;> cases h
  | [a, d] =>
    simp only [push] at h
    split at h
    · cases h
    · rename_i hb
      split at h
      · rename_i ha
        cases h
        have hb' : 0x80 ≤ b.toNat ∧ b.toNat ≤ 0xBF := not_not.1 hb
        have ha : a.toNat < 0xF0 := ha
        have ha' : 0xE0 ≤ a.toNat := hp.1
        have hd : 0x80 ≤ d.toNat ∧ d.toNat ≤ 0xBF := hp.2.2.1
        have hlow : a.toNat = 0xE0 → 0xA0 ≤ d.toNat := fun he => hp.2.2.2.1 (UInt8.toNat_inj.1 he)
        have hsur : a.toNat = 0xED → d.toNat ≤ 0x9F := fun he => hp.2.2.2.2.1 (UInt8.toNat_inj.1 he)
        unfold String.utf8EncodeChar sixBits
        rw [val_ofNat (by omega)]
        dsimp only
        rw [if_neg (by omega), if_neg (by omega), if_pos (by omega), hbyte (x := a) (by omega),
          hbyte (x := d) (by omega),
          hbyte (x := b) (by omega)]
        rfl
      · cases h
  | [a, d, e] =>
    simp only [push] at h
    split at h
    · rename_i hb
      cases h
      have hb' : 0x80 ≤ b.toNat ∧ b.toNat ≤ 0xBF := hb
      have ha : 0xF0 ≤ a.toNat := hp.1
      have ha' : a.toNat ≤ 0xF4 := hp.2.1
      have hd : 0x80 ≤ d.toNat ∧ d.toNat ≤ 0xBF := hp.2.2.1.1
      have he : 0x80 ≤ e.toNat ∧ e.toNat ≤ 0xBF := hp.2.2.2
      have hlow : a.toNat = 0xF0 → 0x90 ≤ d.toNat := fun hx => hp.2.2.1.2.2.2.1 (UInt8.toNat_inj.1 hx)
      have hhigh : a.toNat = 0xF4 → d.toNat ≤ 0x8F := fun hx => hp.2.2.1.2.2.2.2 (UInt8.toNat_inj.1 hx)
      unfold String.utf8EncodeChar sixBits
      rw [val_ofNat (by omega)]
      dsimp only
      rw [if_neg (by omega), if_neg (by omega), if_neg (by omega), hbyte (x := a) (by omega), hbyte (x := d) (by omega),
        hbyte (x := e) (by omega), hbyte (x := b) (by omega)]
      rfl
    · cases h

/-- What was decoded to its end is the encoding of its text. -/
theorem encode_decode {p bytes : List UInt8} {t : List Char} (hp : Lead p) (h : decode p bytes = (t, some [])) :
    encode t = p ++ bytes := by
  induction bytes generalizing p t with
  | nil =>
    obtain ⟨rfl, hq⟩ := Prod.mk.inj h
    rw [Option.some.inj hq]
    rfl
  | cons b bytes ih =>
    simp only [decode] at h
    cases hb : push p b with
    | char c =>
      simp only [hb] at h
      obtain ⟨rfl, hq⟩ := Prod.mk.inj h
      have hrest := ih (p := []) trivial (Prod.ext rfl hq)
      calc encode (c :: (decode [] bytes).1)
          = String.utf8EncodeChar c ++ encode (decode [] bytes).1 := rfl
        _ = (p ++ [b]) ++ ([] ++ bytes) := by rw [encode_push hp hb, hrest]
        _ = p ++ b :: bytes := by simp
    | more =>
      simp only [hb] at h
      rw [ih (lead_push hp hb) h, List.append_assoc]
      rfl
    | bad =>
      simp only [hb] at h
      cases h

/-- Every beginning of the text is the text of some first bytes. -/
theorem exists_decode_of_prefix {p bytes : List UInt8} {t : List Char} (ht : t ≠ []) (h : t <+: (decode p bytes).1) :
    ∃ a b, bytes = a ++ b ∧ decode p a = (t, some []) := by
  induction bytes generalizing p t with
  | nil => exact (ht (List.prefix_nil.1 h)).elim
  | cons x bytes ih =>
    simp only [decode] at h
    cases hx : push p x with
    | char c =>
      simp only [hx] at h
      cases t with
      | nil => exact (ht rfl).elim
      | cons d t =>
        obtain ⟨rfl, hpre⟩ := List.cons_prefix_cons.1 h
        by_cases hnil : t = []
        · exact ⟨[x], bytes, rfl, by simp [decode, hx, hnil]⟩
        · obtain ⟨a, b, rfl, ha⟩ := ih hnil hpre
          exact ⟨x :: a, b, rfl, by simp [decode, hx, ha]⟩
    | more =>
      simp only [hx] at h
      obtain ⟨a, b, rfl, ha⟩ := ih ht h
      exact ⟨x :: a, b, rfl, by simp [decode, hx, ha]⟩
    | bad =>
      simp only [hx] at h
      exact (ht (List.prefix_nil.1 h)).elim

/-- The text before a byte that cannot follow is the text of the bytes before it. -/
theorem exists_decode_of_bad {p bytes : List UInt8} (h : (decode p bytes).2 = none) :
    ∃ a b q, bytes = a ++ b ∧ b ≠ [] ∧ decode p a = ((decode p bytes).1, some q) := by
  induction bytes generalizing p with
  | nil => cases h
  | cons x bytes ih =>
    simp only [decode] at h ⊢
    cases hx : push p x with
    | char c =>
      simp only [hx] at h ⊢
      obtain ⟨a, b, q, rfl, hb, ha⟩ := ih h
      exact ⟨x :: a, b, q, rfl, hb, by simp [decode, hx, ha]⟩
    | more =>
      simp only [hx] at h ⊢
      obtain ⟨a, b, q, rfl, hb, ha⟩ := ih h
      exact ⟨x :: a, b, q, rfl, hb, by simp [decode, hx, ha]⟩
    | bad => exact ⟨[], x :: bytes, p, rfl, List.cons_ne_nil _ _, rfl⟩

theorem toNat_byte {n : Nat} (h : n < 256) : (UInt8.ofNat n).toNat = n := by
  simp only [UInt8.toNat_ofNat']
  omega

theorem continuation_byte {n : Nat} (h : n < 64) :
    Continuation (UInt8.ofNat (n + 128)) ∧ sixBits (UInt8.ofNat (n + 128)) = n := by
  have hn := toNat_byte (n := n + 128) (by omega)
  have hlow : 0x80 ≤ (UInt8.ofNat (n + 128)).toNat ∧ (UInt8.ofNat (n + 128)).toNat ≤ 0xBF := by omega
  refine ⟨hlow, ?_⟩
  unfold sixBits
  omega

/-- The first of several bytes. -/
theorem push_lead {a : UInt8} (h : 0xC2 ≤ a.toNat ∧ a.toNat ≤ 0xF4) : push [] a = .more := by
  have hhigh : ¬ a < 0x80 := by
    show ¬ a.toNat < 0x80
    omega
  have hlead : 0xC2 ≤ a ∧ a ≤ 0xF4 := h
  simp only [push]
  rw [if_neg hhigh, if_pos hlead]

theorem second_byte {a b : UInt8} (hb : Continuation b) (h0 : a.toNat = 0xE0 → 0xA0 ≤ b.toNat)
    (hd : a.toNat = 0xED → b.toNat ≤ 0x9F) (hf : a.toNat = 0xF0 → 0x90 ≤ b.toNat)
    (h4 : a.toNat = 0xF4 → b.toNat ≤ 0x8F) : Second a b :=
  ⟨hb, fun h => h0 (h ▸ rfl), fun h => hd (h ▸ rfl), fun h => hf (h ▸ rfl), fun h => h4 (h ▸ rfl)⟩

/-- The bytes of a character are read as that character. -/
theorem decode_char (c : Char) (bytes : List UInt8) :
    decode [] (String.utf8EncodeChar c ++ bytes) = (c :: (decode [] bytes).1, (decode [] bytes).2) := by
  have hlt : c.toNat < 0xD800 ∨ 0xDFFF < c.toNat ∧ c.toNat < 0x110000 := c.valid
  have hself : ∀ n, n = c.toNat → Char.ofNat n = c := by
    rintro n rfl
    exact Char.ofNat_toNat c
  have hv : c.val.toNat = c.toNat := rfl
  unfold String.utf8EncodeChar
  rw [hv]
  dsimp only
  generalize c.toNat = n at hlt hself
  split_ifs with h1 h2 h3
  · have hn := toNat_byte (n := n) (by omega)
    have hlow : UInt8.ofNat n < 0x80 := by
      show (UInt8.ofNat n).toNat < 0x80
      omega
    have hpush : push [] (UInt8.ofNat n) = .char c := by
      simp only [push]
      rw [if_pos hlow, hn, hself n rfl]
    simp only [List.cons_append, List.nil_append, decode, hpush]
  · have ha := toNat_byte (n := n / 64 % 32 + 192) (by omega)
    obtain ⟨hb, hb'⟩ := continuation_byte (n := n % 64) (by omega)
    generalize UInt8.ofNat (n / 64 % 32 + 192) = a at ha
    generalize UInt8.ofNat (n % 64 + 128) = b at hb hb'
    have hlow : a < 0xE0 := by
      show a.toNat < 0xE0
      omega
    have hpush : push [a] b = .char c := by
      simp only [push]
      rw [if_pos hlow, if_pos hb, hb', hself _ (by omega)]
    simp only [List.cons_append, List.nil_append, decode, push_lead (a := a) (by omega), hpush]
  · have ha := toNat_byte (n := n / 4096 % 16 + 224) (by omega)
    have hb := toNat_byte (n := n / 64 % 64 + 128) (by omega)
    obtain ⟨hb', hb''⟩ := continuation_byte (n := n / 64 % 64) (by omega)
    obtain ⟨hd, hd'⟩ := continuation_byte (n := n % 64) (by omega)
    generalize UInt8.ofNat (n / 4096 % 16 + 224) = a at ha
    generalize UInt8.ofNat (n / 64 % 64 + 128) = b at hb hb' hb''
    generalize UInt8.ofNat (n % 64 + 128) = d at hd hd'
    have hlow : ¬ a < 0xE0 := by
      show ¬ a.toNat < 0xE0
      omega
    have hlow' : a < 0xF0 := by
      show a.toNat < 0xF0
      omega
    have hsecond : Second a b := second_byte hb' (by omega) (by omega) (by omega) (by omega)
    have hmore : push [a] b = .more := by
      simp only [push]
      rw [if_neg hlow, if_pos hsecond]
    have hpush : push [a, b] d = .char c := by
      simp only [push]
      rw [if_neg (not_not_intro hd), if_pos hlow', hb'', hd', hself _ (by omega)]
    simp only [List.cons_append, List.nil_append, decode, push_lead (a := a) (by omega), hmore, hpush]
  · have ha := toNat_byte (n := n / 262144 % 8 + 240) (by omega)
    have hb := toNat_byte (n := n / 4096 % 64 + 128) (by omega)
    obtain ⟨hb', hb''⟩ := continuation_byte (n := n / 4096 % 64) (by omega)
    obtain ⟨hd, hd'⟩ := continuation_byte (n := n / 64 % 64) (by omega)
    obtain ⟨he, he'⟩ := continuation_byte (n := n % 64) (by omega)
    generalize UInt8.ofNat (n / 262144 % 8 + 240) = a at ha
    generalize UInt8.ofNat (n / 4096 % 64 + 128) = b at hb hb' hb''
    generalize UInt8.ofNat (n / 64 % 64 + 128) = d at hd hd'
    generalize UInt8.ofNat (n % 64 + 128) = e at he he'
    have hlow : ¬ a < 0xE0 := by
      show ¬ a.toNat < 0xE0
      omega
    have hlow' : ¬ a < 0xF0 := by
      show ¬ a.toNat < 0xF0
      omega
    have hsecond : Second a b := second_byte hb' (by omega) (by omega) (by omega) (by omega)
    have hmore : push [a] b = .more := by
      simp only [push]
      rw [if_neg hlow, if_pos hsecond]
    have hmore' : push [a, b] d = .more := by
      simp only [push]
      rw [if_neg (not_not_intro hd), if_neg hlow']
    have hpush : push [a, b, d] e = .char c := by
      simp only [push]
      rw [if_pos he, hb'', hd', he', hself _ (by omega)]
    simp only [List.cons_append, List.nil_append, decode, push_lead (a := a) (by omega), hmore, hmore', hpush]

/-- Reading back what was written. -/
theorem decode_encode (t : List Char) : decode [] (encode t) = (t, some []) := by
  induction t with
  | nil => rfl
  | cons c t ih =>
    show decode [] (String.utf8EncodeChar c ++ encode t) = _
    rw [decode_char, ih]

/-- The first bytes of a text are read as the beginning of the text. -/
theorem decode_front {a b : List UInt8} {t : List Char} (h : a ++ b = encode t) :
    ∃ s q, decode [] a = (s, some q) ∧ s <+: t := by
  have hwhole := decode_encode t
  rw [← h] at hwhole
  cases hq : (decode [] a).2 with
  | none =>
    rw [decode_append_bad hq] at hwhole
    rw [hwhole] at hq
    cases hq
  | some q =>
    have ha : decode [] a = ((decode [] a).1, some q) := Prod.ext rfl hq
    rw [decode_append ha] at hwhole
    exact ⟨_, q, ha, _, (Prod.mk.inj hwhole).1⟩

@[simp] theorem encode_append (s t : List Char) : encode (s ++ t) = encode s ++ encode t := List.flatMap_append

theorem utf8_length_le (c : Char) : (String.utf8EncodeChar c).length ≤ 4 := by
  unfold String.utf8EncodeChar
  dsimp only
  split_ifs <;> simp

theorem encode_length_le (t : List Char) : (encode t).length ≤ 4 * t.length := by
  induction t with
  | nil => rfl
  | cons c t ih =>
    have hc := utf8_length_le c
    show (String.utf8EncodeChar c ++ encode t).length ≤ _
    rw [List.length_append, List.length_cons]
    omega

/-! ### Line ends -/

/-- Read `\r\n` as `\n`. -/
def normalise : List Char → List Char
  | [] => []
  | '\r' :: '\n' :: cs => '\n' :: normalise cs
  | c :: cs => c :: normalise cs

/-- Some `\r` precedes a `\r\n`. -/
def Doubled (s : List Char) : Prop := ['\r', '\r', '\n'] <:+: s

instance (s : List Char) : Decidable (Doubled s) := inferInstanceAs (Decidable (_ <:+: _))

theorem normalise_cons {c : Char} {cs : List Char} (h : ¬ (c = '\r' ∧ cs.head? = some '\n')) :
    normalise (c :: cs) = c :: normalise cs := by
  rw [normalise]
  rintro cs' hc hcs
  exact h ⟨hc, by rw [hcs]; rfl⟩

theorem normalise_crlf (cs : List Char) : normalise ('\r' :: '\n' :: cs) = '\n' :: normalise cs := by
  rw [normalise]

theorem head?_normalise {s : List Char} (h : (normalise s).head? = some '\n') :
    s.head? = some '\n' ∨ ['\r', '\n'] <+: s := by
  unfold normalise at h
  split at h
  · cases h
  · exact .inr ⟨_, rfl⟩
  · exact .inl h

theorem Doubled.cons {c : Char} {s : List Char} (h : Doubled s) : Doubled (c :: s) :=
  h.trans (List.infix_cons (List.infix_refl s))

theorem normalised_cons {c : Char} {s : List Char} :
    normalise (c :: s) = c :: s ↔ ¬ (c = '\r' ∧ s.head? = some '\n') ∧ normalise s = s := by
  by_cases h : c = '\r' ∧ s.head? = some '\n'
  · obtain ⟨rfl, hhead⟩ := h
    match s, hhead with
    | d :: s, hhead =>
      obtain rfl : d = '\n' := Option.some.inj hhead
      rw [normalise_crlf]
      simp
  · rw [normalise_cons h]
    simp [h]

/-- The beginning of normalised text is normalised. -/
theorem normalised_of_append {p s : List Char} (h : normalise (p ++ s) = p ++ s) : normalise p = p := by
  induction p with
  | nil => rfl
  | cons c p ih =>
    rw [List.cons_append] at h
    obtain ⟨hc, hs⟩ := normalised_cons.1 h
    refine normalised_cons.2 ⟨?_, ih hs⟩
    rintro ⟨rfl, hhead⟩
    exact hc ⟨rfl, by rw [List.head?_append, hhead]; rfl⟩

/-- Nothing changes for text that is normalised already and does not end between `\r` and `\n`. -/
theorem normalise_append_left {p : List Char} (hp : normalise p = p) (hlast : p.getLast? ≠ some '\r') (s : List Char) :
    normalise (p ++ s) = p ++ normalise s := by
  induction p with
  | nil => rfl
  | cons c p ih =>
    obtain ⟨hc, hp⟩ := normalised_cons.1 hp
    match p, ih, hlast, hp, hc with
    | [], _, hlast, _, _ =>
      refine normalise_cons ?_
      rintro ⟨rfl, -⟩
      exact hlast rfl
    | d :: p, ih, hlast, hp, hc =>
      have hc' : ¬ (c = '\r' ∧ (d :: p ++ s).head? = some '\n') := hc
      rw [List.cons_append, normalise_cons hc', ih hp (by rwa [List.getLast?_cons_cons] at hlast)]
      rfl

theorem last_tail {c d : Char} {q : List Char} (h : (c :: q).getLast? ≠ some d) : q.getLast? ≠ some d := by
  cases q with
  | nil => simp
  | cons e q => rwa [List.getLast?_cons_cons] at h

/-- Normalising in two parts is normalising once. -/
theorem normalise_append {a b : List Char} (h : ¬ Doubled a) : normalise (normalise a ++ b) = normalise (a ++ b) := by
  fun_induction normalise a with
  | case1 => rfl
  | case2 cs ih =>
    have hrest : ¬ Doubled cs := fun hd => h hd.cons.cons
    rw [List.cons_append, normalise_cons (by simp), ih hrest, List.cons_append, List.cons_append, normalise_crlf]
  | case3 c cs hc ih =>
    have hrest : ¬ Doubled cs := fun hd => h hd.cons
    match cs with
    | [] => rfl
    | d :: cs =>
      have hnone : ¬ (c = '\r' ∧ (d :: (cs ++ b)).head? = some '\n') := by
        rintro ⟨rfl, hhead⟩
        obtain rfl : d = '\n' := Option.some.inj hhead
        exact hc cs rfl rfl
      have hnone' : ¬ (c = '\r' ∧ (normalise (d :: cs) ++ b).head? = some '\n') := by
        rintro ⟨rfl, hhead⟩
        have hne : normalise (d :: cs) ≠ [] := by
          unfold normalise
          split <;> simp_all
        rw [List.head?_append_of_ne_nil _ hne] at hhead
        rcases head?_normalise hhead with hd | ⟨t, ht⟩
        · exact hnone ⟨rfl, hd⟩
        · refine h ⟨[], t, ?_⟩
          rw [← ht]
          simp
      rw [List.cons_append, normalise_cons hnone', ih hrest]
      exact (normalise_cons hnone).symm

theorem normalise_idem {a : List Char} (h : ¬ Doubled a) : normalise (normalise a) = normalise a := by
  have := normalise_append (b := []) h
  rwa [List.append_nil, List.append_nil] at this

/-- More text changes at most a `\r` at the end of what was normalised. -/
theorem normalise_front {a q r : List Char} (h : normalise a = q ++ r) (hlast : q.getLast? ≠ some '\r')
    (b : List Char) : ∃ x, normalise (a ++ b) = q ++ x := by
  fun_induction normalise a generalizing q with
  | case1 =>
    obtain ⟨rfl, -⟩ := List.append_eq_nil_iff.1 h.symm
    exact ⟨_, rfl⟩
  | case2 cs ih =>
    match q, h, hlast with
    | [], _, _ => exact ⟨_, rfl⟩
    | c :: q, h, hlast =>
      obtain ⟨rfl, hrest⟩ := List.cons.inj h
      obtain ⟨x, hx⟩ := ih hrest (last_tail hlast)
      exact ⟨x, by rw [List.cons_append, List.cons_append, normalise_crlf, hx, List.cons_append]⟩
  | case3 c cs hc ih =>
    match q, h, hlast with
    | [], _, _ => exact ⟨_, rfl⟩
    | d :: q, h, hlast =>
      obtain ⟨rfl, hrest⟩ := List.cons.inj h
      obtain ⟨x, hx⟩ := ih hrest (last_tail hlast)
      refine ⟨x, ?_⟩
      rw [List.cons_append, normalise_cons, hx, List.cons_append]
      rintro ⟨rfl, hhead⟩
      match cs with
      | [] =>
        obtain ⟨rfl, -⟩ := List.append_eq_nil_iff.1 hrest.symm
        exact hlast rfl
      | e :: cs =>
        obtain rfl : e = '\n' := Option.some.inj hhead
        exact hc cs rfl rfl

theorem normalise_eq {s : List Char} (h : '\r' ∉ s) : normalise s = s := by
  induction s with
  | nil => rfl
  | cons c s ih =>
    obtain ⟨hc, hs⟩ := not_or.1 (mt List.mem_cons.2 h)
    rw [normalise_cons fun hr => hc hr.1.symm, ih hs]

theorem not_doubled {s : List Char} (h : '\r' ∉ s) : ¬ Doubled s := fun hd => h (hd.subset (by simp))

/-! ### Blank lines -/

/-- The text before the first blank line and the text after it. -/
def splitBlank : List Char → Option (List Char × List Char)
  | [] => none
  | '\n' :: '\n' :: cs => some ([], cs)
  | c :: cs => (splitBlank cs).map fun p => (c :: p.1, p.2)

theorem splitBlank_cons {c : Char} {cs : List Char} (h : ¬ (c = '\n' ∧ cs.head? = some '\n')) :
    splitBlank (c :: cs) = (splitBlank cs).map fun p => (c :: p.1, p.2) := by
  rw [splitBlank]
  rintro cs' hc hcs
  exact h ⟨hc, by rw [hcs]; rfl⟩

/-- What comes after the blank line plays no part in where it is. -/
theorem splitBlank_some {s p r : List Char} (h : splitBlank s = some (p, r)) :
    s = p ++ '\n' :: '\n' :: r ∧ ∀ x, splitBlank (p ++ '\n' :: '\n' :: x) = some (p, x) := by
  fun_induction splitBlank s generalizing p with
  | case1 => cases h
  | case2 cs =>
    obtain ⟨rfl, rfl⟩ := Prod.mk.inj (Option.some.inj h)
    exact ⟨rfl, fun x => by simp [splitBlank]⟩
  | case3 c cs hc ih =>
    obtain ⟨⟨p', r'⟩, hp, he⟩ := Option.map_eq_some_iff.1 h
    obtain ⟨rfl, rfl⟩ := Prod.mk.inj he
    obtain ⟨rfl, hx⟩ := ih hp
    refine ⟨rfl, fun x => ?_⟩
    rw [List.cons_append, splitBlank_cons, hx]
    · rfl
    · rintro ⟨rfl, hhead⟩
      cases p' with
      | nil => exact hc _ rfl rfl
      | cons d p' =>
        obtain rfl : d = '\n' := Option.some.inj hhead
        exact hc _ rfl rfl

theorem splitBlank_append {l : List Char} (h : '\n' ∉ l) (s : List Char) :
    splitBlank (l ++ s) = (splitBlank s).map fun p => (l ++ p.1, p.2) := by
  induction l with
  | nil => simp
  | cons c l ih =>
    obtain ⟨hc, hl⟩ := not_or.1 (mt List.mem_cons.2 h)
    rw [List.cons_append, splitBlank_cons fun hn => hc hn.1.symm, ih hl, Option.map_map]
    rfl

/-- Lines that are not empty have no blank line between them. -/
theorem splitBlank_lines {l : List Char} {ls : List (List Char)} (h : ∀ m ∈ l :: ls, m ≠ [] ∧ '\n' ∉ m)
    (s : List Char) :
    splitBlank (['\n'].intercalate (l :: ls) ++ '\n' :: '\n' :: s) = some (['\n'].intercalate (l :: ls), s) := by
  induction ls generalizing l with
  | nil =>
    rw [List.intercalate_singleton, splitBlank_append (h l List.mem_cons_self).2]
    simp [splitBlank]
  | cons m ls ih =>
    have hrest := ih fun k hk => h k (List.mem_cons_of_mem _ hk)
    obtain ⟨hne, hm⟩ := h m (by simp)
    have hjoin : ['\n'].intercalate (l :: m :: ls) = l ++ '\n' :: ['\n'].intercalate (m :: ls) := by
      rw [List.intercalate_cons_of_ne_nil (List.cons_ne_nil _ _), List.append_assoc]
      rfl
    have hhead : (['\n'].intercalate (m :: ls) ++ '\n' :: '\n' :: s).head? ≠ some '\n' := by
      cases m with
      | nil => exact absurd rfl hne
      | cons c m =>
        intro hc
        cases ls <;> simp [List.intercalate_cons_of_ne_nil] at hc <;> exact hm (hc ▸ List.mem_cons_self)
    rw [hjoin, List.append_assoc, splitBlank_append (h l List.mem_cons_self).2, List.cons_append,
      splitBlank_cons fun hn => hhead hn.2, hrest]
    rfl

/-- `s` is the parts, each with a blank line behind it, and a rest without one. -/
inductive Cut : List Char → List (List Char) → List Char → Prop
  | rest {s : List Char} (h : splitBlank s = none) : Cut s [] s
  | part {s p s' : List Char} {ps : List (List Char)} {r : List Char} (h : splitBlank s = some (p, s'))
      (hs : Cut s' ps r) : Cut s (p :: ps) r

theorem Cut.unique {s r r' : List Char} {ps ps' : List (List Char)} (h : Cut s ps r) (h' : Cut s ps' r') :
    ps = ps' ∧ r = r' := by
  induction h generalizing ps' with
  | rest hnone =>
    cases h' with
    | rest => exact ⟨rfl, rfl⟩
    | part hsome => rw [hnone] at hsome; cases hsome
  | part hsome _ ih =>
    cases h' with
    | rest hnone => rw [hnone] at hsome; cases hsome
    | part hsome' hs' =>
      obtain ⟨rfl, rfl⟩ := Prod.mk.inj (Option.some.inj (hsome.symm.trans hsome'))
      obtain ⟨rfl, rfl⟩ := ih hs'
      exact ⟨rfl, rfl⟩

theorem Cut.length_le {s r : List Char} {ps : List (List Char)} (h : Cut s ps r) : ps.length ≤ s.length := by
  induction h with
  | rest => exact Nat.zero_le _
  | part hsome _ ih =>
    rw [(splitBlank_some hsome).1]
    simp only [List.length_append, List.length_cons]
    omega

/-- More text may follow the parts. -/
theorem Cut.front {s r : List Char} {ps : List (List Char)} (h : Cut s ps r) :
    ∃ q, s = q ++ r ∧ q.getLast? ≠ some '\r' ∧
      ∀ (x : List Char) (ps' : List (List Char)) (r' : List Char), Cut x ps' r' → Cut (q ++ x) (ps ++ ps') r' := by
  induction h with
  | rest => exact ⟨[], rfl, nofun, fun x ps' r' hx => hx⟩
  | @part s p s' ps r hsome _ ih =>
    obtain ⟨q, rfl, hlast, hq⟩ := ih
    obtain ⟨rfl, hx⟩ := splitBlank_some hsome
    refine ⟨p ++ '\n' :: '\n' :: q, by simp, ?_, fun x ps' r' hcut => .part ?_ (hq x ps' r' hcut)⟩
    · match q, hlast with
      | [], _ => simp
      | c :: q, hlast => simpa using hlast
    · rw [List.append_assoc]
      exact hx (q ++ x)

/-- The beginning of a text with no rest is cut where the text is. -/
theorem Cut.front_of_prefix {s t : List Char} {ps : List (List Char)} (h : Cut s ps []) (ht : t <+: s) :
    ∃ qs r, Cut t qs r ∧ qs <+: ps ∧ (r = [] ∨ ∃ p ∈ ps, r <+: p ++ ['\n']) := by
  generalize hr : ([] : List Char) = r at h
  induction h generalizing t with
  | rest hnone =>
    subst hr
    obtain rfl := List.prefix_nil.1 ht
    exact ⟨[], [], .rest rfl, List.prefix_rfl, .inl rfl⟩
  | @part s p s' ps r hsome hs ih =>
    subst hr
    obtain ⟨rfl, hx⟩ := splitBlank_some hsome
    cases hsplit : splitBlank t with
    | none =>
      refine ⟨[], t, .rest hsplit, List.nil_prefix, .inr ⟨p, List.mem_cons_self, ?_⟩⟩
      have hp : p ++ ['\n'] ++ ['\n'] <+: p ++ '\n' :: '\n' :: s' := ⟨s', by simp⟩
      have hnot : ∀ u, t ≠ p ++ ['\n'] ++ ['\n'] ++ u := by
        rintro u rfl
        rw [show p ++ ['\n'] ++ ['\n'] ++ u = p ++ '\n' :: '\n' :: u by simp, hx u] at hsplit
        cases hsplit
      rcases List.prefix_or_prefix_of_prefix ht hp with h | ⟨u, hu⟩
      · rcases List.prefix_concat_iff.1 h with h | h
        · exact absurd (h.trans (List.append_nil _).symm) (hnot [])
        · exact h
      · exact absurd hu.symm (hnot u)
    | some pr =>
      obtain ⟨p', t'⟩ := pr
      obtain ⟨rfl, hx'⟩ := splitBlank_some hsplit
      obtain ⟨y, hy⟩ := ht
      rw [List.append_assoc] at hy
      have hsame := hx' (t' ++ y)
      have : p' = p ∧ t' ++ y = s' := by
        rw [show p' ++ '\n' :: '\n' :: (t' ++ y) = p ++ '\n' :: '\n' :: s' from hy, hx] at hsame
        simpa [eq_comm] using hsame
      obtain ⟨rfl, rfl⟩ := this
      obtain ⟨qs, r, hcut, hqs, hr⟩ := ih (t := t') ⟨y, rfl⟩ rfl
      refine ⟨p' :: qs, r, .part hsplit hcut, List.cons_prefix_cons.2 ⟨rfl, hqs⟩, ?_⟩
      rcases hr with rfl | ⟨p, hp, hr⟩
      · exact .inl rfl
      · exact .inr ⟨p, List.mem_cons_of_mem _ hp, hr⟩

/-- The parts of `s` and the rest; the number of characters is fuel enough. -/
def pieces : Nat → List Char → List (List Char) × List Char
  | 0, s => ([], s)
  | n + 1, s =>
    match splitBlank s with
    | none => ([], s)
    | some (p, s') => (p :: (pieces n s').1, (pieces n s').2)

theorem cut_pieces {n : Nat} {s : List Char} (h : s.length ≤ n) : Cut s (pieces n s).1 (pieces n s).2 := by
  induction n generalizing s with
  | zero =>
    obtain rfl : s = [] := List.eq_nil_of_length_eq_zero (by omega)
    exact .rest rfl
  | succ n ih =>
    simp only [pieces]
    split
    · exact .rest ‹_›
    · rename_i p s' hsome
      refine .part hsome (ih ?_)
      have hlen := congrArg List.length (splitBlank_some hsome).1
      simp only [List.length_append, List.length_cons] at hlen
      omega

/-! ### Text in parts -/

/-- The parts between the blank lines of a text with any line ends. -/
def events (text : List Char) : List (List Char) := (pieces (normalise text).length (normalise text)).1

/-- What follows the last blank line. -/
def tail (text : List Char) : List Char := (pieces (normalise text).length (normalise text)).2

theorem cut_events (text : List Char) : Cut (normalise text) (events text) (tail text) := cut_pieces le_rfl

/-- What was cut stays cut when more text arrives. -/
theorem events_append (a b : List Char) : ∃ ps, events (a ++ b) = events a ++ ps := by
  obtain ⟨q, hq, hlast, hfront⟩ := (cut_events a).front
  obtain ⟨x, hx⟩ := normalise_front hq hlast b
  have hwhole := hfront _ _ _ (cut_pieces (s := x) le_rfl)
  rw [← hx] at hwhole
  exact ⟨_, ((cut_events (a ++ b)).unique hwhole).1⟩

/-- The rest, normalised a second time with more text, is cut as the whole text. -/
theorem Cut.append {a b : List Char} (h : ¬ Doubled a) {ps : List (List Char)} {r : List Char}
    (hcut : Cut (normalise (tail a ++ b)) ps r) : events (a ++ b) = events a ++ ps ∧ tail (a ++ b) = r := by
  obtain ⟨q, hq, hlast, hfront⟩ := (cut_events a).front
  have hnorm : normalise q = q := normalised_of_append (hq ▸ normalise_idem h)
  have hall : normalise (a ++ b) = q ++ normalise (tail a ++ b) := by
    rw [← normalise_append h, hq, List.append_assoc, normalise_append_left hnorm hlast]
  have hwhole := hfront _ _ _ hcut
  rw [← hall] at hwhole
  exact (cut_events (a ++ b)).unique hwhole

end Framing
end RepoPilot
