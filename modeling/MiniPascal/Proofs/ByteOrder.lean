/-
`ByteOrder.lean` -- the order of names is the order of their bytes.

Maps compare names by code point. Whoever sorts names as they are stored compares bytes,
and a character has between one and four of them. Both orders are the same, for two
reasons. The first byte of a character already tells how many continuation bytes follow,
and longer characters have greater first bytes (`lead_lt_or`). Among characters of one
length the bytes are the digits of the code point in base 64, the highest ones first, so
the first digit that differs decides (`continuation_lt`). Hence different characters
differ within their own bytes, and what follows them does not matter (`encode_lt`).
-/
import Mathlib.Algebra.Group.Nat.Defs
import Mathlib.Data.List.Basic

set_option autoImplicit false

namespace MiniPascal

/-! ## One character -/

namespace CodePoint

/-- The lowest `count` digits of a code point in base 64, as continuation bytes carry them. -/
def continuation (n : Nat) : Nat → List UInt8
  | 0 => []
  | count + 1 => UInt8.ofNat (n / 64 ^ count % 64 + 128) :: continuation n count

/-- How many continuation bytes a code point has. -/
def more (n : Nat) : Nat :=
  if n ≤ 127 then 0 else if n ≤ 2047 then 1 else if n ≤ 65535 then 2 else 3

/-- Where the first bytes begin of characters with that many continuation bytes. -/
def marker : Nat → Nat
  | 0 => 0
  | 1 => 192
  | 2 => 224
  | _ => 240

/-- The first byte of a code point. -/
def lead (n : Nat) : Nat := marker (more n) + n / 64 ^ more n

theorem toNat_lt (c : Char) : c.toNat < 1114112 := by
  rcases c.valid with h | h
  · exact Nat.lt_trans h (by decide)
  · exact h.2

/-- The encoding of a character, whatever its length. -/
theorem utf8EncodeChar_eq (c : Char) :
    String.utf8EncodeChar c =
      UInt8.ofNat (lead c.toNat) :: continuation c.toNat (more c.toNat) := by
  have hlt := toNat_lt c
  simp only [String.utf8EncodeChar]
  rw [show c.val.toNat = c.toNat from rfl]
  generalize c.toNat = n at *
  unfold lead more
  split
  · simp [marker, continuation]
  split
  · have htop : n / 64 % 32 + 192 = 192 + n / 64 := by omega
    simp [marker, continuation, htop]
  split
  · have htop : n / 4096 % 16 + 224 = 224 + n / 4096 := by omega
    simp [marker, continuation, htop]
  · have htop : n / 262144 % 8 + 240 = 240 + n / 262144 := by omega
    simp [marker, continuation, htop]

/-- A greater code point has a greater first byte, or differs in the digits behind it. -/
theorem lead_lt_or {m n : Nat} (h : m < n) (hn : n < 1114112) :
    lead n < 256 ∧ (lead m < lead n ∨
      lead m = lead n ∧ more m = more n ∧ m / 64 ^ more m = n / 64 ^ more n) := by
  simp only [lead, more]
  split_ifs <;>
    simp only [marker, Nat.reducePow, true_and, Nat.pow_zero, Nat.div_one] <;> omega

/-- Of two numbers that agree above their lowest `count` digits, the greater one has the
greater digits. -/
theorem continuation_lt {m n : Nat} (h : m < n) {count : Nat}
    (heq : m / 64 ^ count = n / 64 ^ count) (r s : List UInt8) :
    continuation m count ++ r < continuation n count ++ s := by
  induction count with
  | zero =>
    simp only [Nat.pow_zero, Nat.div_one] at heq
    omega
  | succ count ih =>
    simp only [continuation, List.cons_append, List.cons_lt_cons_iff]
    rw [Nat.pow_succ, ← Nat.div_div_eq_div_mul, ← Nat.div_div_eq_div_mul] at heq
    have hle : m / 64 ^ count ≤ n / 64 ^ count := Nat.div_le_div_right (Nat.le_of_lt h)
    by_cases hcount : m / 64 ^ count = n / 64 ^ count
    · exact .inr ⟨by rw [hcount], ih hcount⟩
    · refine .inl (UInt8.lt_iff_toNat_lt.mpr ?_)
      simp only [UInt8.toNat_ofNat']
      omega

/-- Different characters differ within their own bytes. -/
theorem encode_lt {c d : Char} (h : c < d) (r s : List UInt8) :
    String.utf8EncodeChar c ++ r < String.utf8EncodeChar d ++ s := by
  obtain ⟨hbyte, hlead⟩ := lead_lt_or (m := c.toNat) (n := d.toNat) h (toNat_lt d)
  simp only [utf8EncodeChar_eq, List.cons_append, List.cons_lt_cons_iff]
  rcases hlead with hlt | ⟨heq, hmore, hdiv⟩
  · refine .inl (UInt8.lt_iff_toNat_lt.mpr ?_)
    simp only [UInt8.toNat_ofNat']
    omega
  · refine .inr ⟨by rw [heq], ?_⟩
    rw [hmore] at hdiv ⊢
    exact continuation_lt h hdiv r s

end CodePoint

/-! ## Texts -/

/-- The bytes of a text. -/
def utf8 (s : String) : List UInt8 := s.toByteArray.data.toList

theorem utf8_eq_flatMap (s : String) : utf8 s = s.toList.flatMap String.utf8EncodeChar := by
  rw [utf8, ← String.utf8Encode_toList, List.utf8Encode]
  simp

theorem flatMap_encode_lt {l m : List Char} (h : l < m) :
    l.flatMap String.utf8EncodeChar < m.flatMap String.utf8EncodeChar := by
  induction h with
  | nil =>
    rw [List.flatMap_nil, List.flatMap_cons, CodePoint.utf8EncodeChar_eq]
    exact List.nil_lt_cons _ _
  | rel h =>
    rw [List.flatMap_cons, List.flatMap_cons]
    exact CodePoint.encode_lt h _ _
  | cons _ ih =>
    rw [List.flatMap_cons, List.flatMap_cons]
    exact List.append_left_lt ih

/-- **Names and their bytes are in the same order.** -/
theorem utf8_lt_iff {s t : String} : utf8 s < utf8 t ↔ s < t := by
  have hmono {s t : String} (h : s < t) : utf8 s < utf8 t := by
    rw [utf8_eq_flatMap, utf8_eq_flatMap]
    exact flatMap_encode_lt (String.lt_iff.mp h)
  refine ⟨fun h => ?_, hmono⟩
  rcases Std.lt_trichotomy s t with hst | rfl | hts
  · exact hst
  · exact absurd h (List.lt_irrefl _)
  · exact absurd (List.lt_trans h (hmono hts)) (List.lt_irrefl _)

end MiniPascal
