/- Pdq.Theory.Utf8 -- the bytes of a text.

A text is its list of Unicode scalar values; `utf8` is its encoding.  The code
is prefix-free (`utf8_prefixFree`), so byte prefixes are text prefixes, and a
byte below `0x80` only ever comes from the ASCII character it names
(`eq_of_ascii_mem`), so a reserved ASCII byte can be searched for in the raw
bytes.  Byte order is the order of the code points (`utf8EncodeChar_lt`). -/
import Mathlib.Data.Char
import Pdq.Theory.PrefixCone

namespace Pdq.Theory

set_option autoImplicit false

abbrev Str := List Char

abbrev Bytes := List UInt8

/-- Bytes are compared as unsigned numbers. -/
instance instLinearOrderByte : LinearOrder UInt8 where
  le_refl a := UInt8.le_refl a
  le_trans _ _ _ := UInt8.le_trans
  le_antisymm _ _ := UInt8.le_antisymm
  le_total a b := UInt8.le_total a b
  lt_iff_le_not_ge a b := by
    simp only [UInt8.lt_iff_toNat_lt, UInt8.le_iff_toNat_le]
    omega
  toDecidableLE := inferInstance
  toDecidableLT := inferInstance
  toDecidableEq := inferInstance

/-- The UTF-8 encoding of a text. -/
def utf8 (s : Str) : Bytes := s.flatMap String.utf8EncodeChar

@[simp] theorem utf8_nil : utf8 [] = [] := rfl

@[simp] theorem utf8_append (s t : Str) : utf8 (s ++ t) = utf8 s ++ utf8 t :=
  List.flatMap_append

@[simp] theorem utf8_cons (c : Char) (s : Str) : utf8 (c :: s) = String.utf8EncodeChar c ++ utf8 s :=
  rfl

/-! ## The encoding is a prefix-free code -/

theorem utf8EncodeChar_ne_nil (c : Char) : String.utf8EncodeChar c ≠ [] := by
  intro empty
  have size := String.length_utf8EncodeChar c
  rw [empty, List.length_nil] at size
  exact absurd c.utf8Size_pos (by omega)

theorem utf8_prefixFree : PrefixFree String.utf8EncodeChar := by
  intro a b s t same
  have decodeLeft := ByteArray.utf8DecodeChar?_utf8EncodeChar_append (b := s.toByteArray) (c := a)
  have decodeRight := ByteArray.utf8DecodeChar?_utf8EncodeChar_append (b := t.toByteArray) (c := b)
  rw [← List.toByteArray_append] at decodeLeft decodeRight
  rw [same, decodeRight] at decodeLeft
  exact (Option.some.inj decodeLeft).symm

theorem utf8_prefix_iff {s t : Str} : utf8 s <+: utf8 t ↔ s <+: t :=
  utf8_prefixFree.flatMap_prefix_iff utf8EncodeChar_ne_nil

theorem utf8_injective : Function.Injective utf8 :=
  utf8_prefixFree.flatMap_injective utf8EncodeChar_ne_nil

/-! ## ASCII -/

theorem utf8EncodeChar_ascii {c : Char} (ascii : c.toNat < 128) :
    String.utf8EncodeChar c = [UInt8.ofNat c.toNat] := by
  have small : c.val.toNat ≤ 0x7f := by
    change c.toNat ≤ 0x7f
    omega
  simp only [String.utf8EncodeChar, small, if_true]
  rfl

/-- Every byte of a non-ASCII character is at least `0x80`. -/
theorem le_of_mem_nonAscii {c : Char} (wide : 128 ≤ c.toNat) {b : UInt8}
    (member : b ∈ String.utf8EncodeChar c) : 128 ≤ b.toNat := by
  have notSmall : ¬ c.val.toNat ≤ 0x7f := by
    change ¬ c.toNat ≤ 0x7f
    omega
  simp only [String.utf8EncodeChar, notSmall, if_false] at member
  split at member
  · simp only [List.mem_cons, List.not_mem_nil, or_false] at member
    rcases member with rfl | rfl <;> simp only [UInt8.toNat_ofNat'] <;> omega
  · split at member
    · simp only [List.mem_cons, List.not_mem_nil, or_false] at member
      rcases member with rfl | rfl | rfl <;> simp only [UInt8.toNat_ofNat'] <;> omega
    · simp only [List.mem_cons, List.not_mem_nil, or_false] at member
      rcases member with rfl | rfl | rfl | rfl <;> simp only [UInt8.toNat_ofNat'] <;> omega

/-- An ASCII byte in the encoding of a character is that character. -/
theorem eq_of_ascii_mem {c : Char} {b : UInt8} (ascii : b.toNat < 128)
    (member : b ∈ String.utf8EncodeChar c) : c.toNat = b.toNat := by
  by_cases wide : 128 ≤ c.toNat
  · exact absurd (le_of_mem_nonAscii wide member) (by omega)
  · rw [utf8EncodeChar_ascii (by omega), List.mem_singleton] at member
    subst member
    simp only [UInt8.toNat_ofNat']
    omega

/-- The byte of an ASCII character occurs in the encoding of a text exactly when
the character occurs in the text. -/
theorem ascii_mem_utf8 {s : Str} {d : Char} (ascii : d.toNat < 128) :
    UInt8.ofNat d.toNat ∈ utf8 s ↔ d ∈ s := by
  have byteValue : (UInt8.ofNat d.toNat).toNat = d.toNat := by
    simp only [UInt8.toNat_ofNat']
    omega
  constructor
  · intro member
    obtain ⟨c, inText, inCode⟩ := List.mem_flatMap.mp member
    have same := eq_of_ascii_mem (by omega) inCode
    rw [byteValue] at same
    rwa [← Char.toNat_inj.mp same]
  · intro member
    refine List.mem_flatMap.mpr ⟨d, member, ?_⟩
    rw [utf8EncodeChar_ascii ascii]
    exact List.mem_singleton.mpr rfl

/-! ## Byte order is code point order -/

theorem char_val_lt (c : Char) : c.val.toNat < 0x110000 := by
  rcases c.valid with low | ⟨-, high⟩
  · exact low.trans (by decide)
  · exact high

/-- **A smaller character comes first in byte order, whatever follows the two.** -/
theorem utf8EncodeChar_lt {a b : Char} (less : a < b) (s t : Bytes) :
    String.utf8EncodeChar a ++ s < String.utf8EncodeChar b ++ t := by
  have values : a.val.toNat < b.val.toNat := less
  have bound := char_val_lt b
  -- The base-64 digits, lowest first: each is a remainder of the one quotient before it.
  have second : ∀ n : Nat, n / 4096 = n / 64 / 64 := fun n => (Nat.div_div_eq_div_mul n 64 64).symm
  have third : ∀ n : Nat, n / 262144 = n / 64 / 64 / 64 := fun n => by
    rw [Nat.div_div_eq_div_mul, Nat.div_div_eq_div_mul]
  -- One case for each pair of encoded lengths; the first byte that differs decides.
  simp only [String.utf8EncodeChar]
  split_ifs <;>
    simp (disch := omega) only [List.cons_append, List.cons_lt_cons_iff, UInt8.lt_iff_toNat_lt,
      ← UInt8.toNat_inj, UInt8.toNat_ofNat', second, third, Nat.mod_eq_of_lt] <;> omega

/-! ## Decoding -/

/-- Decode bytes as UTF-8; `none` when they are not valid UTF-8. -/
def fromUtf8 (bytes : Bytes) : Option Str := bytes.toByteArray.utf8Decode?.map Array.toList

@[simp] theorem fromUtf8_utf8 (s : Str) : fromUtf8 (utf8 s) = some s := by
  have decoded : (utf8 s).toByteArray.utf8Decode? = some s.toArray := List.utf8Decode?_utf8Encode
  simp [fromUtf8, decoded]

end Pdq.Theory
