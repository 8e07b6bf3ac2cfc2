/- Pdq.Theory.Decimal -- unsigned decimals, printed and parsed.

`parseUnsigned bound` accepts what a fixed-width unsigned parser accepts: an
optional leading `+`, then at least one ASCII digit and nothing else, with a
value below `bound`.  `parseUnsigned_decimal` is the round trip. -/
import Mathlib.Data.Char
import Pdq.Theory.Utf8

namespace Pdq.Theory

set_option autoImplicit false

/-- The decimal digits of `n`, without leading zeros. -/
def decimal (n : Nat) : Str := Nat.toDigits 10 n

/-- Drop one leading plus sign. -/
def dropPlus : Str → Str
  | [] => []
  | c :: cs => if c = '+' then cs else c :: cs

/-- Parse an unsigned decimal below `bound`; `none` when the text is empty, holds
another character, or overflows. -/
def parseUnsigned (bound : Nat) (s : Str) : Option Nat :=
  let digits := dropPlus s
  if digits ≠ [] ∧ digits.all Char.isDigit then
    let value := Nat.ofDigitChars 10 digits 0
    if value < bound then some value else none
  else none

theorem decimal_isDigit {n : Nat} {c : Char} (member : c ∈ decimal n) : c.isDigit = true :=
  Nat.isDigit_of_mem_toDigits (by decide) (by decide) member

theorem decimal_ne_nil (n : Nat) : decimal n ≠ [] := Nat.toDigits_ne_nil

theorem not_mem_decimal {n : Nat} {c : Char} (other : c.isDigit = false) : ¬ c ∈ decimal n := by
  intro member
  rw [decimal_isDigit member] at other
  cases other

theorem dropPlus_decimal (n : Nat) : dropPlus (decimal n) = decimal n := by
  cases shape : decimal n with
  | nil => rfl
  | cons c cs =>
      have notPlus : c ≠ '+' := by
        rintro rfl
        exact not_mem_decimal (n := n) (c := '+') (by decide) (shape ▸ List.mem_cons_self)
      simp [dropPlus, notPlus]

/-- **Printing then parsing** is the identity below the bound. -/
theorem parseUnsigned_decimal {bound n : Nat} (fits : n < bound) :
    parseUnsigned bound (decimal n) = some n := by
  have digits : (decimal n).all Char.isDigit = true :=
    List.all_eq_true.mpr fun _ member => decimal_isDigit member
  have value : Nat.ofDigitChars 10 (decimal n) 0 = n := Nat.ofDigitChars_ten_toDigits
  simp [parseUnsigned, dropPlus_decimal, digits, decimal_ne_nil, value, fits]

end Pdq.Theory
