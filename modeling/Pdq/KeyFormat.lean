/- Pdq.KeyFormat -- the keys of an FST index, built and taken apart.

The key of value `v` in row group `n` is the text `v`, the separator NUL, `rg`
and the decimal of `n`.  A lookup reads the byte range from `term NUL` to
`term SOH`; `range_key_iff` says which keys that is, and the answer is a prefix
test on the value, not an equality.  The decoder looks for the separator from
the right, so it recovers the row group of every key (`parseRowGroupFromKey_key`),
whatever the value contains. -/
import Pdq.Theory.Decimal

namespace Pdq

open Theory

set_option autoImplicit false

namespace KeyFormat

/-- Separates the indexed value from the row group. -/
def valueRgSeparator : Char := '\x00'

/-- Exclusive upper bound of a lookup, one past the separator. -/
def rangeUpperBoundMarker : Char := '\x01'

def rowGroupPrefix : Str := ['r', 'g']

end KeyFormat

open KeyFormat

/-- A `usize` on the 64-bit targets the index is built on. -/
def usizeBound : Nat := UInt64.size

/-- `Indexer::append_usize` -/
def appendUsize (buffer : Str) (value : Nat) : Str := buffer ++ decimal value

/-- The key buffer that the extraction loop of `index_file` fills for one value. -/
def keyBuffer (value : Str) (rowGroupIdx : Nat) : Str :=
  appendUsize (value ++ [valueRgSeparator] ++ rowGroupPrefix) rowGroupIdx

/-- The bytes of that key, as the key set orders them and the builder stores them. -/
def keyBytes (value : Str) (rowGroupIdx : Nat) : Bytes := utf8 (keyBuffer value rowGroupIdx)

/-- Errors of the query engine. -/
inductive QueryError where
  | cannotOpen
  | invalidFst
  | invalidUtf8
  | parseInt
  deriving DecidableEq, Repr

/-- Position of the last occurrence of `b`. -/
def rposition (b : UInt8) : Bytes → Option Nat
  | [] => none
  | x :: xs =>
      match rposition b xs with
      | some i => some (i + 1)
      | none => if x = b then some 0 else none

/-- `IndexQueryEngine::parse_row_group_from_key` -/
def parseRowGroupFromKey (key : Bytes) : Except QueryError (Option Nat) :=
  match rposition (UInt8.ofNat valueRgSeparator.toNat) key with
  | none => .ok none
  | some nullPos =>
      let rowGroupBytes := key.drop (nullPos + 1)
      if (utf8 rowGroupPrefix).isPrefixOf rowGroupBytes then
        let numBytes := rowGroupBytes.drop (utf8 rowGroupPrefix).length
        match fromUtf8 numBytes with
        | none => .error .invalidUtf8
        | some numStr =>
            match parseUnsigned usizeBound numStr with
            | none => .error .parseInt
            | some rowGroup => .ok (some rowGroup)
      else .ok none

/-! ## The bytes of a key -/

theorem utf8_separator : utf8 [valueRgSeparator] = [0] := by decide

theorem utf8_marker : utf8 [rangeUpperBoundMarker] = [1] := by decide

theorem utf8_rowGroupPrefix : utf8 rowGroupPrefix = [114, 103] := by decide

theorem keyBytes_eq (v : Str) (n : Nat) :
    keyBytes v n = utf8 v ++ (0 :: ([114, 103] ++ utf8 (decimal n))) := by
  simp only [keyBytes, keyBuffer, appendUsize, utf8_append, utf8_separator, utf8_rowGroupPrefix]
  simp

/-- NUL is a byte of a text exactly when it is one of its characters. -/
theorem zero_mem_utf8 {s : Str} : 0 ∈ utf8 s ↔ valueRgSeparator ∈ s :=
  ascii_mem_utf8 (d := valueRgSeparator) (by decide)

theorem zero_not_mem_suffix (n : Nat) : ¬ (0 : UInt8) ∈ [114, 103] ++ utf8 (decimal n) := by
  simp only [List.mem_append, not_or]
  refine ⟨by decide, ?_⟩
  rw [zero_mem_utf8]
  exact not_mem_decimal (by decide)

theorem rposition_of_not_mem {b : UInt8} {l : Bytes} (absent : ¬ b ∈ l) : rposition b l = none := by
  induction l with
  | nil => rfl
  | cons x l ih =>
      rw [List.mem_cons, not_or] at absent
      simp [rposition, ih absent.2, Ne.symm absent.1]

theorem rposition_append {b : UInt8} (front : Bytes) {back : Bytes} (absent : ¬ b ∈ back) :
    rposition b (front ++ b :: back) = some front.length := by
  induction front with
  | nil => simp [rposition, rposition_of_not_mem absent]
  | cons x front ih => simp [rposition, ih]

/-- **A key decodes to its row group**, for every value. -/
theorem parseRowGroupFromKey_key (v : Str) {n : Nat} (fits : n < usizeBound) :
    parseRowGroupFromKey (keyBytes v n) = .ok (some n) := by
  have last := rposition_append (utf8 v) (zero_not_mem_suffix n)
  have separator : UInt8.ofNat valueRgSeparator.toNat = 0 := by decide
  have back : (utf8 v ++ (0 :: ([114, 103] ++ utf8 (decimal n)))).drop ((utf8 v).length + 1) =
      [114, 103] ++ utf8 (decimal n) := by
    rw [← List.drop_drop]
    simp
  simp only [parseRowGroupFromKey, separator, keyBytes_eq, last, back, utf8_rowGroupPrefix]
  simp [parseUnsigned_decimal fits]

/-- A key determines its row group. -/
theorem rowGroup_of_keyBytes {v w : Str} {m n : Nat} (fitsLeft : m < usizeBound)
    (fitsRight : n < usizeBound) (same : keyBytes v m = keyBytes w n) : m = n := by
  have left := parseRowGroupFromKey_key v fitsLeft
  rw [same, parseRowGroupFromKey_key w fitsRight] at left
  exact (Option.some.inj (Except.ok.inj left)).symm

/-- **Every key decodes, and to one value and row group only**, also when the
value holds separators or text that looks like a row-group suffix. -/
theorem key_decodes_uniquely {v w : Str} {m n : Nat} (fitsLeft : m < usizeBound)
    (fitsRight : n < usizeBound) :
    parseRowGroupFromKey (keyBytes v m) = .ok (some m) ∧
      (keyBytes v m = keyBytes w n ↔ v = w ∧ m = n) := by
  refine ⟨parseRowGroupFromKey_key v fitsLeft, ?_⟩
  constructor
  · intro same
    obtain rfl := rowGroup_of_keyBytes fitsLeft fitsRight same
    rw [keyBytes_eq, keyBytes_eq] at same
    exact ⟨utf8_injective (List.append_cancel_right same), rfl⟩
  · rintro ⟨rfl, rfl⟩
    rfl

theorem key_decodes_uniquely_sample :
    parseRowGroupFromKey (keyBytes "a\x00rg7".toList 12) = .ok (some 12) ∧
      (keyBytes "a\x00rg7".toList 12 = keyBytes "a".toList 7 ↔
        "a\x00rg7".toList = "a".toList ∧ 12 = 7) :=
  key_decodes_uniquely (by decide) (by decide)

/-! ## The range of a lookup -/

def startKey (term : Str) : Bytes := utf8 (term ++ [valueRgSeparator])

def endKey (term : Str) : Bytes := utf8 (term ++ [rangeUpperBoundMarker])

theorem zero_least (b : UInt8) : (0 : UInt8) ≤ b := by
  rw [UInt8.le_iff_toNat_le]
  exact Nat.zero_le _

theorem zero_covBy_one : (0 : UInt8) ⋖ 1 := by
  refine ⟨by decide, fun b above below => ?_⟩
  rw [UInt8.lt_iff_toNat_lt] at above below
  have zero : (0 : UInt8).toNat = 0 := rfl
  have one : (1 : UInt8).toNat = 1 := rfl
  omega

/-- A lookup reads the keys that continue the term and a NUL. -/
theorem range_iff (term : Str) (key : Bytes) :
    startKey term ≤ key ∧ key < endKey term ↔ startKey term <+: key := by
  simp only [startKey, endKey, utf8_append, utf8_separator, utf8_marker]
  exact mem_cone_iff zero_covBy_one (utf8 term) key

/-- **Which keys a lookup of `term` reads**: those of the values that are the
term, or continue it with a NUL. -/
theorem range_key_iff (term v : Str) (n : Nat) :
    startKey term ≤ keyBytes v n ∧ keyBytes v n < endKey term ↔
      v = term ∨ term ++ [valueRgSeparator] <+: v := by
  rw [range_iff]
  have key : keyBuffer v n = v ++ valueRgSeparator :: (rowGroupPrefix ++ decimal n) := by
    simp [keyBuffer, appendUsize]
  rw [startKey, keyBytes, utf8_prefix_iff, key]
  -- The separator that closes the term is either one inside the value or the one after it.
  have noLater : ¬ valueRgSeparator ∈ rowGroupPrefix ++ decimal n := by
    simp only [List.mem_append, not_or]
    exact ⟨by decide, not_mem_decimal (by decide)⟩
  constructor
  · intro starts
    rcases List.prefix_or_prefix_of_prefix starts (List.prefix_append v _) with inside | beyond
    · exact Or.inr inside
    · rcases List.prefix_concat_iff.mp beyond with same | ⟨rest, rfl⟩
      · exact Or.inr ⟨[], by rw [same, List.append_nil]⟩
      · rw [List.append_assoc] at starts
        have tails := (List.prefix_append_right_inj v).mp starts
        cases rest with
        | nil => exact Or.inl (by simp)
        | cons c rest =>
            obtain ⟨_, tail⟩ := List.cons_prefix_cons.mp tails
            exact absurd (tail.subset (by simp)) noLater
  · rintro (rfl | inside)
    · exact (List.prefix_append_right_inj v).mpr ⟨rowGroupPrefix ++ decimal n, rfl⟩
    · exact inside.trans (List.prefix_append v _)

end Pdq
