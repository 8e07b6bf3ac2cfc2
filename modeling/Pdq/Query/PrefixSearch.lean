/- Pdq.Query.PrefixSearch -- the prefix lookup.

`prefix_search` reads the keys from `prefix NUL` to the prefix with its last
character moved one up, and keeps those whose text before the first NUL starts
with the prefix.  For a prefix without NUL that does not end in the last Unicode
scalar value this brackets every value that starts with it (`prefixKeys_iff`).
Elsewhere the range is too narrow: the empty prefix reads only values that are
empty or start with a NUL, and a prefix that ends in U+10FFFF has no character to
move to.  `prefixSearch_exact_iff` says for every directory and prefix whether
the answer is the right one. -/
import Pdq.Query.Written

namespace Pdq

open Theory KeyFormat

set_option autoImplicit false

/-! ## The lookup -/

/-- Replaces the character after the last Unicode scalar value. -/
def KeyFormat.maxUnicodeChar : Char := Char.ofNat 0x10FFFF

/-- `char::from_u32` -/
def fromU32 (n : Nat) : Option Char :=
  if h : n.isValidChar then some (Char.ofNatAux n h) else none

/-- The last character of a prefix, moved up. -/
def nextChar (lastChar : Char) : Char := (fromU32 (lastChar.toNat + 1)).getD maxUnicodeChar

/-- The exclusive upper bound of a prefix lookup. -/
def prefixEndKey (pfx : Str) : Bytes :=
  match pfx.getLast? with
  | some lastChar => startKey (pfx.dropLast ++ [nextChar lastChar])
  | none => utf8 [rangeUpperBoundMarker]

/-- The text before the first NUL of a key starts with the prefix; a key without
a NUL is passed over. -/
def valueStartsWith (pfx : Str) (key : Bytes) : Bool :=
  match key.findIdx? fun b => decide (b = UInt8.ofNat valueRgSeparator.toNat) with
  | some nullPos =>
      let valueBytes := key.take nullPos
      decide ((utf8 pfx).length ≤ valueBytes.length) && (utf8 pfx).isPrefixOf valueBytes
  | none => false

/-- The loop body of `prefix_search_set`. -/
def insertMatching (pfx : Str) (rowGroups : SortedSet Nat) (key : Bytes) :
    Except QueryError (SortedSet Nat) :=
  if valueStartsWith pfx key then insertRowGroup rowGroups key else .ok rowGroups

/-- `IndexQueryEngine::prefix_search_set` -/
def prefixSearchSet (set : FstSet) (pfx : Str) : Except QueryError (List Nat) := do
  let rowGroups ←
    (set.range (startKey pfx) (prefixEndKey pfx)).foldlM (insertMatching pfx) SortedSet.empty
  return rowGroups.toList

/-- `IndexQueryEngine::prefix_search` -/
def IndexQueryEngine.prefixSearch (root : IndexRoot) (engine : IndexQueryEngine) (column : Column)
    (pfx : Str) : Except QueryError (List FileMatches) × IndexQueryEngine :=
  searchAll root engine column fun set => prefixSearchSet set pfx

/-! ## Moving a character up -/

theorem char_le_max (c : Char) : c.toNat ≤ maxUnicodeChar.toNat := by
  have bound := char_val_lt c
  have top : maxUnicodeChar.toNat = 0x10FFFF := by decide
  show c.val.toNat ≤ _
  omega

theorem fromU32_toNat {n : Nat} {c : Char} (made : fromU32 n = some c) : c.toNat = n := by
  by_cases valid : n.isValidChar
  · rw [fromU32, dif_pos valid] at made
    rw [← Option.some.inj made]
    rfl
  · rw [fromU32, dif_neg valid] at made
    cases made

/-- Every character but the last moves up, also across the surrogates. -/
theorem lt_nextChar {c : Char} (notMax : c ≠ maxUnicodeChar) : c < nextChar c := by
  have below : c.toNat < maxUnicodeChar.toNat :=
    lt_of_le_of_ne (char_le_max c) fun same => notMax (Char.toNat_inj.mp same)
  show c.toNat < (nextChar c).toNat
  unfold nextChar
  cases made : fromU32 (c.toNat + 1) with
  | none => exact below
  | some next =>
      rw [Option.getD_some, fromU32_toNat made]
      exact Nat.lt_succ_self _

theorem nextChar_max : nextChar maxUnicodeChar = maxUnicodeChar := by decide

/-! ## What a prefix lookup finds -/

/-- The text before the first NUL. -/
def beforeNul (v : Str) : Str := v.takeWhile fun c => decide (c ≠ valueRgSeparator)

theorem beforeNul_clean (v : Str) : ¬ valueRgSeparator ∈ beforeNul v := by
  intro member
  simpa using List.all_eq_true.mp List.all_takeWhile _ member

/-- It ends where the value ends, or at the first NUL of the value. -/
theorem beforeNul_cases (v : Str) : beforeNul v = v ∨ beforeNul v ++ [valueRgSeparator] <+: v := by
  induction v with
  | nil => exact Or.inl rfl
  | cons c v ih =>
      by_cases nul : c = valueRgSeparator
      · right
        rw [beforeNul, List.takeWhile_cons_of_neg (by simp [nul]), nul]
        exact ⟨v, rfl⟩
      · rw [beforeNul, List.takeWhile_cons_of_pos (by simpa using nul)]
        rcases ih with all | closed
        · exact Or.inl (congrArg (c :: ·) all)
        · exact Or.inr ((List.prefix_append_right_inj [c]).mpr closed)

/-- A text without NUL starts a value exactly when it starts the part before the
first NUL; no other text starts that part. -/
theorem prefix_beforeNul_iff {pfx v : Str} :
    pfx <+: beforeNul v ↔ ¬ valueRgSeparator ∈ pfx ∧ pfx <+: v := by
  have front : beforeNul v <+: v := List.takeWhile_prefix _
  constructor
  · intro starts
    exact ⟨fun nul => beforeNul_clean v (starts.subset nul), starts.trans front⟩
  · rintro ⟨clean, starts⟩
    rcases beforeNul_cases v with all | closed
    · rwa [all]
    · rcases List.prefix_or_prefix_of_prefix starts closed with within | beyond
      · rcases List.prefix_concat_iff.mp within with same | shorter
        · exact absurd (by rw [same]; simp) clean
        · exact shorter
      · exact absurd (beyond.subset (by simp)) clean

/-- The first NUL of a key closes the part before the first NUL of its value. -/
theorem keyBytes_beforeNul (v : Str) (n : Nat) :
    ∃ rest, keyBytes v n = utf8 (beforeNul v) ++ 0 :: rest := by
  rw [keyBytes_eq]
  rcases beforeNul_cases v with all | ⟨later, closed⟩
  · rw [all]
    exact ⟨_, rfl⟩
  · refine ⟨utf8 later ++ 0 :: ([114, 103] ++ utf8 (decimal n)), ?_⟩
    have bytes : utf8 v = utf8 (beforeNul v) ++ 0 :: utf8 later := by
      rw [← closed, utf8_append, utf8_append, utf8_separator]
      simp only [closed, List.append_assoc, List.singleton_append]
    rw [bytes]
    simp

theorem findIdx?_append_of_clean {b : UInt8} {front : Bytes} (clean : ¬ b ∈ front)
    (rest : Bytes) :
    (front ++ b :: rest).findIdx? (fun x => decide (x = b)) = some front.length := by
  induction front with
  | nil => simp [List.findIdx?_cons]
  | cons x front ih =>
      rw [List.mem_cons, not_or] at clean
      simp [List.findIdx?_cons, ih clean.2, Ne.symm clean.1]

/-- **The check on a key**: the prefix has no NUL and starts the value. -/
theorem valueStartsWith_key (pfx v : Str) (n : Nat) :
    valueStartsWith pfx (keyBytes v n) = true ↔ ¬ valueRgSeparator ∈ pfx ∧ pfx <+: v := by
  obtain ⟨rest, key⟩ := keyBytes_beforeNul v n
  have separator : UInt8.ofNat valueRgSeparator.toNat = 0 := by decide
  have first := findIdx?_append_of_clean (mt zero_mem_utf8.mp (beforeNul_clean v)) rest
  rw [← prefix_beforeNul_iff, ← utf8_prefix_iff, key, valueStartsWith, separator, first]
  simp only [List.take_left, Bool.and_eq_true, decide_eq_true_eq, List.isPrefixOf_iff_prefix]
  exact ⟨And.right, fun starts => ⟨starts.length_le, starts⟩⟩

/-- **Which keys a prefix lookup reads**, of the values that start with a prefix
without NUL: all, unless the prefix ends in the last scalar value. -/
theorem prefixKeys_iff {pfx v : Str} (nonempty : pfx ≠ []) (starts : pfx <+: v) (n : Nat) :
    startKey pfx ≤ keyBytes v n ∧ keyBytes v n < prefixEndKey pfx ↔
      pfx.getLast? ≠ some maxUnicodeChar := by
  obtain ⟨front, c, rfl⟩ := List.eq_nil_or_concat' pfx |>.resolve_left nonempty
  have endKey : prefixEndKey (front ++ [c]) = startKey (front ++ [nextChar c]) := by
    simp [prefixEndKey]
  rw [endKey, List.getLast?_concat, Ne, Option.some.injEq]
  constructor
  · rintro ⟨lower, upper⟩ rfl
    rw [nextChar_max] at upper
    exact absurd upper (not_lt.mpr lower)
  · intro notMax
    obtain ⟨later, rfl⟩ := starts
    have key : keyBytes (front ++ [c] ++ later) n =
        utf8 (front ++ [c]) ++ (utf8 later ++ 0 :: ([114, 103] ++ utf8 (decimal n))) := by
      rw [keyBytes_eq, utf8_append, List.append_assoc]
    constructor
    · rw [startKey, key, utf8_append (front ++ [c]), utf8_separator, append_le_append_same]
      cases utf8 later with
      | nil => exact singleton_le_cons zero_least _ _
      | cons b bytes => exact singleton_le_cons zero_least b _
    · rw [startKey, key]
      simp only [utf8_append, utf8_cons, utf8_nil, List.append_assoc, List.append_nil,
        append_lt_append_same]
      exact utf8EncodeChar_lt (lt_nextChar notMax) _ _

/-- What a prefix lookup takes for a value that starts with the prefix. -/
def prefixFinds (pfx v : Str) : Bool :=
  if pfx = [] then decide (v = []) || [valueRgSeparator].isPrefixOf v
  else decide (¬ valueRgSeparator ∈ pfx ∧ pfx.getLast? ≠ some maxUnicodeChar) && pfx.isPrefixOf v

theorem prefixFinds_iff (pfx v : Str) (n : Nat) :
    (startKey pfx ≤ keyBytes v n ∧ keyBytes v n < prefixEndKey pfx) ∧
        valueStartsWith pfx (keyBytes v n) = true ↔
      prefixFinds pfx v = true := by
  rw [valueStartsWith_key]
  by_cases empty : pfx = []
  · subst empty
    have range : startKey [] ≤ keyBytes v n ∧ keyBytes v n < prefixEndKey [] ↔
        v = [] ∨ [valueRgSeparator] <+: v := range_key_iff [] v n
    rw [range]
    simp [prefixFinds]
  · rw [prefixFinds, if_neg empty, Bool.and_eq_true, decide_eq_true_eq,
      List.isPrefixOf_iff_prefix]
    constructor
    · rintro ⟨inRange, clean, starts⟩
      exact ⟨⟨clean, (prefixKeys_iff empty starts n).mp inRange⟩, starts⟩
    · rintro ⟨⟨clean, notMax⟩, starts⟩
      exact ⟨(prefixKeys_iff empty starts n).mpr notMax, clean, starts⟩

/-- **The answer of an index FST to a prefix lookup**, for every prefix. -/
theorem prefixSearchSet_columnKeys (file : ParquetFile) (column : Column) (pfx : Str) :
    prefixSearchSet (columnKeys file column) pfx =
      .ok (rowGroupsHolding file column (prefixFinds pfx)) := by
  obtain ⟨rowGroups, returned, members⟩ := rangeLoop_columnKeys (insertMatching pfx)
    (valueStartsWith pfx) file column (startKey pfx) (prefixEndKey pfx) fun v g fits t => by
      rw [insertMatching, insertRowGroup_key v fits]
      split <;> rfl
  have listed : rowGroups.toList = rowGroupsHolding file column (prefixFinds pfx) :=
    eq_rowGroupsHolding rowGroups.sorted fun g => (members g).trans
      (exists_congr fun v => and_congr_right fun _ => prefixFinds_iff pfx v g)
  rw [← listed]
  simp only [prefixSearchSet, returned]
  rfl

/-! ## When the answer is right -/

/-- A lookup of `pfx` misses no row group of the file.  It finds, for the empty
prefix, only the values that are empty or start with a NUL, and for a prefix that
has a NUL or ends in the last scalar value none. -/
def PrefixAnswered (file : ParquetFile) (column : Column) (pfx : Str) : Prop :=
  (pfx = [] → ∀ g v, file.HoldsValue column g v →
    ∃ w, file.HoldsValue column g w ∧ (w = [] ∨ [valueRgSeparator] <+: w)) ∧
  (valueRgSeparator ∈ pfx ∨ pfx.getLast? = some maxUnicodeChar →
    ∀ g v, file.HoldsValue column g v → ¬ pfx <+: v)

theorem startsWith_of_prefixFinds {pfx v : Str} (found : prefixFinds pfx v = true) :
    pfx.isPrefixOf v = true := by
  unfold prefixFinds at found
  split at found
  · rename_i empty
    rw [empty]
    rfl
  · exact (Bool.and_eq_true_iff.mp found).2

theorem rowGroupsHolding_prefix_iff (file : ParquetFile) (column : Column) (pfx : Str) :
    rowGroupsHolding file column (prefixFinds pfx) =
        rowGroupsHolding file column (fun v => pfx.isPrefixOf v) ↔
      PrefixAnswered file column pfx := by
  constructor
  · intro same
    have found : ∀ g v, file.HoldsValue column g v → pfx <+: v →
        ∃ w, file.HoldsValue column g w ∧ prefixFinds pfx w = true := by
      intro g v holds starts
      apply mem_rowGroupsHolding.mp
      rw [same]
      exact mem_rowGroupsHolding.mpr ⟨v, holds, List.isPrefixOf_iff_prefix.mpr starts⟩
    constructor
    · rintro rfl g v holds
      obtain ⟨w, holdsW, foundW⟩ := found g v holds List.nil_prefix
      exact ⟨w, holdsW, by simpa [prefixFinds] using foundW⟩
    · intro unreachable g v holds starts
      obtain ⟨w, -, foundW⟩ := found g v holds starts
      have nonempty : pfx ≠ [] := by
        rintro rfl
        simp at unreachable
      rw [prefixFinds, if_neg nonempty, Bool.and_eq_true, decide_eq_true_eq] at foundW
      rcases unreachable with nul | ends
      · exact foundW.1.1 nul
      · exact foundW.1.2 ends
  · rintro ⟨emptyPrefix, unreachable⟩
    refine eq_rowGroupsHolding (rowGroupsHolding_sorted _ _ _) fun g => ?_
    rw [mem_rowGroupsHolding]
    constructor
    · rintro ⟨v, holds, found⟩
      exact ⟨v, holds, startsWith_of_prefixFinds found⟩
    · rintro ⟨v, holds, starts⟩
      by_cases empty : pfx = []
      · obtain ⟨w, holdsW, foundW⟩ := emptyPrefix empty g v holds
        exact ⟨w, holdsW, by simpa [prefixFinds, empty] using foundW⟩
      · have reachable : ¬ valueRgSeparator ∈ pfx ∧ pfx.getLast? ≠ some maxUnicodeChar := by
          rw [← not_or]
          intro bad
          exact unreachable bad g v holds (List.isPrefixOf_iff_prefix.mp starts)
        refine ⟨v, holds, ?_⟩
        rw [prefixFinds, if_neg empty, Bool.and_eq_true, decide_eq_true_eq]
        exact ⟨reachable, starts⟩

/-- **Prefix search is exact exactly when** every file indexed by the column is
answered: always, for a prefix that is not empty, has no NUL and does not end in
U+10FFFF.  A file is its index entry, listed under the path its record reads back as.  Every
column that was indexed opens (`opens_of_content`). -/
theorem prefixSearch_exact_iff {root : IndexRoot} {engine : IndexQueryEngine}
    {content : IndexedContent} (written : WrittenFrom root content)
    (loads : IndexQueryEngine.Loads root (.new root) engine) (column : Column)
    (opens : Opens column) (pfx : Str) :
    (engine.prefixSearch root column pfx).1 =
        .ok (reported engine.fileMap (contentAnswer content column fun file =>
          rowGroupsHolding file column fun v => pfx.isPrefixOf v)) ↔
      ∀ fileHash file, content fileHash column = some file →
        PrefixAnswered file column pfx := by
  have result : (engine.prefixSearch root column pfx).1 =
      .ok (reported engine.fileMap (contentAnswer content column fun file =>
        rowGroupsHolding file column (prefixFinds pfx))) :=
    IndexQueryEngine.searchAll_written written loads (fun _ _ => opens) fun _ file _ =>
      prefixSearchSet_columnKeys file column pfx
  have part : ∀ fileHash,
      (contentAnswer content column (fun file => rowGroupsHolding file column (prefixFinds pfx))
        fileHash).Sublist
      (contentAnswer content column (fun file => rowGroupsHolding file column fun v =>
        pfx.isPrefixOf v) fileHash) := by
    intro fileHash
    unfold contentAnswer
    cases content fileHash column with
    | none => exact List.Sublist.refl _
    | some file => exact rowGroupsHolding_sublist (fun v => startsWith_of_prefixFinds) file column
  rw [result, Except.ok.injEq, reported_eq_iff part]
  constructor
  · intro exact fileHash file held
    have same := exact fileHash (IndexQueryEngine.mem_fileMap_of_content written loads held)
    simp only [contentAnswer, held, Option.map_some, Option.getD_some] at same
    exact (rowGroupsHolding_prefix_iff file column pfx).mp same
  · intro answered fileHash _
    unfold contentAnswer
    cases held : content fileHash column with
    | none => rfl
    | some file => exact (rowGroupsHolding_prefix_iff file column pfx).mpr (answered fileHash file held)

/-! ## A character at the surrogate gap, and the empty prefix -/

/-- The last character before the surrogates. -/
def beforeSurrogates : Char := Char.ofNat 0xD7FF

def gapFile : FileTree.DataFile where
  mtime := 1700000000
  size := 1024
  content := .ofStrings sampleColumn
    [[some "a".toList], [some ['a', beforeSurrogates, 'b'], none],
      [some ['a', Char.ofNat 0xE000]]] (by decide)

theorem prefixSearch_sample :
    ((IndexQueryEngine.new (singleRoot samplePath gapFile sampleColumn)).prefixSearch
        (singleRoot samplePath gapFile sampleColumn) sampleColumn ['a', beforeSurrogates]).1 =
      .ok [⟨samplePath, [1]⟩] := by
  refine (prefixSearch_exact_iff (writtenFrom_single samplePath gapFile named_sampleColumn)
    (.refl _ _) sampleColumn (by decide) ['a', beforeSurrogates]).mpr fun _ file _ => ?_
  exact ⟨fun empty => absurd empty (by decide), fun bad => absurd bad (by decide)⟩

/-- The empty prefix starts every value, and finds none of those that are not empty
and do not start with a NUL. -/
theorem empty_prefix_refuted :
    WrittenFrom (singleRoot samplePath sampleFile sampleColumn)
        (singleContent samplePath sampleFile sampleColumn) ∧
      ((IndexQueryEngine.new (singleRoot samplePath sampleFile sampleColumn)).prefixSearch
        (singleRoot samplePath sampleFile sampleColumn) sampleColumn []).1 = .ok [] ∧
      reported (IndexQueryEngine.new (singleRoot samplePath sampleFile sampleColumn)).fileMap
          (contentAnswer (singleContent samplePath sampleFile sampleColumn) sampleColumn
            fun file => rowGroupsHolding file sampleColumn fun v => [].isPrefixOf v) =
        [⟨samplePath, [0]⟩] :=
  ⟨writtenFrom_single _ _ named_sampleColumn, rfl, by decide⟩

end Pdq
