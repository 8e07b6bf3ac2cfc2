/- Pdq.Query.RangeSearch -- the inclusive range lookup.

`range_search` reads the keys from `start NUL` to `end SOH`.  NUL is the least
symbol and closes every value, so for texts without NUL the order of the closed
words is that of the bare ones (`rangeKeys_iff`), and the row groups reported are
those that hold a value between the two ends (`rangeSearch_exact`). -/
import Pdq.Query.Written

namespace Pdq

open Theory KeyFormat

set_option autoImplicit false

/-- `IndexQueryEngine::range_search_set` -/
def rangeSearchSet (set : FstSet) (start last : Str) : Except QueryError (List Nat) := do
  let rowGroups ← (set.range (startKey start) (endKey last)).foldlM insertRowGroup SortedSet.empty
  return rowGroups.toList

/-- `IndexQueryEngine::range_search` -/
def IndexQueryEngine.rangeSearch (root : IndexRoot) (engine : IndexQueryEngine) (column : Column)
    (start last : Str) : Except QueryError (List FileMatches) × IndexQueryEngine :=
  searchAll root engine column fun set => rangeSearchSet set start last

/-- The exact lookup is the range lookup from the term to itself. -/
theorem searchSet_eq_rangeSearchSet (set : FstSet) (term : Str) :
    searchSet set term = rangeSearchSet set term term := rfl

/-! ## The keys of a range -/

/-- **Which keys a range lookup reads**: those of the values between the ends. -/
theorem rangeKeys_iff {start last v : Str} (cleanStart : ¬ valueRgSeparator ∈ start)
    (cleanLast : ¬ valueRgSeparator ∈ last) (cleanValue : ¬ valueRgSeparator ∈ v) (n : Nat) :
    startKey start ≤ keyBytes v n ∧ keyBytes v n < endKey last ↔
      utf8 start ≤ utf8 v ∧ utf8 v ≤ utf8 last := by
  rw [startKey, endKey, keyBytes_eq, utf8_append, utf8_append, utf8_separator, utf8_marker,
    terminated_le_iff zero_least _ (mt zero_mem_utf8.mp cleanStart) (mt zero_mem_utf8.mp cleanValue),
    terminated_lt_iff zero_least zero_covBy_one _ (mt zero_mem_utf8.mp cleanLast)
      (mt zero_mem_utf8.mp cleanValue)]

/-- The value stands between the ends in byte order. -/
def between (start last v : Str) : Bool :=
  decide (utf8 start ≤ utf8 v) && decide (utf8 v ≤ utf8 last)

/-- **The answer of an index FST to a range lookup**, over values without NUL. -/
theorem rangeSearchSet_columnKeys {file : ParquetFile} {column : Column} {start last : Str}
    (cleanStart : ¬ valueRgSeparator ∈ start) (cleanLast : ¬ valueRgSeparator ∈ last)
    (cleanValues : ∀ g v, file.HoldsValue column g v → ¬ valueRgSeparator ∈ v) :
    rangeSearchSet (columnKeys file column) start last =
      .ok (rowGroupsHolding file column (between start last)) := by
  obtain ⟨rowGroups, returned, members⟩ := rangeLoop_columnKeys insertRowGroup (fun _ => true)
    file column (startKey start) (endKey last) fun v g fits t => insertRowGroup_key v fits t
  have listed : rowGroups.toList = rowGroupsHolding file column (between start last) := by
    refine eq_rowGroupsHolding rowGroups.sorted fun g => (members g).trans ?_
    refine exists_congr fun v => and_congr_right fun holds => ?_
    rw [rangeKeys_iff cleanStart cleanLast (cleanValues g v holds)]
    simp [between]
  rw [← listed]
  simp only [rangeSearchSet, returned]
  rfl

/-! ## The search -/

/-- **Range search is exact and inclusive at both ends.**  A file is its index entry, listed
under the path its record reads back as.  Every column that was indexed opens
(`opens_of_content`). -/
theorem rangeSearch_exact {root : IndexRoot} {engine : IndexQueryEngine} {content : IndexedContent}
    (written : WrittenFrom root content)
    (loads : IndexQueryEngine.Loads root (.new root) engine) {column : Column}
    (opens : Opens column) {start last : Str}
    (cleanStart : ¬ valueRgSeparator ∈ start) (cleanLast : ¬ valueRgSeparator ∈ last)
    (cleanValues : ∀ fileHash file, content fileHash column = some file →
      ∀ g v, file.HoldsValue column g v → ¬ valueRgSeparator ∈ v) :
    (engine.rangeSearch root column start last).1 =
        .ok (reported engine.fileMap (contentAnswer content column fun file =>
          rowGroupsHolding file column (between start last))) ∧
      (utf8 last < utf8 start → (engine.rangeSearch root column start last).1 = .ok []) := by
  have result : (engine.rangeSearch root column start last).1 =
      .ok (reported engine.fileMap (contentAnswer content column fun file =>
        rowGroupsHolding file column (between start last))) :=
    IndexQueryEngine.searchAll_written written loads (fun _ _ => opens) fun fileHash file held =>
      rangeSearchSet_columnKeys cleanStart cleanLast (cleanValues fileHash file held)
  refine ⟨result, fun reversed => ?_⟩
  rw [result]
  refine congrArg Except.ok (reported_eq_nil fun fileHash => ?_)
  rw [contentAnswer]
  cases content fileHash column with
  | none => rfl
  | some file =>
      refine rowGroupsHolding_eq_nil.mpr fun g v _ => ?_
      rw [between, Bool.and_eq_false_iff, decide_eq_false_iff_not, decide_eq_false_iff_not]
      by_contra both
      rw [not_or, not_not, not_not] at both
      exact absurd (both.1.trans both.2) (not_le.mpr reversed)

/-- Row groups 0 and 2 hold a name from `a` to `b`, and `b SOH` is above both. -/
def namesFile : FileTree.DataFile where
  mtime := 1700000000
  size := 1024
  content := .ofStrings sampleColumn
    [["b".toList, none], ["b\x01".toList, "c".toList], ["a\x01".toList], []] (by decide)

theorem rangeSearch_sample :
    ((IndexQueryEngine.new (singleRoot samplePath namesFile sampleColumn)).rangeSearch
        (singleRoot samplePath namesFile sampleColumn) sampleColumn "a".toList "b".toList).1 =
      .ok [⟨samplePath, [0, 2]⟩] := by
  have clean : ∀ g v, namesFile.content.HoldsValue sampleColumn g v → ¬ valueRgSeparator ∈ v :=
    forall_holdsValue_iff.mpr (by decide)
  exact (rangeSearch_exact (writtenFrom_single _ _ named_sampleColumn) (.refl _ _) (by decide)
    (by decide) (by decide) fun fileHash file held => eq_of_singleContent held ▸ clean).1

end Pdq
