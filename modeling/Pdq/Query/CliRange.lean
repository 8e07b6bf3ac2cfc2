/- Pdq.Query.CliRange -- the range lookup of the command line.

`pdq search --type range` searches from the term to the term followed by `~`,
the last printable ASCII character.  The bound holds for values that continue the
term with a smaller character, and not for those that continue it with a greater
one, as every non-ASCII character is, or with `~` and more (`cliRange_key_iff`).
`cliRange_covers_iff` says of every directory and term whether some continuation
is missed. -/
import Pdq.Query.RangeSearch

namespace Pdq

open Theory KeyFormat

set_option autoImplicit false

/-- `format!("{term}~")` -/
def endTerm (term : Str) : Str := term ++ ['~']

/-- The range branch of the `search` subcommand. -/
def cliRangeSearch (root : IndexRoot) (engine : IndexQueryEngine) (column : Column) (term : Str) :
    Except QueryError (List FileMatches) × IndexQueryEngine :=
  engine.rangeSearch root column term (endTerm term)

/-! ## Which keys it reads -/

/-- The key of the value continues the term below the bound: with a character
smaller than `~`, or with `~` and the separator. -/
def BelowTilde (term v : Str) (rowGroup : Nat) : Prop :=
  ∃ c rest, keyBuffer v rowGroup = term ++ c :: rest ∧
    (c < '~' ∨ c = '~' ∧ [valueRgSeparator] <+: rest)

/-- The last character of a key is a digit. -/
theorem keyBuffer_ne_concat {c : Char} (other : c.isDigit = false) (v front : Str) (n : Nat) :
    keyBuffer v n ≠ front ++ [c] := by
  intro same
  have last : (decimal n).getLast? = some c := by
    have ends := congrArg List.getLast? same
    rwa [keyBuffer, appendUsize, List.getLast?_append_of_ne_nil _ (decimal_ne_nil n),
      List.getLast?_concat] at ends
  exact not_mem_decimal other (List.mem_of_getLast? last)

/-- A text that is not empty is from the separator on. -/
theorem separator_le_utf8 {s : Str} (nonempty : s ≠ []) : [0] ≤ utf8 s := by
  cases bytes : utf8 s with
  | nil => exact absurd (utf8_injective (bytes.trans utf8_nil.symm)) nonempty
  | cons b rest => exact singleton_le_cons zero_least b rest

/-- It is below the marker exactly when it starts with the separator. -/
theorem lt_marker_iff {s : Str} (nonempty : s ≠ []) :
    utf8 s < [1] ↔ [valueRgSeparator] <+: s := by
  rw [← utf8_prefix_iff, utf8_separator, ← between_singletons_iff zero_covBy_one]
  exact (and_iff_right (separator_le_utf8 nonempty)).symm

theorem endKey_endTerm (term : Str) : endKey (endTerm term) = utf8 term ++ [126, 1] := by
  have bound : utf8 ['~', rangeUpperBoundMarker] = [126, 1] := by decide
  rw [endKey, endTerm, List.append_assoc, utf8_append]
  exact congrArg (utf8 term ++ ·) bound

/-- What comes after the term is below the bound by its first character, and after
a `~` by what follows. -/
theorem continuation_lt_iff {c : Char} {rest : Str} (followed : c = '~' → rest ≠ []) :
    utf8 (c :: rest) < [126, 1] ↔ c < '~' ∨ c = '~' ∧ [valueRgSeparator] <+: rest := by
  have bound : ([126, 1] : Bytes) = String.utf8EncodeChar '~' ++ [1] := by decide
  rw [utf8_cons, bound]
  rcases lt_trichotomy c '~' with less | rfl | greater
  · exact iff_of_true (utf8EncodeChar_lt less _ _) (Or.inl less)
  · rw [append_lt_append_same, lt_marker_iff (followed rfl)]
    simp
  · refine iff_of_false (utf8EncodeChar_lt greater _ _).asymm ?_
    rintro (less | ⟨rfl, -⟩)
    · exact greater.asymm less
    · exact lt_irrefl _ greater

/-- **Which keys the lookup reads**: those that continue the term below the
bound. -/
theorem cliRange_key_iff (term v : Str) (n : Nat) :
    startKey term ≤ keyBytes v n ∧ keyBytes v n < endKey (endTerm term) ↔ BelowTilde term v n := by
  have followed : ∀ {c rest}, keyBuffer v n = term ++ c :: rest → c = '~' → rest ≠ [] := by
    rintro c rest split rfl rfl
    exact keyBuffer_ne_concat (by decide) v term n split
  rw [startKey, utf8_append, utf8_separator, endKey_endTerm, keyBytes]
  constructor
  · rintro ⟨lower, upper⟩
    have beyond : utf8 term ++ [126, 1] < utf8 term ++ [127] :=
      (append_lt_append_same _).mpr (by decide)
    obtain ⟨later, split⟩ : term <+: keyBuffer v n :=
      utf8_prefix_iff.mp (prefix_of_between _ _ lower (upper.trans beyond))
    rw [← split, utf8_append, append_le_append_same] at lower
    rw [← split, utf8_append, append_lt_append_same] at upper
    cases later with
    | nil => exact absurd lower (by simp)
    | cons c rest =>
        exact ⟨c, rest, split.symm, (continuation_lt_iff (followed split.symm)).mp upper⟩
  · rintro ⟨c, rest, split, below⟩
    rw [split, utf8_append, append_le_append_same, append_lt_append_same]
    exact ⟨separator_le_utf8 (by simp), (continuation_lt_iff (followed split)).mpr below⟩

/-- For a term without NUL those are the keys of the term itself and of the values
that continue it with a smaller character than `~`, or with `~` and no more before
the end or a NUL. -/
theorem belowTilde_iff {term : Str} (clean : ¬ valueRgSeparator ∈ term) (v : Str) (n : Nat) :
    BelowTilde term v n ↔ ∃ later, v = term ++ later ∧
      ∀ c rest, later = c :: rest →
        c < '~' ∨ c = '~' ∧ (rest = [] ∨ [valueRgSeparator] <+: rest) := by
  have key : keyBuffer v n = v ++ valueRgSeparator :: (rowGroupPrefix ++ decimal n) := by
    simp [keyBuffer, appendUsize]
  unfold BelowTilde
  rw [key]
  constructor
  · rintro ⟨c, rest, split, below⟩
    obtain ⟨later, rfl⟩ : term <+: v := by
      rcases List.append_eq_append_iff.mp split with ⟨more, rfl, tails⟩ | ⟨more, rfl, -⟩
      · cases more with
        | nil => exact ⟨[], by simp⟩
        | cons d more =>
            obtain ⟨rfl, -⟩ := List.cons.inj tails
            exact absurd (by simp) clean
      · exact ⟨more, rfl⟩
    refine ⟨later, rfl, ?_⟩
    rintro c' rest' rfl
    rw [List.append_assoc, List.append_cancel_left_eq] at split
    obtain ⟨rfl, rfl⟩ := List.cons.inj split
    rcases below with less | ⟨same, starts⟩
    · exact Or.inl less
    · refine Or.inr ⟨same, ?_⟩
      cases rest' with
      | nil => exact Or.inl rfl
      | cons d rest' =>
          obtain ⟨rfl, -⟩ := List.cons_prefix_cons.mp starts
          exact Or.inr ⟨rest', rfl⟩
  · rintro ⟨later, rfl, below⟩
    cases later with
    | nil => exact ⟨valueRgSeparator, rowGroupPrefix ++ decimal n, by simp, Or.inl (by decide)⟩
    | cons c rest =>
        refine ⟨c, _, List.append_assoc _ _ _, (below c rest rfl).imp_right ?_⟩
        rintro ⟨same, rfl | starts⟩
        · exact ⟨same, _, rfl⟩
        · exact ⟨same, starts.trans (List.prefix_append _ _)⟩

/-! ## The report -/

/-- The range branch returns, and reports row group `g` for the file with this
hash. -/
def RangeReports (root : IndexRoot) (engine : IndexQueryEngine) (column : Column)
    (term fileHash : Str) (g : Nat) : Prop :=
  ∃ results, (cliRangeSearch root engine column term).1 = .ok results ∧
    ∃ fileMatch ∈ results, engine.fileMap.lookup fileHash = some fileMatch.filePath ∧
      engine.fileAnswer root column (fun set => rangeSearchSet set term (endTerm term)) fileHash =
        .ok fileMatch.rowGroups ∧ g ∈ fileMatch.rowGroups

/-- The answer of an index FST. -/
theorem cliRange_columnKeys (file : ParquetFile) (column : Column) (term : Str) :
    ∃ rowGroups, rangeSearchSet (columnKeys file column) term (endTerm term) = .ok rowGroups ∧
      ∀ g, g ∈ rowGroups ↔ ∃ v, file.HoldsValue column g v ∧ BelowTilde term v g := by
  obtain ⟨rowGroups, returned, members⟩ := rangeLoop_columnKeys insertRowGroup (fun _ => true)
    file column (startKey term) (endKey (endTerm term)) fun v g fits t =>
      insertRowGroup_key v fits t
  refine ⟨rowGroups.toList, by simp only [rangeSearchSet, returned]; rfl, fun g => ?_⟩
  simp only [SortedSet.mem_toList, members, cliRange_key_iff, and_true]

section Report

variable {root : IndexRoot} {engine : IndexQueryEngine} {content : IndexedContent}
  {column : Column} {term : Str}

/-- **What the range branch reports** of a file. -/
theorem rangeReports_iff (written : WrittenFrom root content)
    (loads : IndexQueryEngine.Loads root (.new root) engine) {fileHash : Str} {file : ParquetFile}
    (held : content fileHash column = some file) (g : Nat) :
    RangeReports root engine column term fileHash g ↔
      ∃ v, file.HoldsValue column g v ∧ BelowTilde term v g := by
  choose rows returned members using fun file => cliRange_columnKeys file column term
  have answered : engine.fileAnswer root column
      (fun set => rangeSearchSet set term (endTerm term)) fileHash = .ok (rows file) := by
    rw [IndexQueryEngine.fileAnswer, IndexQueryEngine.fstFor_written written loads, held]
    exact returned file
  have result : (cliRangeSearch root engine column term).1 =
      .ok (reported engine.fileMap (contentAnswer content column rows)) :=
    IndexQueryEngine.searchAll_written written loads
      (fun _ _ => IndexQueryEngine.opens_of_content written held) fun _ file _ => returned file
  rw [← members file g]
  constructor
  · rintro ⟨-, -, fileMatch, -, -, answered', member⟩
    rw [answered] at answered'
    rwa [Except.ok.inj answered']
  · intro member
    obtain ⟨path, mapped⟩ := FiniteMap.mem_iff_lookup.mp
      (IndexQueryEngine.mem_fileMap_of_content written loads held)
    refine ⟨_, result, ⟨path, rows file⟩, ?_, mapped, answered, member⟩
    refine List.mem_filterMap.mpr ⟨⟨fileHash, path⟩, FiniteMap.mem_entries_iff.mpr mapped, ?_⟩
    have here : contentAnswer content column rows fileHash = rows file := by
      simp [contentAnswer, held]
    have some : (rows file).isEmpty = false := by
      simpa using List.ne_nil_of_mem member
    simp [here, some]

/-- **The range lookup covers every continuation of its term exactly when** each
row group with a continuation has a key below the bound.  A file is its index entry, listed
under the path its record reads back as. -/
theorem cliRange_covers_iff (written : WrittenFrom root content)
    (loads : IndexQueryEngine.Loads root (.new root) engine) (column : Column) (term : Str) :
    (∀ fileHash file, content fileHash column = some file →
        ∀ g v, file.HoldsValue column g v → term <+: v →
          RangeReports root engine column term fileHash g) ↔
      ∀ fileHash file, content fileHash column = some file →
        ∀ g v, file.HoldsValue column g v → term <+: v →
          ∃ w, file.HoldsValue column g w ∧ BelowTilde term w g := by
  refine forall₃_congr fun fileHash file held => ?_
  simp only [rangeReports_iff written loads held]

end Report

/-! ## Continuations in and out of range -/

/-- `a`, `ab` and `a~` are below the bound; `a~b` and an `a` before a letter that is
not ASCII are above. -/
def continuedFile : FileTree.DataFile where
  mtime := 1700000000
  size := 1024
  content := .ofStrings sampleColumn
    [["a".toList], ["ab".toList], ["a~".toList], ["a~b".toList], ["aé".toList]] (by decide)

theorem cliRange_covers_sample :
    RangeReports (singleRoot samplePath namesFile sampleColumn)
      (.new (singleRoot samplePath namesFile sampleColumn)) sampleColumn "b".toList
      (sampleHash samplePath) 0 := by
  have values : ∀ g v, namesFile.content.HoldsValue sampleColumn g v →
      "b".toList.isPrefixOf v = true → v = "b".toList ∨ v = "b\x01".toList :=
    forall_holdsValue_iff.mpr (by decide)
  refine (cliRange_covers_iff (writtenFrom_single samplePath namesFile named_sampleColumn)
    (.refl _ _) sampleColumn "b".toList).mpr ?_ (sampleHash samplePath) namesFile.content ?_ 0
    "b".toList
    (by decide) List.prefix_rfl
  · intro fileHash file held g v holds starts
    obtain rfl := eq_of_singleContent held
    refine ⟨v, holds, (belowTilde_iff (by decide) v g).mpr ?_⟩
    rcases values g v holds (List.isPrefixOf_iff_prefix.mpr starts) with rfl | rfl
    · exact ⟨[], rfl, fun c rest empty => by cases empty⟩
    · refine ⟨"\x01".toList, rfl, ?_⟩
      rintro c rest whole
      obtain ⟨rfl, -⟩ := List.cons.inj whole
      exact Or.inl (by decide)
  · exact IndexedContent.written_same _ _ _ _

/-- The row groups of `a~b` and of the accented value are missed. -/
theorem missed_continuation_refuted :
    WrittenFrom (singleRoot samplePath continuedFile sampleColumn)
        (singleContent samplePath continuedFile sampleColumn) ∧
      (∀ g < 5, ∃ v, continuedFile.content.HoldsValue sampleColumn g v ∧ "a".toList <+: v) ∧
      (cliRangeSearch (singleRoot samplePath continuedFile sampleColumn)
        (.new (singleRoot samplePath continuedFile sampleColumn)) sampleColumn "a".toList).1 =
          .ok [⟨samplePath, [0, 1, 2]⟩] := by
  refine ⟨writtenFrom_single _ _ named_sampleColumn, fun g below => ?_, by decide⟩
  match g with
  | 0 => exact ⟨"a".toList, by decide, by decide⟩
  | 1 => exact ⟨"ab".toList, by decide, by decide⟩
  | 2 => exact ⟨"a~".toList, by decide, by decide⟩
  | 3 => exact ⟨"a~b".toList, by decide, by decide⟩
  | 4 => exact ⟨"a\u00e9".toList, by decide, by decide⟩

end Pdq
