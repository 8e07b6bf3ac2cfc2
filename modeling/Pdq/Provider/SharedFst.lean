/- Pdq.Provider.SharedFst -- a pruned query over columns that share an FST file.

Two columns whose `{column}.fst` is one file are answered from one key set, that of the
column indexed first.  A filter on each then meets what the first column holds with what it
holds elsewhere, and a row group with the row asked for is pruned (`crossed_unplanned`).  So
a pruned query reads what a full read would, for all files and filters over some columns,
exactly when the columns have files of their own (`scan_perm_bruteForce_iff`). -/
import Pdq.Provider.BruteForce
import Pdq.Index.Convergence

namespace Pdq

open Theory

set_option autoImplicit false

/-! ## A file whose columns are crossed -/

/-- What `other` holds in the first row group, `column` holds in the second. -/
def crossedFile (column other : Column) : FileTree.DataFile :=
  pairFile 1700000000 column other [(['a'], ['b']), (['b'], ['c'])] (by decide)

def crossedTree (column other : Column) : FileTree :=
  singleTree samplePath (crossedFile column other)

/-- The index of the file by its first column. -/
def crossedRoot (calculateFileHash : Path → Str) (column other : Column) : IndexRoot :=
  AList.insert (calculateFileHash samplePath)
    (IndexDir.empty.indexed samplePath (crossedFile column other) column) ∅

def equals (column : Column) (text : Str) : Expr :=
  .binaryExpr (.column column) .eq (.literal (.string .utf8 (some text)))

/-- The two columns, as the first row group holds them. -/
def crossedFilters (column other : Column) : List Expr := [equals column ['a'], equals other ['b']]

section Crossed

variable {calculateFileHash : Path → Str} {column other : Column}

variable (other) in
theorem crossed_built (named : fstFile column ≠ none) :
    buildIndex calculateFileHash (crossedTree column other) ∅ sampleDir column =
      .ok (crossedRoot calculateFileHash column other) := by
  have walk : (crossedTree column other).parquetEntries sampleDir = [samplePath] :=
    parquetEntries_sample _
  have found : (crossedTree column other).dataFile? samplePath = some (crossedFile column other) :=
    dataFile_singleTree _ _
  rw [buildIndex, buildIndex_of_single walk]
  exact indexEntry_of_missing found named (IndexDir.fst_empty column)

/-- Every column with the file of the first is answered from its keys. -/
theorem crossed_fst (named : fstFile column ≠ none) {asked : Column}
    (same : fstFile asked = fstFile column) :
    ((crossedRoot calculateFileHash column other).dir (calculateFileHash samplePath)).fst asked =
      some (.valid (columnKeys (crossedFile column other).content column)) := by
  rw [crossedRoot, IndexRoot.dir_insert_self]
  exact IndexDir.indexed_fst_same _ _ _ named same

variable (calculateFileHash other) in
/-- The answer to a column with the file of the first. -/
theorem crossed_answer (named : fstFile column ≠ none) {asked : Column}
    (same : fstFile asked = fstFile column) (text : Str) (fileHash : Str) :
    ∃ rowGroups, (IndexQueryEngine.new (crossedRoot calculateFileHash column other)).fileAnswer
        (crossedRoot calculateFileHash column other) asked (fun set => searchSet set text)
        fileHash = .ok rowGroups ∧
      (fileHash = calculateFileHash samplePath → ∀ g, g ∈ rowGroups ↔
        ∃ v, (crossedFile column other).content.HoldsValue column g v ∧
          (v = text ∨ text ++ [KeyFormat.valueRgSeparator] <+: v)) := by
  obtain ⟨rowGroups, searched, -, members⟩ :=
    searchSet_columnKeys (crossedFile column other).content column text
  by_cases here : fileHash = calculateFileHash samplePath
  · subst here
    refine ⟨rowGroups, ?_, fun _ => members⟩
    simp only [IndexQueryEngine.fileAnswer, IndexQueryEngine.new_fstFor, crossed_fst named same,
      searched]
  · refine ⟨[], ?_, fun there => absurd there here⟩
    have missing :
        ((crossedRoot calculateFileHash column other).dir fileHash).fst asked = none := by
      rw [crossedRoot, IndexRoot.dir_insert_ne _ here]
      exact IndexDir.fst_empty asked
    have opens : Opens asked := opens_of_named (same ▸ named)
    simp only [IndexQueryEngine.fileAnswer, IndexQueryEngine.new_fstFor, missing, opens, if_true]

/-- The value of the first column in one row group. -/
theorem crossed_value {g : Nat} {v : Str} :
    (crossedFile column other).content.HoldsValue column g v ↔
      g = 0 ∧ v = ['a'] ∨ g = 1 ∧ v = ['b'] := by
  rw [crossedFile, holdsValue_pairFile]
  match g with
  | 0 => simp
  | 1 => simp
  | g + 2 => simp

variable (calculateFileHash other) in
/-- The filter on a column with the file of the first matches the one row group in which the
first column holds the text. -/
theorem crossed_match (named : fstFile column ≠ none) {asked : Column}
    (same : fstFile asked = fstFile column) {text : Str} {only : Nat}
    (holds : ∀ g, (∃ v, (crossedFile column other).content.HoldsValue column g v ∧
      (v = text ∨ text ++ [KeyFormat.valueRgSeparator] <+: v)) ↔ g = only) :
    ∃ fileMatch ∈ filterMatches (crossedRoot calculateFileHash column other)
        (.new (crossedRoot calculateFileHash column other)) (equals asked text),
      fileMatch.filePath = samplePath ∧ ∀ g ∈ fileMatch.rowGroups, g = only := by
  obtain ⟨rowGroups, answered, members⟩ := crossed_answer calculateFileHash other named same text
    (calculateFileHash samplePath)
  have searched : ∃ results, ((IndexQueryEngine.new
      (crossedRoot calculateFileHash column other)).exactSearch
      (crossedRoot calculateFileHash column other) asked text).1 = .ok results := by
    cases result : ((IndexQueryEngine.new
        (crossedRoot calculateFileHash column other)).exactSearch
        (crossedRoot calculateFileHash column other) asked text).1 with
    | ok results => exact ⟨results, rfl⟩
    | error e =>
        obtain ⟨fileHash, -, e', failed⟩ := IndexQueryEngine.exactSearch_error_iff.mp ⟨e, result⟩
        obtain ⟨_, answered, -⟩ := crossed_answer calculateFileHash other named same text
          fileHash
        cases answered.symm.trans failed
  have member : only ∈ rowGroups := (members rfl only).mpr ((holds only).mpr rfl)
  have mapped : (IndexQueryEngine.new (crossedRoot calculateFileHash column other)).fileMap.lookup
      (calculateFileHash samplePath) = some samplePath := by
    rw [IndexQueryEngine.new_fileMap, crossedRoot, AList.lookup_insert, Option.map_some,
      IndexDir.mapEntry_recorded oneLine_samplePath (IndexDir.indexed_metadata _ _ _ _)]
  refine ⟨⟨samplePath, rowGroups⟩, mem_filterMatches_iff.mpr ⟨asked, text,
    extractEqualityFilter_iff.mpr ⟨_, Or.inl rfl, rfl⟩, searched, _, mapped, answered,
    List.ne_nil_of_mem member⟩, rfl, fun g inGroups => ?_⟩
  exact (holds g).mp ((members rfl g).mp inGroups)

/-- The file map has the one path. -/
theorem crossed_path {fileHash : Str} {path : Path}
    (mapped : (IndexQueryEngine.new (crossedRoot calculateFileHash column other)).fileMap.lookup
      fileHash = some path) : path = samplePath := by
  rw [IndexQueryEngine.new_fileMap] at mapped
  obtain ⟨indexDir, present, same⟩ := Option.map_eq_some_iff.mp mapped
  by_cases here : fileHash = calculateFileHash samplePath
  · subst here
    rw [crossedRoot, AList.lookup_insert] at present
    cases present
    rw [IndexDir.mapEntry_recorded oneLine_samplePath (IndexDir.indexed_metadata _ _ _ _)] at same
    exact same.symm
  · rw [crossedRoot, AList.lookup_insert_ne here] at present
    cases present

theorem crossed_first {g : Nat} :
    (∃ v, (crossedFile column other).content.HoldsValue column g v ∧
      (v = ['a'] ∨ ['a'] ++ [KeyFormat.valueRgSeparator] <+: v)) ↔ g = 0 := by
  constructor
  · rintro ⟨v, holds, read⟩
    rcases crossed_value.mp holds with ⟨rfl, rfl⟩ | ⟨rfl, rfl⟩
    · rfl
    · simp at read
  · rintro rfl
    exact ⟨_, crossed_value.mpr (Or.inl ⟨rfl, rfl⟩), Or.inl rfl⟩

theorem crossed_second {g : Nat} :
    (∃ v, (crossedFile column other).content.HoldsValue column g v ∧
      (v = ['b'] ∨ ['b'] ++ [KeyFormat.valueRgSeparator] <+: v)) ↔ g = 1 := by
  constructor
  · rintro ⟨v, holds, read⟩
    rcases crossed_value.mp holds with ⟨rfl, rfl⟩ | ⟨rfl, rfl⟩
    · simp at read
    · rfl
  · rintro rfl
    exact ⟨_, crossed_value.mpr (Or.inr ⟨rfl, rfl⟩), Or.inl rfl⟩

/-- **The row group with the row asked for is not planned.** -/
theorem crossed_unplanned (same : fstFile other = fstFile column) (named : fstFile column ≠ none)
    {session : Session} {plan : ScanPlan}
    (returned : (scan calculateFileHash session (crossedTree column other)
      (crossedRoot calculateFileHash column other)
      (.new (crossedRoot calculateFileHash column other)) (crossedFilters column other)).1 =
        .ok plan) : plan.files = [] := by
  rw [scan_files returned, List.filterMap_eq_nil_iff]
  intro entry member
  by_contra planned
  obtain ⟨file, planned⟩ := Option.ne_none_iff_exists'.mp planned
  obtain ⟨path, -, totalRgs, lead, -, -, reads, -⟩ := plannedFile_eq_some_iff.mp planned
  obtain ⟨g, read⟩ := List.exists_mem_of_ne_nil _ reads
  rw [ParquetAccessPlan.rowGroupIndexes_ofRowGroups, List.mem_filter, decide_eq_true_eq,
    SortedSet.mem_toList] at read
  -- Both filters have a match in the one file, and the row group would be in both.
  obtain ⟨hashed, fileMatch, matched, rfl⟩ := pruned_hashToPath lead
  obtain ⟨filter, -, inMatches⟩ := List.mem_flatMap.mp matched
  obtain ⟨-, -, -, -, fileHash, mapped, -⟩ := mem_filterMatches_iff.mp inMatches
  rw [crossed_path mapped] at hashed
  have left := FiniteMap.mem_entries_iff.mp member
  obtain ⟨first, inFirst, here, onlyFirst⟩ :=
    crossed_match calculateFileHash other named rfl
      fun g => crossed_first
  obtain ⟨second, inSecond, here', onlySecond⟩ :=
    crossed_match calculateFileHash other named same
      fun g => crossed_second
  have zero := onlyFirst g (mem_match_of_pruned left read.2 List.mem_cons_self inFirst
    (by rw [here, hashed]))
  have one := onlySecond g (mem_match_of_pruned left read.2
    (List.mem_cons_of_mem _ List.mem_cons_self) inSecond (by rw [here', hashed]))
  omega

/-- The row of the first row group satisfies both filters. -/
theorem crossed_row (ne : other ≠ column) (semantics : FilterSemantics) :
    (pairBatch column other (['a'], ['b'])).row 0 ∈
      (allRows (crossedTree column other) sampleDir).filter
        (satisfiesAll semantics.holds (crossedFilters column other)) := by
  have walk : (crossedTree column other).parquetEntries sampleDir = [samplePath] :=
    parquetEntries_sample _
  have found : (crossedTree column other).dataFile? samplePath = some (crossedFile column other) :=
    dataFile_singleTree _ _
  have first : semantics.holds (equals column ['a'])
      ((pairBatch column other (['a'], ['b'])).row 0) = true :=
    (semantics.equality_utf8 (Or.inl rfl) (row_pairBatch _ _ _)).mpr ⟨_, rfl, rfl⟩
  have second : semantics.holds (equals other ['b'])
      ((pairBatch column other (['a'], ['b'])).row 0) = true :=
    (semantics.equality_utf8 (Or.inl rfl) (row_pairBatch_ne ne _)).mpr ⟨_, rfl, rfl⟩
  rw [List.mem_filter, allRows, walk, List.flatMap_singleton,
    FileTree.openParquet_of_dataFile found]
  refine ⟨List.mem_flatMap.mpr ⟨_, List.mem_cons_self, List.mem_singleton.mpr rfl⟩, ?_⟩
  simp [satisfiesAll, crossedFilters, first, second]

theorem crossed_wellNamed :
    WellNamed calculateFileHash (crossedTree column other) sampleDir where
  distinctHashes := by
    rw [crossedTree, parquetEntries_sample]
    simp
  distinctFiles := by simp [crossedTree, parquetEntries_sample]
  noFeed := by
    intro path member
    rw [crossedTree, parquetEntries_sample] at member
    rw [List.mem_singleton.mp member]
    decide
  stored := fun _ _ _ _ => rfl

theorem crossed_compares {columns : Set Column} (member : column ∈ columns)
    (member' : other ∈ columns) :
    ComparesStrings (crossedTree column other) sampleDir column columns
      (crossedFilters column other) where
  within := by
    intro filter inFilters asked value equality
    rcases List.mem_pair.mp inFilters with rfl | rfl <;> rcases equality with same | same <;>
      cases same
    · exact member
    · exact member'
  utf8 := by
    intro path inWalk file found
    rw [crossedTree, parquetEntries_sample] at inWalk
    rw [List.mem_singleton.mp inWalk, crossedTree, dataFile_singleTree] at found
    cases found
    exact utf8Column_of_holdsValue (crossed_value.mpr (Or.inl ⟨rfl, rfl⟩))
  equality := ⟨_, List.mem_cons_self, .utf8, some ['a'], Or.inl rfl⟩
  literals := by
    intro filter inFilters asked value equality _
    rcases List.mem_pair.mp inFilters with rfl | rfl <;> rcases equality with same | same <;>
      cases same <;> exact ⟨_, _, rfl⟩

/-- The pruned query over the crossed columns does not return the row. -/
theorem crossed_not_perm (ne : other ≠ column) (same : fstFile other = fstFile column)
    (named : fstFile column ≠ none) (semantics : FilterSemantics) {session : Session}
    {plan : ScanPlan}
    (returned : (scan calculateFileHash session (crossedTree column other)
      (crossedRoot calculateFileHash column other)
      (.new (crossedRoot calculateFileHash column other)) (crossedFilters column other)).1 =
        .ok plan) :
    ¬ ((plannedRows (crossedTree column other) plan).filter
        (satisfiesAll semantics.holds (crossedFilters column other))).Perm
      ((allRows (crossedTree column other) sampleDir).filter
        (satisfiesAll semantics.holds (crossedFilters column other))) := by
  intro perm
  have read := perm.mem_iff.mpr (crossed_row ne semantics)
  rw [plannedRows, crossed_unplanned same named returned] at read
  cases read

/-- **A pruned query over some columns returns what a full read returns, for all files and
filters, exactly when the columns have files of their own.** -/
theorem scan_perm_bruteForce_iff {semantics : FilterSemantics} {columns : Set Column}
    (stays : ∀ column ∈ columns, ¬ LeadsOut column) :
    (∀ (tree : FileTree) (dataDir : Path) (column : Column) (root : IndexRoot)
      (engine : IndexQueryEngine) (filters : List Expr) (session : Session),
      WellNamed calculateFileHash tree dataDir →
      BuiltOver calculateFileHash tree columns dataDir column root →
      IndexQueryEngine.Loads root (.new root) engine →
      ComparesStrings tree dataDir column columns filters →
      session.createPhysicalExpr filters = .ok () →
      ∃ plan, (scan calculateFileHash session tree root engine filters).1 = .ok plan ∧
        ((plannedRows tree plan).filter (satisfiesAll semantics.holds filters)).Perm
          ((allRows tree dataDir).filter (satisfiesAll semantics.holds filters))) ↔
      OwnFiles columns := by
  constructor
  · refine fun reads => ⟨stays, fun column member other member' same named => ?_⟩
    by_contra ne
    obtain ⟨plan, returned, perm⟩ := reads _ _ _ _ _ _ ⟨fun _ => .ok ()⟩ crossed_wellNamed
      (.first member (crossed_built other named)) (.refl _ _)
      (crossed_compares member member') rfl
    exact crossed_not_perm ne same named semantics returned perm
  · intro own tree dataDir column root engine filters session wellNamed built loads compares accepts
    exact scan_perm_bruteForce own wellNamed built loads compares accepts

end Crossed

theorem scan_perm_bruteForce_sample :
    ∃ plan, (scan sampleHash ⟨fun _ => .ok ()⟩ (singleTree samplePath sampleFile)
        (singleRoot samplePath sampleFile sampleColumn)
        (.new (singleRoot samplePath sampleFile sampleColumn)) [nameIs "alice".toList]).1 =
          .ok plan ∧
      ((plannedRows (singleTree samplePath sampleFile) plan).filter
          (satisfiesAll equalitySemantics.holds [nameIs "alice".toList])).Perm
        ((allRows (singleTree samplePath sampleFile) sampleDir).filter
          (satisfiesAll equalitySemantics.holds [nameIs "alice".toList])) :=
  (scan_perm_bruteForce_iff ownFiles_sampleColumn.stays).mpr ownFiles_sampleColumn _ _ _ _ _ _ _
    wellNamed_sample (.first rfl build_sample) (.refl _ _) (comparesStrings_sample _) rfl

/-- Indexed by `name`, and asked for a name and for the value of a column `./name`. -/
theorem shared_fst_pruned_refuted :
    WellNamed sampleHash (crossedTree sampleColumn aliasColumn) sampleDir ∧
      BuiltOver sampleHash (crossedTree sampleColumn aliasColumn) {sampleColumn, aliasColumn}
        sampleDir sampleColumn (crossedRoot sampleHash sampleColumn aliasColumn) ∧
      ComparesStrings (crossedTree sampleColumn aliasColumn) sampleDir sampleColumn
        {sampleColumn, aliasColumn} (crossedFilters sampleColumn aliasColumn) ∧
      ∀ plan, (scan sampleHash ⟨fun _ => .ok ()⟩ (crossedTree sampleColumn aliasColumn)
          (crossedRoot sampleHash sampleColumn aliasColumn)
          (.new (crossedRoot sampleHash sampleColumn aliasColumn))
          (crossedFilters sampleColumn aliasColumn)).1 = .ok plan →
        ¬ ((plannedRows (crossedTree sampleColumn aliasColumn) plan).filter (satisfiesAll
            equalitySemantics.holds (crossedFilters sampleColumn aliasColumn))).Perm
          ((allRows (crossedTree sampleColumn aliasColumn) sampleDir).filter (satisfiesAll
            equalitySemantics.holds (crossedFilters sampleColumn aliasColumn))) := by
  refine ⟨crossed_wellNamed, .first (Or.inl rfl) (crossed_built _ named_sampleColumn),
    crossed_compares (Or.inl rfl) (Or.inr rfl), fun plan returned => ?_⟩
  exact crossed_not_perm (by decide) fstFile_aliasColumn named_sampleColumn equalitySemantics
    returned

end Pdq
