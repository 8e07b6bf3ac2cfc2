/- Pdq.Query.ExactSearch -- what exact_search says about a file just indexed.

A report names files by path, so what it says of a path is what all sub-directories
listed under the path answer (`reports_iff`).  The file's own FST answers with the row
groups of the values that are the term or continue it with a NUL
(`answer_of_indexFile`).  So the row groups reported in error are those of a continued
value without the term, and those that another sub-directory answers under the same
path (`reports_sound_iff`). -/
import Pdq.Query.ReadBack

namespace Pdq

open Theory KeyFormat

set_option autoImplicit false

variable {calculateFileHash : Path → Str} {tree : FileTree} {root root' : IndexRoot}
  {filePath : Path} {column : Column} {file : FileTree.DataFile} {term : Str}

/-- `exact_search` returns, and reports row group `g` for the path. -/
def Reports (root : IndexRoot) (engine : IndexQueryEngine) (column : Column) (term : Str)
    (path : Path) (g : Nat) : Prop :=
  ∃ results, (engine.exactSearch root column term).1 = .ok results ∧
    ∃ fileMatch ∈ results, fileMatch.filePath = path ∧ g ∈ fileMatch.rowGroups

/-- A search that returns has an answer from every sub-directory. -/
theorem fileAnswer_returns {engine : IndexQueryEngine}
    (returns : ∃ results, (engine.exactSearch root column term).1 = .ok results)
    {fileHash : Str} {path : Path} (mapped : engine.fileMap.lookup fileHash = some path) :
    ∃ rowGroups, engine.fileAnswer root column (fun set => searchSet set term) fileHash =
      .ok rowGroups := by
  cases answered : engine.fileAnswer root column (fun set => searchSet set term) fileHash with
  | ok rowGroups => exact ⟨rowGroups, rfl⟩
  | error e =>
      obtain ⟨results, returned⟩ := returns
      obtain ⟨e', failed⟩ := IndexQueryEngine.exactSearch_error_iff.mpr
        ⟨fileHash, FiniteMap.mem_of_lookup mapped, e, answered⟩
      cases returned.symm.trans failed

/-- **What is reported for a path** is what the sub-directories listed under it
answer. -/
theorem reports_iff {engine : IndexQueryEngine}
    (returns : ∃ results, (engine.exactSearch root column term).1 = .ok results) (path : Path)
    (g : Nat) :
    Reports root engine column term path g ↔
      ∃ fileHash, engine.fileMap.lookup fileHash = some path ∧ ∃ rowGroups,
        engine.fileAnswer root column (fun set => searchSet set term) fileHash = .ok rowGroups ∧
          g ∈ rowGroups := by
  obtain ⟨results, returned⟩ := returns
  constructor
  · rintro ⟨results', returned', fileMatch, listed, rfl, member⟩
    obtain ⟨fileHash, mapped, answered, -⟩ :=
      (IndexQueryEngine.mem_exactSearch returned' _).mp listed
    exact ⟨fileHash, mapped, _, answered, member⟩
  · rintro ⟨fileHash, mapped, rowGroups, answered, member⟩
    have listed := (IndexQueryEngine.mem_exactSearch returned ⟨path, rowGroups⟩).mpr
      ⟨fileHash, mapped, answered, List.ne_nil_of_mem member⟩
    exact ⟨results, returned, _, listed, rfl, member⟩

/-- The answer of a file just indexed. -/
theorem answer_of_indexFile (found : tree.dataFile? filePath = some file)
    (ok : indexFile calculateFileHash tree root filePath column = .ok root') (term : Str) :
    ∃ rowGroups, (IndexQueryEngine.new root').fileAnswer root' column
        (fun set => searchSet set term) (calculateFileHash filePath) = .ok rowGroups ∧
      ∀ g, g ∈ rowGroups ↔ ∃ v, file.content.HoldsValue column g v ∧
        (v = term ∨ term ++ [valueRgSeparator] <+: v) := by
  obtain ⟨rowGroups, searched, -, members⟩ := searchSet_columnKeys file.content column term
  have named := (indexFile_effect ok).1
  have seen : (IndexQueryEngine.new root').fstFor root' (calculateFileHash filePath) column =
      some (.valid (columnKeys file.content column)) := by
    rw [IndexQueryEngine.new_fstFor, IndexRoot.dir_of_lookup (lookup_of_indexFile found ok),
      IndexDir.indexed_fst_self _ _ _ named]
  exact ⟨rowGroups, by simp only [IndexQueryEngine.fileAnswer, seen, searched], members⟩

/-- A sub-directory of another file is listed under the path too, and its FST has a key of
row group `g` that continues the term and a NUL. -/
def OtherAnswers (root : IndexRoot) (column : Column) (term fileHash : Str) (path : Path)
    (g : Nat) : Prop :=
  ∃ other, other ≠ fileHash ∧ ∃ indexDir, root.lookup other = some indexDir ∧
    (indexDir.mapEntry other).1 = path ∧
      ∃ set, indexDir.fst column = some (.valid set) ∧
        ∃ key ∈ set, startKey term <+: key ∧ parseRowGroupFromKey key = .ok (some g)

/-- **What is reported for the path of a file just indexed**, when the search returns:
its own answer, unless its record does not read back, and those of others. -/
theorem reports_indexed_iff (selected : hasParquetExtension filePath = true)
    (found : tree.dataFile? filePath = some file)
    (ok : indexFile calculateFileHash tree root filePath column = .ok root')
    (returns : ∃ results,
      ((IndexQueryEngine.new root').exactSearch root' column term).1 = .ok results) (g : Nat) :
    Reports root' (.new root') column term filePath g ↔
      (¬ '\n' ∈ filePath ∧ ∃ v, file.content.HoldsValue column g v ∧
          (v = term ∨ term ++ [valueRgSeparator] <+: v)) ∨
        OtherAnswers root column term (calculateFileHash filePath) filePath g := by
  have present := lookup_of_indexFile found ok
  obtain ⟨own, answered, members⟩ := answer_of_indexFile found ok term
  have kept : ∀ other, other ≠ calculateFileHash filePath →
      root'.lookup other = root.lookup other := by
    intro other ne
    obtain ⟨-, _, -, rfl⟩ := indexFile_effect ok
    exact AList.lookup_insert_ne ne
  have ownPath : (((root.dir (calculateFileHash filePath)).indexed filePath file column).mapEntry
      (calculateFileHash filePath)).1 = filePath ↔ ¬ '\n' ∈ filePath := by
    constructor
    · exact fun same broken => mapEntry_indexed_ne _ _ broken _ _ same
    · intro noFeed
      rw [mapEntry_indexed _ _ (oneLine_of_hasParquetExtension selected noFeed)]
  rw [reports_iff returns]
  simp only [IndexQueryEngine.new_fileMap]
  constructor
  · rintro ⟨fileHash, mapped, rowGroups, answer, member⟩
    by_cases here : fileHash = calculateFileHash filePath
    · subst here
      rw [present, Option.map_some, Option.some.injEq, ownPath] at mapped
      rw [answered] at answer
      cases answer
      exact Or.inl ⟨mapped, (members g).mp member⟩
    · rw [kept fileHash here] at mapped
      obtain ⟨indexDir, listed, named⟩ := Option.map_eq_some_iff.mp mapped
      have dir : root'.dir fileHash = indexDir :=
        IndexRoot.dir_of_lookup ((kept fileHash here).trans listed)
      obtain ⟨set, held, searched⟩ :=
        IndexQueryEngine.fst_of_fileAnswer answer (List.ne_nil_of_mem member)
      rw [IndexQueryEngine.new_fstFor, dir] at held
      exact Or.inr ⟨fileHash, here, indexDir, listed, named, set, held,
        (mem_searchSet searched g).mp member⟩
  · rintro (⟨noFeed, holds⟩ | ⟨other, ne, indexDir, listed, named, set, held, keyed⟩)
    · refine ⟨calculateFileHash filePath, ?_, own, answered, (members g).mpr holds⟩
      rw [present, Option.map_some, ownPath.mpr noFeed]
    · have listed' := (kept other ne).trans listed
      have mapped : (IndexQueryEngine.new root').fileMap.lookup other = some filePath := by
        rw [IndexQueryEngine.new_fileMap, listed', Option.map_some, named]
      have answer : (IndexQueryEngine.new root').fileAnswer root' column
          (fun set => searchSet set term) other = searchSet set term := by
        rw [IndexQueryEngine.fileAnswer, IndexQueryEngine.new_fstFor,
          IndexRoot.dir_of_lookup listed', held]
      -- The search as a whole returns, so this sub-directory has an answer.
      obtain ⟨rowGroups, answered⟩ := fileAnswer_returns returns mapped
      refine ⟨other, by rwa [IndexQueryEngine.new_fileMap] at mapped, rowGroups, answered, ?_⟩
      exact (mem_searchSet (answer.symm.trans answered) g).mpr keyed

/-- **Exact search has no false positive for a term exactly when** every row group
with a value that continues the term after a NUL also holds the term, and so does every
row group that another sub-directory answers under the path of the file. -/
theorem reports_sound_iff (selected : hasParquetExtension filePath = true)
    (found : tree.dataFile? filePath = some file)
    (ok : indexFile calculateFileHash tree root filePath column = .ok root')
    (returns : ∃ results,
      ((IndexQueryEngine.new root').exactSearch root' column term).1 = .ok results) :
    (∀ g, Reports root' (.new root') column term filePath g →
        file.content.HoldsValue column g term) ↔
      (¬ '\n' ∈ filePath → ∀ g v, file.content.HoldsValue column g v →
          term ++ [valueRgSeparator] <+: v → file.content.HoldsValue column g term) ∧
        ∀ g, OtherAnswers root column term (calculateFileHash filePath) filePath g →
          file.content.HoldsValue column g term := by
  simp only [reports_indexed_iff selected found ok returns]
  constructor
  · intro sound
    exact ⟨fun noFeed g v holds continues => sound g (Or.inl ⟨noFeed, v, holds, Or.inr continues⟩),
      fun g answers => sound g (Or.inr answers)⟩
  · rintro ⟨own, others⟩ g (⟨noFeed, v, holds, rfl | continues⟩ | answers)
    · exact holds
    · exact own noFeed g v holds continues
    · exact others g answers

def embeddedFile : FileTree.DataFile where
  mtime := 1700000000
  size := 1024
  content := .ofStrings sampleColumn [["a\x00b".toList, "a".toList], ["c".toList]] (by decide)

theorem reports_sound_sample :
    Reports (singleRoot samplePath embeddedFile sampleColumn)
        (.new (singleRoot samplePath embeddedFile sampleColumn)) sampleColumn
        "a".toList samplePath 0 ∧
      ∀ g, Reports (singleRoot samplePath embeddedFile sampleColumn)
          (.new (singleRoot samplePath embeddedFile sampleColumn)) sampleColumn
          "a".toList samplePath g →
        embeddedFile.content.HoldsValue sampleColumn g "a".toList := by
  have found := dataFile_singleTree samplePath embeddedFile
  have ok := indexFile_single samplePath embeddedFile named_sampleColumn
  have returns : ∃ results, ((IndexQueryEngine.new
      (singleRoot samplePath embeddedFile sampleColumn)).exactSearch
        (singleRoot samplePath embeddedFile sampleColumn) sampleColumn
        "a".toList).1 = .ok results := ⟨_, rfl⟩
  constructor
  · exact (reports_indexed_iff (by decide) found ok returns 0).mpr
      (Or.inl ⟨by decide, "a".toList, by decide, Or.inl rfl⟩)
  · refine (reports_sound_iff (by decide) found ok returns).mpr
      ⟨fun _ g v holds continues => ?_, ?_⟩
    · match g with
      | 0 => decide
      | 1 =>
          obtain ⟨rowGroup, position, member⟩ := holdsValue_iff.mp holds
          cases position
          exact absurd continues (by rw [List.mem_singleton.mp member]; decide)
      | g + 2 =>
          have bound : g + 2 < 2 := rowGroup_lt_of_holdsValue holds
          omega
    · rintro g ⟨other, -, indexDir, listed, -⟩
      cases listed

def onlyContinuedFile : FileTree.DataFile where
  mtime := 1700000000
  size := 1024
  content := .ofStrings sampleColumn [["a\x00b".toList]] (by decide)

/-- The value `a NUL b` alone makes its row group an answer for `a`. -/
theorem continued_value_refuted :
    indexFile sampleHash (singleTree samplePath onlyContinuedFile) ∅
        samplePath sampleColumn =
        .ok (singleRoot samplePath onlyContinuedFile sampleColumn) ∧
      Reports (singleRoot samplePath onlyContinuedFile sampleColumn)
        (.new (singleRoot samplePath onlyContinuedFile sampleColumn)) sampleColumn
        "a".toList samplePath 0 ∧
      ¬ onlyContinuedFile.content.HoldsValue sampleColumn 0 "a".toList := by
  have ok := indexFile_single samplePath onlyContinuedFile named_sampleColumn
  refine ⟨ok, ?_, by decide⟩
  refine (reports_indexed_iff (by decide) (dataFile_singleTree _ _) ok ⟨_, rfl⟩ 0).mpr
    (Or.inl ⟨by decide, "a\x00b".toList, by decide, Or.inr (by decide)⟩)

end Pdq
