/- Pdq.Query.Written -- searches over an index directory that index_file wrote.

`WrittenFrom root content` says which content each FST of the directory was
written from; every index_file call keeps such a record up to date
(`WrittenFrom.indexFile`).  Over such a directory a search whose answer about
each FST is known never fails, and `searchAll_written` gives its result file by
file: every indexed file once, with its row groups, unless there are none. -/
import Mathlib.Algebra.GroupWithZero.Nat
import Mathlib.Algebra.Order.BigOperators.Group.List
import Mathlib.Algebra.Order.Group.Nat
import Pdq.Query.Engine
import Pdq.Index.Rebuild

namespace Pdq

open Theory KeyFormat

set_option autoImplicit false

/-! ## The row groups that hold some value -/

/-- The row groups with a value that satisfies `p`, ascending. -/
def rowGroupsHolding (file : ParquetFile) (column : Column) (p : Str → Bool) : List Nat :=
  (List.range file.numRowGroups).filter fun g =>
    (file.rowGroups[g]?.toList.flatMap fun rowGroup => RowGroup.values rowGroup column).any p

theorem mem_rowGroupsHolding {file : ParquetFile} {column : Column} {p : Str → Bool} {g : Nat} :
    g ∈ rowGroupsHolding file column p ↔ ∃ v, file.HoldsValue column g v ∧ p v = true := by
  simp only [rowGroupsHolding, List.mem_filter, List.mem_range, List.any_eq_true,
    List.mem_flatMap, Option.mem_toList, holdsValue_iff]
  constructor
  · rintro ⟨-, v, held, satisfied⟩
    exact ⟨v, held, satisfied⟩
  · rintro ⟨v, held, satisfied⟩
    exact ⟨rowGroup_lt_of_holdsValue (holdsValue_iff.mpr held), v, held, satisfied⟩

/-- They are listed in ascending order, each once. -/
theorem rowGroupsHolding_sorted (file : ParquetFile) (column : Column) (p : Str → Bool) :
    (rowGroupsHolding file column p).SortedLT :=
  (List.pairwise_lt_range.filter _).sortedLT

/-- An ascending list is known by its members. -/
theorem eq_rowGroupsHolding {file : ParquetFile} {column : Column} {p : Str → Bool}
    {rowGroups : List Nat} (sorted : rowGroups.SortedLT)
    (members : ∀ g, g ∈ rowGroups ↔ ∃ v, file.HoldsValue column g v ∧ p v = true) :
    rowGroups = rowGroupsHolding file column p :=
  sorted.eq_of_mem_iff (rowGroupsHolding_sorted file column p) fun g =>
    (members g).trans mem_rowGroupsHolding.symm

theorem rowGroupsHolding_eq_nil {file : ParquetFile} {column : Column} {p : Str → Bool} :
    rowGroupsHolding file column p = [] ↔ ∀ g v, file.HoldsValue column g v → p v = false := by
  simp only [List.eq_nil_iff_forall_not_mem, mem_rowGroupsHolding, not_exists, not_and,
    Bool.not_eq_true]

theorem rowGroupsHolding_sublist {p q : Str → Bool} (weaker : ∀ v, p v = true → q v = true)
    (file : ParquetFile) (column : Column) :
    (rowGroupsHolding file column p).Sublist (rowGroupsHolding file column q) := by
  refine List.monotone_filter_right _ fun g some => ?_
  obtain ⟨v, held, satisfied⟩ := List.any_eq_true.mp some
  exact List.any_eq_true.mpr ⟨v, held, weaker v satisfied⟩

/-! ## A column under another name -/

/-- The column of a batch alone, under another name. -/
def RecordBatch.columnAs (batch : RecordBatch) (column other : Column) : RecordBatch where
  numRows := batch.numRows
  columns := (batch.columnByName column).toList.map fun array => (other, array)
  aligned := by
    intro named member
    obtain ⟨array, found, rfl⟩ := List.mem_map.mp member
    exact RecordBatch.columnByName_length (Option.mem_toList.mp found)

theorem RecordBatch.columnByName_columnAs (batch : RecordBatch) (column other : Column) :
    (batch.columnAs column other).columnByName other = batch.columnByName column := by
  simp only [RecordBatch.columnByName, RecordBatch.columnAs, List.find?_map]
  cases (batch.columns.find? fun named => named.1 = column) <;> simp

theorem RecordBatch.stringValues_columnAs (batch : RecordBatch) (column other : Column) :
    (batch.columnAs column other).stringValues other = batch.stringValues column := by
  rw [RecordBatch.stringValues, RecordBatch.columnByName_columnAs, RecordBatch.stringValues]

/-- The column of a file alone, under another name. -/
def ParquetFile.columnAs (file : ParquetFile) (column other : Column) : ParquetFile where
  rowGroups := file.rowGroups.map fun rowGroup =>
    rowGroup.map fun batch => batch.columnAs column other
  fits := by
    rw [List.length_map]
    exact file.fits
  oneSchema := by
    -- Each array is one of the column in the file.
    have original : ∀ named ∈ batchColumns (file.rowGroups.map fun rowGroup =>
        rowGroup.map fun batch => batch.columnAs column other),
        ∃ array ∈ batchColumns file.rowGroups, array.1 = column ∧ array.2 = named.2 := by
      intro named member
      simp only [batchColumns, List.mem_flatMap, List.mem_map] at member
      obtain ⟨_, ⟨rowGroup, inFile, rfl⟩, _, inGroup, inBatch⟩ := member
      obtain ⟨batch, inRowGroup, rfl⟩ := List.mem_map.mp inGroup
      obtain ⟨array, found, rfl⟩ := List.mem_map.mp inBatch
      exact ⟨(column, array), List.mem_flatMap.mpr ⟨rowGroup, inFile, List.mem_flatMap.mpr
        ⟨batch, inRowGroup, columnByName_mem (Option.mem_toList.mp found)⟩⟩, rfl, rfl⟩
    intro a memberA b memberB _
    obtain ⟨arrayA, inFileA, nameA, sameA⟩ := original a memberA
    obtain ⟨arrayB, inFileB, nameB, sameB⟩ := original b memberB
    rw [← sameA, ← sameB]
    exact file.oneSchema arrayA inFileA arrayB inFileB (nameA.trans nameB.symm)

theorem columnKeys_columnAs (file : ParquetFile) (column other : Column) :
    columnKeys (file.columnAs column other) other = columnKeys file column := by
  have values : ∀ rowGroup : RowGroup,
      RowGroup.values (rowGroup.map fun batch => batch.columnAs column other) other =
        RowGroup.values rowGroup column := by
    intro rowGroup
    rw [RowGroup.values, RowGroup.values, List.flatMap_map]
    exact List.flatMap_congr fun batch _ => batch.stringValues_columnAs column other
  simp only [columnKeys, ParquetFile.columnAs, List.zipIdx_map, List.foldl_map, rowGroupKeys,
    Prod.map_fst, Prod.map_snd, id, values]

/-! ## What the FSTs were written from -/

/-- The content each FST was written from; the column that has no content has no
FST. -/
abbrev IndexedContent := Str → Column → Option ParquetFile

/-- `content` after `index_file` has read `file` for the sub-directory `fileHash`.  For
another column with the same FST, its content is that column alone under the other name. -/
def IndexedContent.written (content : IndexedContent) (fileHash : Str) (column : Column)
    (file : ParquetFile) : IndexedContent := fun other column' =>
  if other = fileHash ∧ fstFile column' = fstFile column then
    some (if column' = column then file else file.columnAs column column')
  else content other column'

theorem IndexedContent.written_same (content : IndexedContent) (fileHash : Str) (column : Column)
    (file : ParquetFile) : content.written fileHash column file fileHash column = some file := by
  simp [IndexedContent.written]

/-- Every FST of the index directory is the one `index_file` makes of `content`. -/
def WrittenFrom (root : IndexRoot) (content : IndexedContent) : Prop :=
  ∀ fileHash column, (root.dir fileHash).fst column =
    (content fileHash column).map fun file => .valid (columnKeys file column)

theorem writtenFrom_empty : WrittenFrom ∅ fun _ _ => none :=
  fun _ column => IndexDir.fst_empty column

theorem WrittenFrom.indexed {root : IndexRoot} {content : IndexedContent}
    (written : WrittenFrom root content) (fileHash : Str) (filePath : Path)
    (file : FileTree.DataFile) {column : Column} (named : fstFile column ≠ none) :
    WrittenFrom (root.insert fileHash ((root.dir fileHash).indexed filePath file column))
      (content.written fileHash column file.content) := by
  intro other column'
  by_cases same : other = fileHash ∧ fstFile column' = fstFile column
  · obtain ⟨rfl, leads⟩ := same
    rw [IndexRoot.dir_insert_self, IndexDir.indexed_fst_same _ _ _ named leads,
      IndexedContent.written, if_pos ⟨rfl, leads⟩, Option.map_some]
    split
    · rename_i here
      rw [here]
    · rw [columnKeys_columnAs]
  · have apart : other ≠ fileHash ∨ fstFile column' ≠ fstFile column := not_and_or.mp same
    rw [IndexRoot.fst_insert_indexed_ne _ _ _ apart, IndexedContent.written, if_neg same]
    exact written other column'

/-- **index_file keeps the record**: its own FST is written from the file it
reads, the others stay. -/
theorem WrittenFrom.indexFile {calculateFileHash : Path → Str} {tree : FileTree}
    {root root' : IndexRoot} {content : IndexedContent} (written : WrittenFrom root content)
    {filePath : Path} {column : Column} {file : FileTree.DataFile}
    (found : tree.dataFile? filePath = some file)
    (ok : indexFile calculateFileHash tree root filePath column = .ok root') :
    WrittenFrom root'
      (content.written (calculateFileHash filePath) column file.content) := by
  obtain ⟨named, file', found', rfl⟩ := indexFile_effect ok
  cases found.symm.trans found'
  exact written.indexed _ filePath file named

/-- An index run keeps such a record too. -/
theorem WrittenFrom.buildIndexExt {calculateFileHash : Path → Str} {tree : FileTree}
    {root root' : IndexRoot} {content : IndexedContent} (written : WrittenFrom root content)
    {dataDir : Path} {column : Column} {force : Bool}
    (ok : buildIndexExt calculateFileHash tree root dataDir column force = .ok root') :
    ∃ content', WrittenFrom root' content' :=
  buildIndexExt_invariant (fun now => ∃ content', WrittenFrom now content')
    (fun path _ file _ named _ ⟨content', held⟩ =>
      ⟨content'.written _ column file.content, held.indexed _ path file named⟩)
    ⟨content, written⟩ ok

/-- What the FSTs of one column were written from may be put in for what is known of them. -/
theorem WrittenFrom.update {root : IndexRoot} {content : IndexedContent}
    (written : WrittenFrom root content) {column : Column} {known : Str → Option ParquetFile}
    (fsts : ∀ fileHash, (root.dir fileHash).fst column =
      (known fileHash).map fun file => .valid (columnKeys file column)) :
    WrittenFrom root fun fileHash =>
      Function.update (content fileHash) column (known fileHash) := by
  intro fileHash other
  by_cases here : other = column
  · subst here
    simp only [fsts, Function.update_self]
  · simp only [Function.update_of_ne here]
    exact written fileHash other

/-! ## A search over them -/

/-- What a search reports that answers `answer` for each file: the files of the
file map with some row group. -/
def reported (fileMap : FiniteMap Str Path) (answer : Str → List Nat) : List FileMatches :=
  fileMap.entries.filterMap fun entry =>
    if (answer entry.1).isEmpty then none else some ⟨entry.2, answer entry.1⟩

theorem reported_eq_nil {fileMap : FiniteMap Str Path} {answer : Str → List Nat}
    (nothing : ∀ fileHash, answer fileHash = []) : reported fileMap answer = [] := by
  rw [reported, List.filterMap_eq_nil_iff]
  intro entry _
  simp [nothing]

/-- How many row groups are reported in all. -/
theorem rowGroups_reported (fileMap : FiniteMap Str Path) (answer : Str → List Nat) :
    ((reported fileMap answer).map fun fileMatch => fileMatch.rowGroups.length).sum =
      (fileMap.entries.map fun entry => (answer entry.1).length).sum := by
  unfold reported
  induction fileMap.entries with
  | nil => rfl
  | cons entry rest ih =>
      rw [List.filterMap_cons, List.map_cons, List.sum_cons, ← ih]
      cases answer entry.1 <;> simp

/-- **An incomplete report is noticed**: answers of which each is part of the right
one give the right report only when they are right, file by file. -/
theorem reported_eq_iff {fileMap : FiniteMap Str Path} {answer right : Str → List Nat}
    (part : ∀ fileHash, (answer fileHash).Sublist (right fileHash)) :
    reported fileMap answer = reported fileMap right ↔
      ∀ fileHash ∈ fileMap, answer fileHash = right fileHash := by
  constructor
  · intro same fileHash member
    obtain ⟨path, mapped⟩ := FiniteMap.mem_iff_lookup.mp member
    by_contra wrong
    have fewer : (answer fileHash).length < (right fileHash).length :=
      lt_of_le_of_ne (part fileHash).length_le fun equal =>
        wrong ((part fileHash).eq_of_length equal)
    have totals := List.sum_lt_sum (fun entry : Sigma fun _ : Str => Path =>
        (answer entry.1).length) (fun entry => (right entry.1).length)
      (fun entry (_ : entry ∈ fileMap.entries) => (part entry.1).length_le)
      ⟨⟨fileHash, path⟩, FiniteMap.mem_entries_iff.mpr mapped, fewer⟩
    rw [← rowGroups_reported, ← rowGroups_reported, same] at totals
    exact lt_irrefl _ totals
  · intro same
    refine List.filterMap_congr fun entry member => ?_
    rw [same entry.1 (FiniteMap.mem_of_lookup (FiniteMap.mem_entries_iff.mp member))]

/-- The answer about the file indexed under a hash, none when it is not indexed
by the column. -/
def contentAnswer (content : IndexedContent) (column : Column) (answer : ParquetFile → List Nat)
    (fileHash : Str) : List Nat :=
  ((content fileHash column).map answer).getD []

namespace IndexQueryEngine

theorem collectAnswers_of_ok {answer : Str → Except QueryError (List Nat)} {rows : Str → List Nat}
    {l : List Str} (all : ∀ fileHash ∈ l, answer fileHash = .ok (rows fileHash)) :
    collectAnswers answer l = .ok (l.filterMap fun fileHash =>
      if (rows fileHash).isEmpty then none else some (fileHash, rows fileHash)) := by
  induction l with
  | nil => rfl
  | cons fileHash l ih =>
      have rest := ih fun other member => all other (List.mem_cons_of_mem _ member)
      simp only [collectAnswers, all fileHash List.mem_cons_self, rest, bind, Except.bind, pure,
        Except.pure, List.filterMap_cons]
      split <;> simp_all

/-- A search whose answer about every file of the file map is known. -/
theorem searchAll_of_answers {root : IndexRoot} {engine : IndexQueryEngine} {column : Column}
    {search : FstSet → Except QueryError (List Nat)} {rows : Str → List Nat}
    (all : ∀ fileHash ∈ engine.fileMap,
      fileAnswer root engine column search fileHash = .ok (rows fileHash)) :
    (searchAll root engine column search).1 = .ok (reported engine.fileMap rows) := by
  simp only [searchAll, searchFiles_result, collectAnswers_of_ok (l := engine.fileMap.keys) all]
  show Except.ok _ = _
  congr 1
  rw [AList.keys, List.keys, List.filterMap_map, List.map_filterMap, reported]
  refine List.filterMap_congr fun entry member => ?_
  have mapped := FiniteMap.mem_entries_iff.mp member
  simp only [Function.comp]
  split <;> simp [mapped]

section Written

variable {root : IndexRoot} {engine : IndexQueryEngine} {content : IndexedContent}

theorem fstFor_written (written : WrittenFrom root content) (loads : Loads root (new root) engine)
    (fileHash : Str) (column : Column) :
    engine.fstFor root fileHash column =
      (content fileHash column).map fun file => .valid (columnKeys file column) := by
  rw [loads.fstFor, new_fstFor, written]

/-- **A search over FSTs that index_file wrote** reports for each file what it
answers about the file's keys. -/
theorem searchAll_written (written : WrittenFrom root content)
    (loads : Loads root (new root) engine) {column : Column}
    (opens : ∀ fileHash ∈ engine.fileMap, Opens column)
    {search : FstSet → Except QueryError (List Nat)} {answer : ParquetFile → List Nat}
    (answers : ∀ fileHash file, content fileHash column = some file →
      search (columnKeys file column) = .ok (answer file)) :
    (searchAll root engine column search).1 =
      .ok (reported engine.fileMap (contentAnswer content column answer)) := by
  refine searchAll_of_answers fun fileHash member => ?_
  rw [fileAnswer, fstFor_written written loads, contentAnswer]
  cases held : content fileHash column with
  | none => exact if_pos (opens fileHash member)
  | some file => exact answers fileHash file held

theorem opens_of_content (written : WrittenFrom root content) {fileHash : Str} {column : Column}
    {file : ParquetFile} (held : content fileHash column = some file) : Opens column := by
  have fst := written fileHash column
  rw [held, Option.map_some] at fst
  exact IndexDir.opens_of_fst fst

/-- A file with an FST is in the file map. -/
theorem mem_fileMap_of_content (written : WrittenFrom root content)
    (loads : Loads root (new root) engine) {fileHash : Str} {column : Column} {file : ParquetFile}
    (held : content fileHash column = some file) : fileHash ∈ engine.fileMap := by
  have fst := written fileHash column
  rw [held, Option.map_some] at fst
  obtain ⟨indexDir, present, -⟩ := IndexRoot.lookup_of_fst fst
  rw [loads.fileMap]
  exact FiniteMap.mem_of_lookup (by rw [new_fileMap, present, Option.map_some])

end Written

end IndexQueryEngine

/-! ## One file alone -/

/-- What the FSTs of `singleRoot` were written from. -/
def singleContent (path : Path) (file : FileTree.DataFile) (column : Column) : IndexedContent :=
  IndexedContent.written (fun _ _ => none) (sampleHash path) column file.content

theorem writtenFrom_single (path : Path) (file : FileTree.DataFile) {column : Column}
    (named : fstFile column ≠ none) :
    WrittenFrom (singleRoot path file column) (singleContent path file column) :=
  writtenFrom_empty.indexFile (dataFile_singleTree path file) (indexFile_single path file named)

/-- What is held of the column itself. -/
theorem eq_of_singleContent {path : Path} {file : FileTree.DataFile} {column : Column}
    {fileHash : Str} {content : ParquetFile}
    (held : singleContent path file column fileHash column = some content) :
    content = file.content := by
  unfold singleContent IndexedContent.written at held
  split at held
  · rw [if_pos rfl] at held
    exact (Option.some.inj held).symm
  · cases held

end Pdq
