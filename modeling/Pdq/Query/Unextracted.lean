/- Pdq.Query.Unextracted -- indexing a column that the file does not have, or has
in a form the indexer does not read.

The extraction loop passes over a batch without the column, and over an array
that is no `StringArray`, so such a file has no keys for the column
(`columnKeys_of_unextractable`).  Nothing tells that from a column of nulls:
`index_file` fails on its metadata, or on the name of its FST file, or not at all
(`indexFile_refuses_iff`), and afterwards its FST answers every term with no row
group (`answer_of_unextractable`). -/
import Pdq.Query.ExactSearch

namespace Pdq

open Theory KeyFormat

set_option autoImplicit false

/-! ## Columns the extraction loop passes over -/

def ScalarValue.isNull : ScalarValue → Bool
  | .null | .string _ none | .boolean none | .int64 none => true
  | .string _ (some _) | .boolean (some _) | .int64 (some _) | .other _ => false

namespace ParquetFile

/-- No batch has the column. -/
def LacksColumn (file : ParquetFile) (column : Column) : Prop :=
  ∀ rowGroup ∈ file.rowGroups, ∀ batch ∈ rowGroup, batch.columnByName column = none

/-- The column has a value in an array that is no `StringArray`. -/
def HasOtherArray (file : ParquetFile) (column : Column) : Prop :=
  ∃ rowGroup ∈ file.rowGroups, ∃ batch ∈ rowGroup, ∃ values,
    batch.columnByName column = some (.otherArray values) ∧
      ∃ cell ∈ values, cell.1.isNull = false

def Unextractable (file : ParquetFile) (column : Column) : Prop :=
  file.LacksColumn column ∨ file.HasOtherArray column

theorem not_lacksColumn_of_holdsValue {file : ParquetFile} {column : Column} {g : Nat} {v : Str}
    (holds : file.HoldsValue column g v) : ¬ file.LacksColumn column := by
  intro lacks
  obtain ⟨rowGroup, position, row, inGroup, held⟩ := holds
  obtain ⟨batch, inRowGroup, inBatch⟩ := List.mem_flatMap.mp inGroup
  obtain ⟨i, -, rfl⟩ := List.mem_map.mp inBatch
  have absent := lacks rowGroup (List.mem_of_getElem? position) batch inRowGroup
  simp [RecordBatch.row, absent] at held

/-- One value in an array of another kind leaves the column without any Utf8
value: a file has one schema. -/
theorem not_hasOtherArray_of_holdsValue {file : ParquetFile} {column : Column} {g : Nat} {v : Str}
    (holds : file.HoldsValue column g v) : ¬ file.HasOtherArray column := by
  rintro ⟨rowGroup, member, batch, inRowGroup, values, found, -⟩
  obtain ⟨strings, same⟩ := utf8Column_of_holdsValue holds rowGroup member batch inRowGroup _ found
  cases same

theorem not_holdsValue_of_unextractable {file : ParquetFile} {column : Column}
    (missed : file.Unextractable column) (g : Nat) (v : Str) : ¬ file.HoldsValue column g v := by
  intro holds
  rcases missed with lacks | other
  · exact not_lacksColumn_of_holdsValue holds lacks
  · exact not_hasOtherArray_of_holdsValue holds other

end ParquetFile

/-- Such a column has no keys. -/
theorem columnKeys_of_unextractable {file : ParquetFile} {column : Column}
    (missed : file.Unextractable column) : columnKeys file column = SortedSet.empty := by
  refine SortedSet.ext_mem fun key => ?_
  rw [mem_columnKeys]
  constructor
  · rintro ⟨g, v, holds, -⟩
    exact absurd holds (file.not_holdsValue_of_unextractable missed g v)
  · intro member
    exact absurd member (SortedSet.not_mem_empty key)

/-! ## index_file -/

section Index

variable {calculateFileHash : Path → Str} {tree : FileTree} {root root' : IndexRoot}
  {filePath : Path} {column : Column} {node : FileNode} {content : ParquetFile}

theorem dataFile_of_node (found : tree.resolve filePath = some node)
    (readable : node.parquet = some content) {mtime : UInt64}
    (stamped : node.modified = some mtime) :
    tree.dataFile? filePath = some ⟨mtime, node.len, content⟩ := by
  simp [FileTree.dataFile?, found, stamped, readable]

/-- A readable Parquet file is refused only for its modification time or for the name of
its FST file. -/
theorem indexFile_error_iff (found : tree.resolve filePath = some node)
    (readable : node.parquet = some content) :
    (∃ error, indexFile calculateFileHash tree root filePath column = .error error) ↔
      node.modified = none ∨ fstFile column = none := by
  constructor
  · rintro ⟨error, failed⟩
    cases stamped : node.modified with
    | none => exact Or.inl rfl
    | some mtime =>
        refine Or.inr (by_contra fun named => ?_)
        rw [indexFile_of_dataFile (dataFile_of_node found readable stamped) named] at failed
        cases failed
  · intro refused
    cases outcome : indexFile calculateFileHash tree root filePath column with
    | error error => exact ⟨error, rfl⟩
    | ok root' =>
        obtain ⟨named, file, isFile, -⟩ := indexFile_effect outcome
        simp [FileTree.dataFile?, found, refused.resolve_right named] at isFile

/-- **A column that cannot be extracted is refused exactly when** the file's
modification time is before the epoch or the column names no file; otherwise the file gets
an FST without a key. -/
theorem indexFile_refuses_iff (found : tree.resolve filePath = some node)
    (readable : node.parquet = some content) (missed : content.Unextractable column)
    (stays : ¬ LeadsOut column) :
    ((∃ error, indexFile calculateFileHash tree root filePath column = .error error) ↔
        node.modified = none ∨ NamesNoFile column) ∧
      ∀ root', indexFile calculateFileHash tree root filePath column = .ok root' →
        (root'.dir (calculateFileHash filePath)).fst column = some (.valid SortedSet.empty) := by
  rw [NamesNoFile, and_iff_left stays]
  refine ⟨indexFile_error_iff found readable, fun root' ok => ?_⟩
  obtain ⟨named, file, isFile, rfl⟩ := indexFile_effect ok
  have same : file.content = content := by
    have opened := FileTree.openParquet_of_dataFile isFile
    simp only [FileTree.openParquet, found, readable, Except.ok.injEq] at opened
    exact opened.symm
  rw [IndexRoot.fst_insert_indexed _ _ _ _ _ named, same, columnKeys_of_unextractable missed]

/-- After it the FST answers every term with no row group. -/
theorem answer_of_unextractable {file : FileTree.DataFile}
    (found : tree.dataFile? filePath = some file) (missed : file.content.Unextractable column)
    (ok : indexFile calculateFileHash tree root filePath column = .ok root') (term : Str) :
    (IndexQueryEngine.new root').fileAnswer root' column (fun set => searchSet set term)
      (calculateFileHash filePath) = .ok [] := by
  obtain ⟨rowGroups, answered, members⟩ := answer_of_indexFile found ok term
  have empty : rowGroups = [] := by
    refine List.eq_nil_iff_forall_not_mem.mpr fun g member => ?_
    obtain ⟨v, holds, -⟩ := (members g).mp member
    exact file.content.not_holdsValue_of_unextractable missed g v holds
  rw [answered, empty]

end Index

def missingColumn : Column := "user".toList

theorem sampleFile_lacks : sampleFile.content.LacksColumn missingColumn := by
  intro rowGroup member batch inGroup
  obtain rfl := List.mem_singleton.mp member
  obtain rfl := List.mem_singleton.mp inGroup
  rfl

/-- A file older than the epoch is refused. -/
theorem indexFile_refuses_sample :
    ∃ error, indexFile sampleHash
      ⟨fun _ => [], some, fun _ => some ⟨none, 1024, some sampleFile.content⟩, fun _ => true⟩ ∅
      samplePath missingColumn = .error error := by
  let node : FileNode := ⟨none, 1024, some sampleFile.content⟩
  have resolved : (FileTree.mk (fun _ => []) some (fun _ => some node) fun _ => true).resolve
      samplePath = some node := rfl
  exact (indexFile_refuses_iff resolved rfl (Or.inl sampleFile_lacks) (by decide)).1.mpr
    (Or.inl rfl)

/-- The sample file has the column `name` only, and is indexed by the column
`user`. -/
theorem missing_column_refuted :
    sampleFile.content.Unextractable missingColumn ∧
      (singleTree samplePath sampleFile).dataFile? samplePath = some sampleFile ∧
      indexFile sampleHash (singleTree samplePath sampleFile) ∅ samplePath missingColumn =
        .ok (singleRoot samplePath sampleFile missingColumn) ∧
      ((singleRoot samplePath sampleFile missingColumn).dir (sampleHash samplePath)).fst
        missingColumn = some (.valid SortedSet.empty) :=
  ⟨Or.inl sampleFile_lacks, dataFile_singleTree _ _, indexFile_single _ _ (by decide), by decide⟩

end Pdq
