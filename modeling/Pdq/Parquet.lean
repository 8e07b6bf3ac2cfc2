/- Pdq.Parquet -- the content of a Parquet file as its readers hand it out.

A file is a list of row groups, each read as a list of record batches.  Only two
kinds of Arrow array are told apart, because the indexer does no more: the
`StringArray` it downcasts to, and every other array.  `mem_values_iff` says
that the values the indexer extracts from a row group are exactly the non-null
Utf8 cells of its rows. -/
import Mathlib.Data.List.ReduceOption
import Pdq.KeyFormat

namespace Pdq

open Theory

set_option autoImplicit false

abbrev Column := Str

/-! ## Values -/

inductive StringType where
  | utf8
  | largeUtf8
  | utf8View
  deriving DecidableEq, Repr

/-- A scalar: the cell of a row or the literal of a filter. -/
inductive ScalarValue where
  | null
  | string (type : StringType) (value : Option Str)
  | boolean (value : Option Bool)
  | int64 (value : Option Int)
  /-- Any other scalar; only the text its `Display` writes is ever looked at. -/
  | other (display : Str)
  deriving DecidableEq, Repr

namespace ScalarValue

def isUtf8 : ScalarValue → Bool
  | .string .utf8 _ => true
  | _ => false

def displayInt : Int → Str
  | .ofNat n => decimal n
  | .negSucc n => '-' :: decimal (n + 1)

def displayNull : Str := ['N', 'U', 'L', 'L']

/-- `ScalarValue::to_string` -/
def display : ScalarValue → Str
  | .null => displayNull
  | .string _ (some s) => s
  | .boolean (some true) => ['t', 'r', 'u', 'e']
  | .boolean (some false) => ['f', 'a', 'l', 's', 'e']
  | .int64 (some i) => displayInt i
  | .string _ none | .boolean none | .int64 none => displayNull
  | .other text => text

end ScalarValue

/-! ## Record batches -/

/-- A column of a record batch.  No cell of an array that is not a `StringArray`
is a `Utf8` scalar. -/
inductive ArrayRef where
  | stringArray (values : List (Option Str))
  | otherArray (values : List { cell : ScalarValue // cell.isUtf8 = false })

namespace ArrayRef

def length : ArrayRef → Nat
  | .stringArray values => values.length
  | .otherArray values => values.length

/-- `as_any().downcast_ref::<StringArray>()` -/
def asStringArray : ArrayRef → Option (List (Option Str))
  | .stringArray values => some values
  | .otherArray _ => none

def isStringArray (array : ArrayRef) : Bool := array.asStringArray.isSome

def cell : ArrayRef → Nat → ScalarValue
  | .stringArray values, i => (values[i]?.map (ScalarValue.string .utf8)).getD .null
  | .otherArray values, i => (values[i]?.map Subtype.val).getD .null

end ArrayRef

/-- Named columns of one length. -/
structure RecordBatch where
  numRows : Nat
  columns : List (Column × ArrayRef)
  aligned : ∀ column ∈ columns, column.2.length = numRows

abbrev Row := Column → ScalarValue

namespace RecordBatch

/-- `RecordBatch::column_by_name`: the first column of that name. -/
def columnByName (batch : RecordBatch) (name : Column) : Option ArrayRef :=
  (batch.columns.find? fun column => decide (column.1 = name)).map Prod.snd

def row (batch : RecordBatch) (i : Nat) : Row := fun name =>
  match batch.columnByName name with
  | some array => array.cell i
  | none => .null

def rows (batch : RecordBatch) : List Row := (List.range batch.numRows).map batch.row

theorem columnByName_length {batch : RecordBatch} {name : Column} {array : ArrayRef}
    (found : batch.columnByName name = some array) : array.length = batch.numRows := by
  obtain ⟨column, first, rfl⟩ := Option.map_eq_some_iff.mp found
  exact batch.aligned column (List.mem_of_find?_eq_some first)

/-- The non-null values of a column, when it is a `StringArray`. -/
def stringValues (batch : RecordBatch) (column : Column) : List Str :=
  match batch.columnByName column with
  | some columnData =>
      match columnData.asStringArray with
      | some values => values.reduceOption
      | none => []
  | none => []

end RecordBatch

/-! ## Files -/

abbrev RowGroup := List RecordBatch

def batchColumns (rowGroups : List RowGroup) : List (Column × ArrayRef) :=
  rowGroups.flatMap fun rowGroup => rowGroup.flatMap RecordBatch.columns

/-- A readable Parquet file.  Its row groups are numbered by a `usize`, and it
has one schema: of the arrays of one column, all are `StringArray`s or none is. -/
structure ParquetFile where
  rowGroups : List RowGroup
  fits : rowGroups.length < usizeBound
  oneSchema : ∀ a ∈ batchColumns rowGroups, ∀ b ∈ batchColumns rowGroups, a.1 = b.1 →
    a.2.isStringArray = b.2.isStringArray

namespace RowGroup

def rows (rowGroup : RowGroup) : List Row := rowGroup.flatMap RecordBatch.rows

def values (rowGroup : RowGroup) (column : Column) : List Str :=
  rowGroup.flatMap fun batch => batch.stringValues column

/-- The column is Utf8 wherever it occurs. -/
def Utf8Column (rowGroup : RowGroup) (column : Column) : Prop :=
  ∀ batch ∈ rowGroup, ∀ array, batch.columnByName column = some array →
    ∃ values, array = .stringArray values

end RowGroup

namespace ParquetFile

def numRowGroups (file : ParquetFile) : Nat := file.rowGroups.length

def rows (file : ParquetFile) : List Row := file.rowGroups.flatMap RowGroup.rows

def Utf8Column (file : ParquetFile) (column : Column) : Prop :=
  ∀ rowGroup ∈ file.rowGroups, RowGroup.Utf8Column rowGroup column

/-- Row group `g` holds a row whose value in `column` is `v`. -/
def HoldsValue (file : ParquetFile) (column : Column) (g : Nat) (v : Str) : Prop :=
  ∃ rowGroup, file.rowGroups[g]? = some rowGroup ∧
    ∃ row ∈ RowGroup.rows rowGroup, row column = .string .utf8 (some v)

end ParquetFile

/-! ## Files of one Utf8 column -/

def RecordBatch.ofStrings (column : Column) (values : List (Option Str)) : RecordBatch where
  numRows := values.length
  columns := [(column, .stringArray values)]
  aligned := by
    intro named member
    rw [List.mem_singleton.mp member]
    rfl

/-- The file with one Utf8 column and one batch per row group. -/
def ParquetFile.ofStrings (column : Column) (rowGroups : List (List (Option Str)))
    (fits : rowGroups.length < usizeBound) : ParquetFile where
  rowGroups := rowGroups.map fun values => [RecordBatch.ofStrings column values]
  fits := by rwa [List.length_map]
  oneSchema := by
    have strings : ∀ named ∈ batchColumns
        (rowGroups.map fun values => [RecordBatch.ofStrings column values]),
        named.2.isStringArray = true := by
      intro named member
      simp only [batchColumns, List.mem_flatMap, List.mem_map] at member
      obtain ⟨rowGroup, ⟨values, -, rfl⟩, batch, inGroup, inBatch⟩ := member
      rw [List.mem_singleton.mp inGroup] at inBatch
      rw [List.mem_singleton.mp inBatch]
      rfl
    intro a memberA b memberB _
    rw [strings a memberA, strings b memberB]

/-! ## Extracted values are the non-null Utf8 cells -/

theorem cell_utf8_iff {array : ArrayRef} {i : Nat} {value : Option Str} :
    array.cell i = .string .utf8 value ↔
      ∃ values, array.asStringArray = some values ∧ values[i]? = some value := by
  cases array with
  | stringArray values =>
      cases at_i : values[i]? <;> simp [ArrayRef.cell, ArrayRef.asStringArray, at_i]
  | otherArray values =>
      simp only [ArrayRef.cell, ArrayRef.asStringArray, reduceCtorEq, false_and, exists_false,
        iff_false]
      cases at_i : values[i]? with
      | none => simp
      | some c =>
          intro same
          have notUtf8 := c.property
          simp only [Option.map_some, Option.getD_some] at same
          rw [same] at notUtf8
          cases notUtf8

theorem mem_stringValues_iff {batch : RecordBatch} {column : Column} {v : Str} :
    v ∈ batch.stringValues column ↔
      ∃ row ∈ batch.rows, row column = .string .utf8 (some v) := by
  have rowCell : ∀ i, batch.row i column = .string .utf8 (some v) ↔
      ∃ array, batch.columnByName column = some array ∧ array.cell i = .string .utf8 (some v) := by
    intro i
    cases found : batch.columnByName column <;> simp [RecordBatch.row, found]
  simp only [RecordBatch.rows, List.mem_map, List.mem_range, exists_exists_and_eq_and]
  constructor
  · intro member
    simp only [RecordBatch.stringValues] at member
    split at member
    · rename_i array found
      split at member
      · rename_i values downcast
        rw [List.reduceOption_mem_iff] at member
        obtain ⟨i, bound, at_i⟩ := List.mem_iff_getElem.mp member
        have lengths : array.length = values.length := by
          cases array with
          | stringArray inner =>
              simp only [ArrayRef.asStringArray, Option.some.injEq] at downcast
              rw [← downcast]
              rfl
          | otherArray inner => simp [ArrayRef.asStringArray] at downcast
        refine ⟨i, ?_, (rowCell i).mpr ⟨array, found, cell_utf8_iff.mpr ⟨values, downcast, ?_⟩⟩⟩
        · rw [← RecordBatch.columnByName_length found, lengths]
          exact bound
        · rw [List.getElem?_eq_getElem bound, at_i]
      · cases member
    · cases member
  · rintro ⟨i, -, held⟩
    obtain ⟨array, found, atCell⟩ := (rowCell i).mp held
    obtain ⟨values, downcast, at_i⟩ := cell_utf8_iff.mp atCell
    simp only [RecordBatch.stringValues, found, downcast, List.reduceOption_mem_iff]
    exact List.mem_of_getElem? at_i

/-- **The extracted values of a row group are the non-null Utf8 cells of its
rows.** -/
theorem mem_values_iff {rowGroup : RowGroup} {column : Column} {v : Str} :
    v ∈ RowGroup.values rowGroup column ↔
      ∃ row ∈ RowGroup.rows rowGroup, row column = .string .utf8 (some v) := by
  simp only [RowGroup.values, RowGroup.rows, List.mem_flatMap, mem_stringValues_iff]
  constructor
  · rintro ⟨batch, member, row, inBatch, held⟩
    exact ⟨row, ⟨batch, member, inBatch⟩, held⟩
  · rintro ⟨row, ⟨batch, member, inBatch⟩, held⟩
    exact ⟨batch, member, row, inBatch, held⟩

theorem columnByName_mem {batch : RecordBatch} {column : Column} {array : ArrayRef}
    (found : batch.columnByName column = some array) : (column, array) ∈ batch.columns := by
  obtain ⟨named, first, rfl⟩ := Option.map_eq_some_iff.mp found
  have same : named.1 = column := by simpa using List.find?_some first
  rw [← same]
  exact List.mem_of_find?_eq_some first

theorem holdsValue_iff {file : ParquetFile} {column : Column} {g : Nat} {v : Str} :
    file.HoldsValue column g v ↔
      ∃ rowGroup, file.rowGroups[g]? = some rowGroup ∧ v ∈ RowGroup.values rowGroup column := by
  simp only [ParquetFile.HoldsValue, mem_values_iff]

/-- What is true of the values of every row group is true of every value held. -/
theorem forall_holdsValue_iff {file : ParquetFile} {column : Column} {p : Str → Prop} :
    (∀ g v, file.HoldsValue column g v → p v) ↔
      ∀ rowGroup ∈ file.rowGroups, ∀ v ∈ RowGroup.values rowGroup column, p v := by
  simp only [holdsValue_iff]
  constructor
  · intro all rowGroup member v held
    obtain ⟨g, position⟩ := List.mem_iff_getElem?.mp member
    exact all g v ⟨rowGroup, position, held⟩
  · rintro all g v ⟨rowGroup, position, held⟩
    exact all rowGroup (List.mem_of_getElem? position) v held

instance (file : ParquetFile) (column : Column) (g : Nat) (v : Str) :
    Decidable (file.HoldsValue column g v) :=
  decidable_of_iff (∃ rowGroup ∈ file.rowGroups[g]?, v ∈ RowGroup.values rowGroup column)
    (by simp only [holdsValue_iff, Option.mem_def])

/-- A column with a Utf8 cell somewhere in the file is a Utf8 column of the
file. -/
theorem utf8Column_of_holdsValue {file : ParquetFile} {column : Column} {g : Nat} {v : Str}
    (holds : file.HoldsValue column g v) : file.Utf8Column column := by
  obtain ⟨rowGroup, position, row, inGroup, held⟩ := holds
  obtain ⟨batch, inRowGroup, inBatch⟩ := List.mem_flatMap.mp inGroup
  obtain ⟨i, -, rfl⟩ := List.mem_map.mp inBatch
  intro other member batch' inOther array' found'
  cases found : batch.columnByName column with
  | none => simp [RecordBatch.row, found] at held
  | some array =>
      simp only [RecordBatch.row, found] at held
      obtain ⟨values, downcast, -⟩ := cell_utf8_iff.mp held
      have known : (column, array) ∈ batchColumns file.rowGroups :=
        List.mem_flatMap.mpr ⟨rowGroup, List.mem_of_getElem? position,
          List.mem_flatMap.mpr ⟨batch, inRowGroup, columnByName_mem found⟩⟩
      have known' : (column, array') ∈ batchColumns file.rowGroups :=
        List.mem_flatMap.mpr ⟨other, member,
          List.mem_flatMap.mpr ⟨batch', inOther, columnByName_mem found'⟩⟩
      have same := file.oneSchema _ known _ known' rfl
      simp only [ArrayRef.isStringArray, downcast, Option.isSome_some] at same
      cases array' with
      | stringArray values' => exact ⟨values', rfl⟩
      | otherArray values' => simp [ArrayRef.asStringArray] at same

/-- A Utf8 column has a null or a Utf8 cell in every row. -/
theorem cell_of_utf8Column {rowGroup : RowGroup} {column : Column}
    (typed : RowGroup.Utf8Column rowGroup column) {row : Row}
    (member : row ∈ RowGroup.rows rowGroup) :
    row column = .null ∨ ∃ value, row column = .string .utf8 value := by
  obtain ⟨batch, inGroup, inBatch⟩ := List.mem_flatMap.mp member
  obtain ⟨i, -, rfl⟩ := List.mem_map.mp inBatch
  cases found : batch.columnByName column with
  | none => exact Or.inl (by simp [RecordBatch.row, found])
  | some array =>
      obtain ⟨values, rfl⟩ := typed batch inGroup array found
      cases at_i : values[i]? with
      | none => exact Or.inl (by simp [RecordBatch.row, found, ArrayRef.cell, at_i])
      | some value => exact Or.inr ⟨value, by simp [RecordBatch.row, found, ArrayRef.cell, at_i]⟩

end Pdq
