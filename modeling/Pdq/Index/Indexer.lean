/- Pdq.Index.Indexer -- the indexer over an index directory.

An index directory maps file hashes to sub-directories, each with one
metadata.txt and one FST file per column.  The name of that file is made of the
text of the column (`fstFile`): two columns may name one file, and a column may
name none, which `File::create` refuses.  `indexFile` and `needsIndexing` are
given by one specification lemma each (`indexFile_of_dataFile`,
`needsIndexing_ok`); a whole `build_index_ext` run is the fold of `indexEntry`
over the Parquet files of the walk. -/
import Mathlib.Data.List.TakeWhile
import Pdq.Index.Metadata
import Pdq.Theory.FiniteMap
import Pdq.Theory.FallibleLoop
import Pdq.Theory.Labels

namespace Pdq

open Theory KeyFormat

set_option autoImplicit false

/-! ## The index directory -/

/-- The keys of an FST, in byte order. -/
abbrev FstSet := SortedSet Bytes

/-- A text file, as `read_to_string` finds it. -/
inductive TextFile where
  | text (contents : Str)
  | invalidUtf8
  deriving DecidableEq, Repr

/-- An FST file, as opening, mapping and validating it finds it. -/
inductive FstFile where
  | valid (keys : FstSet)
  | invalid
  deriving DecidableEq

/-- What may stand before `.fst` in the name of a file: no separator, no NUL, and no more
than a file name of 255 bytes holds. -/
def IsFileStem (stem : Str) : Prop :=
  ¬ '/' ∈ stem ∧ ¬ '\x00' ∈ stem ∧ (utf8 stem).length ≤ 251

instance (stem : Str) : Decidable (IsFileStem stem) :=
  inferInstanceAs (Decidable (_ ∧ _ ∧ _))

/-- The FST files of a sub-directory, by the stem of their name. -/
abbrev FstName := { stem : Str // IsFileStem stem }

/-- The file of the sub-directory that `{column}.fst` leads to.  The sub-directory has no
directories below it, so all that may stand before the name are `.` and doubled
separators. -/
def fstFile (column : Column) : Option FstName :=
  match (column.splitOn '/').reverse with
  | [] => none
  | stem :: dirs =>
      if (∀ dir ∈ dirs, dir = [] ∨ dir = ['.']) ∧ dirs.getLast? ≠ some [] then
        if isStem : IsFileStem stem then some ⟨stem, isStem⟩ else none
      else none

/-- `{column}.fst` is an absolute path or leaves the sub-directory by `..`.  Where it leads
is not followed. -/
def LeadsOut (column : Column) : Prop :=
  let dirs := (column.splitOn '/').dropLast
  dirs.head? = some [] ∨
    (dirs.dropWhile fun dir => decide (dir = [] ∨ dir = ['.'])).head? = some ['.', '.']

instance (column : Column) : Decidable (LeadsOut column) :=
  inferInstanceAs (Decidable (_ ∨ _))

/-- `{column}.fst` stays in the sub-directory and is no file there can be: it has a NUL, is
too long, or lies in a directory that is not there. -/
def NamesNoFile (column : Column) : Prop := fstFile column = none ∧ ¬ LeadsOut column

instance (column : Column) : Decidable (NamesNoFile column) :=
  inferInstanceAs (Decidable (_ ∧ _))

/-- The first name that `{column}.fst` has looked up in the sub-directory. -/
def firstName (column : Column) : Str :=
  let parts := column.splitOn '/'
  (parts.dropLast.dropWhile fun dir => decide (dir = [] ∨ dir = ['.'])).head?.getD
    (parts.getLast?.getD [] ++ ['.', 'f', 's', 't'])

/-- `File::open` on `{column}.fst` finds the file or that there is none.  Any other name is
refused: it has a NUL or is too long. -/
def Opens (column : Column) : Prop :=
  ¬ '\x00' ∈ column ∧ (utf8 (firstName column)).length ≤ 255

instance (column : Column) : Decidable (Opens column) :=
  inferInstanceAs (Decidable (_ ∧ _))

/-- The columns stay in the sub-directory, and no two of them share a file there. -/
structure OwnFiles (columns : Set Column) : Prop where
  stays : ∀ column ∈ columns, ¬ LeadsOut column
  apart : ∀ column ∈ columns, ∀ other ∈ columns, fstFile other = fstFile column →
    fstFile column ≠ none → other = column

/-- The sub-directory of one file hash. -/
structure IndexDir where
  metadata : Option TextFile
  files : FstName → Option FstFile

def IndexDir.empty : IndexDir := ⟨none, fun _ => none⟩

/-- `<column>.fst` -/
def IndexDir.fst (indexDir : IndexDir) (column : Column) : Option FstFile :=
  (fstFile column).bind indexDir.files

/-- The sub-directory once `<column>.fst` holds `fst`. -/
def IndexDir.withFst (indexDir : IndexDir) (column : Column) (fst : FstFile) : IndexDir :=
  match fstFile column with
  | some name => { indexDir with files := Function.update indexDir.files name (some fst) }
  | none => indexDir

abbrev IndexRoot := FiniteMap Str IndexDir

namespace IndexRoot

/-- The sub-directory of a hash, empty when there is none. -/
def dir (root : IndexRoot) (fileHash : Str) : IndexDir := (root.lookup fileHash).getD IndexDir.empty

/-- `create_dir_all(&index_dir)` -/
def createDirAll (root : IndexRoot) (fileHash : Str) : IndexRoot :=
  root.insert fileHash (root.dir fileHash)

/-- `std::fs::write(&metadata_path, contents)` -/
def writeMetadata (root : IndexRoot) (fileHash : Str) (contents : Str) : IndexRoot :=
  root.insert fileHash { root.dir fileHash with metadata := some (.text contents) }

/-- `File::create(&index_path)`: the new file can be opened and is no FST yet. -/
def createFst (root : IndexRoot) (fileHash : Str) (column : Column) :
    Except IndexError IndexRoot :=
  if fstFile column = none then .error (.cannotCreate column)
  else .ok (root.insert fileHash ((root.dir fileHash).withFst column .invalid))

/-- Everything the builder writes to it. -/
def writeFst (root : IndexRoot) (fileHash : Str) (column : Column) (set : FstSet) : IndexRoot :=
  root.insert fileHash ((root.dir fileHash).withFst column (.valid set))

end IndexRoot

/-! ## Keys -/

/-- The keys the extraction loop inserts for one row group, in order. -/
def rowGroupKeys (column : Column) (rowGroupIdx : Nat) (rowGroup : RowGroup) : List Bytes :=
  (RowGroup.values rowGroup column).map fun value => keyBytes value rowGroupIdx

/-- The key set of a column: the row groups are read one after the other. -/
def columnKeys (file : ParquetFile) (column : Column) : FstSet :=
  file.rowGroups.zipIdx.foldl
    (fun keys rowGroup => keys.insertAll (rowGroupKeys column rowGroup.2 rowGroup.1))
    SortedSet.empty

namespace SetBuilder

/-- `SetBuilder::insert` refuses a key below an earlier one. -/
def insert (set : FstSet) (key : Bytes) : Except IndexError FstSet :=
  if set.toList.any fun earlier => decide (key < earlier) then .error .outOfOrder
  else .ok (set.insert key)

/-- Insert the keys in order, then finish. -/
def build (keys : List Bytes) : Except IndexError FstSet :=
  keys.foldlM insert SortedSet.empty

end SetBuilder

/-! ## Indexing -/

section Indexer

variable (calculateFileHash : Path → Str)

/-- `Indexer::needs_indexing` -/
def needsIndexing (tree : FileTree) (root : IndexRoot) (filePath : Path) (column : Column) :
    Except IndexError Bool :=
  let indexDir := root.dir (calculateFileHash filePath)
  match indexDir.fst column, indexDir.metadata with
  | some _, some metadata => do
      let (mtime, size) ← tree.fileMetadata filePath
      match metadata with
      | .invalidUtf8 => .error .invalidMetadata
      | .text metadataContent =>
          match storedStamp metadataContent with
          | none => .ok true
          | some (storedMtime, storedSize) =>
              .ok (decide (mtime.toNat ≠ storedMtime) || decide (size.toNat ≠ storedSize))
  | _, _ => .ok true

/-- `Indexer::index_file` -/
def indexFile (tree : FileTree) (root : IndexRoot) (filePath : Path) (column : Column) :
    Except IndexError IndexRoot := do
  let reader ← tree.openParquet filePath
  let keys := columnKeys reader column
  let fileHash := calculateFileHash filePath
  let root := root.createDirAll fileHash
  let (mtime, size) ← tree.fileMetadata filePath
  let root := root.writeMetadata fileHash
    (metadataContent filePath mtime size reader.numRowGroups)
  let root ← root.createFst fileHash column
  let set ← SetBuilder.build keys.toList
  return root.writeFst fileHash column set

/-- The body of the walk of `build_index_ext`. -/
def indexEntry (tree : FileTree) (column : Column) (force : Bool) (root : IndexRoot)
    (filePath : Path) : Except IndexError IndexRoot :=
  if force then indexFile calculateFileHash tree root filePath column
  else do
    let needed ← needsIndexing calculateFileHash tree root filePath column
    if needed then indexFile calculateFileHash tree root filePath column else return root

/-- `Indexer::build_index_ext` -/
def buildIndexExt (tree : FileTree) (root : IndexRoot) (dataDir : Path) (column : Column)
    (force : Bool) : Except IndexError IndexRoot :=
  (tree.parquetEntries dataDir).foldlM (indexEntry calculateFileHash tree column force) root

/-- `Indexer::build_index` -/
def buildIndex (tree : FileTree) (root : IndexRoot) (dataDir : Path) (column : Column) :
    Except IndexError IndexRoot :=
  buildIndexExt calculateFileHash tree root dataDir column false

end Indexer

/-! ## Pruning -/

/-- Whether `prune_orphans` removes a sub-directory. -/
def isOrphan (tree : FileTree) (indexDir : IndexDir) : Except IndexError Bool :=
  match indexDir.metadata with
  | none => .ok true
  | some .invalidUtf8 => .error .invalidMetadata
  | some (.text contents) =>
      match originalPath contents with
      | none => .ok false
      | some path => .ok (tree.resolve path).isNone

/-- `Indexer::prune_orphans`: the index directory it leaves and the number of
sub-directories it removed. -/
def pruneOrphans (tree : FileTree) (root : IndexRoot) : Except IndexError (IndexRoot × Nat) :=
  root.entries.foldlM (fun pruned entry => do
    if ← isOrphan tree entry.2 then return (pruned.1.erase entry.1, pruned.2 + 1)
    else return pruned) (root, 0)

/-! ## The key set of a column -/

theorem mem_rowGroupKeys {column : Column} {g : Nat} {rowGroup : RowGroup} {key : Bytes} :
    key ∈ rowGroupKeys column g rowGroup ↔
      ∃ row ∈ RowGroup.rows rowGroup, ∃ v,
        row column = .string .utf8 (some v) ∧ key = keyBytes v g := by
  simp only [rowGroupKeys, List.mem_map, mem_values_iff]
  constructor
  · rintro ⟨v, ⟨row, member, held⟩, rfl⟩
    exact ⟨row, member, v, held, rfl⟩
  · rintro ⟨row, member, v, held, rfl⟩
    exact ⟨v, ⟨row, member, held⟩, rfl⟩

theorem mem_foldl_insertAll {α : Type} (key : Bytes) (keysOf : α → List Bytes) (l : List α)
    (set : FstSet) :
    key ∈ l.foldl (fun keys a => keys.insertAll (keysOf a)) set ↔
      (∃ a ∈ l, key ∈ keysOf a) ∨ key ∈ set := by
  induction l generalizing set with
  | nil => simp
  | cons a l ih =>
      rw [List.foldl_cons, ih, SortedSet.mem_insertAll]
      simp only [List.mem_cons, exists_eq_or_imp]
      rw [← or_assoc, or_comm (a := ∃ b ∈ l, key ∈ keysOf b)]

/-- **The key set of a column is the set of keys of the values its row groups
hold.** -/
theorem mem_columnKeys {file : ParquetFile} {column : Column} {key : Bytes} :
    key ∈ columnKeys file column ↔ ∃ g v, file.HoldsValue column g v ∧ key = keyBytes v g := by
  have members := mem_foldl_insertAll key
    (fun rowGroup : RowGroup × Nat => rowGroupKeys column rowGroup.2 rowGroup.1)
    file.rowGroups.zipIdx SortedSet.empty
  simp only [columnKeys, members, SortedSet.not_mem_empty, or_false, mem_rowGroupKeys]
  constructor
  · rintro ⟨⟨rowGroup, g⟩, position, row, member, v, held, rfl⟩
    exact ⟨g, v, ⟨rowGroup, List.mem_zipIdx_iff_getElem?.mp position, row, member, held⟩, rfl⟩
  · rintro ⟨g, v, ⟨rowGroup, position, row, member, held⟩, rfl⟩
    exact ⟨(rowGroup, g), List.mem_zipIdx_iff_getElem?.mpr position, row, member, v, held, rfl⟩

theorem rowGroup_lt_of_holdsValue {file : ParquetFile} {column : Column} {g : Nat} {v : Str}
    (holds : file.HoldsValue column g v) : g < file.numRowGroups := by
  obtain ⟨rowGroup, position, -⟩ := holds
  exact (List.getElem?_eq_some_iff.mp position).1

/-! ## The builder accepts an ordered key sequence -/

theorem build_snoc (set : FstSet) (rest : List Bytes)
    (sorted : (set.toList ++ rest).Pairwise (· < ·)) :
    rest.foldlM SetBuilder.insert set = .ok (set.insertAll rest) := by
  induction rest generalizing set with
  | nil => rfl
  | cons key rest ih =>
      obtain ⟨-, -, across⟩ := List.pairwise_append.mp sorted
      have accepted : SetBuilder.insert set key = .ok (set.insert key) := by
        have noneAbove : set.toList.any (fun earlier => decide (key < earlier)) = false := by
          rw [List.any_eq_false]
          intro earlier member above
          exact absurd (of_decide_eq_true above) (across earlier member key (by simp)).asymm
        simp [SetBuilder.insert, noneAbove]
      have appended : (set.insert key).toList = set.toList ++ [key] := by
        have front : (set.toList ++ [key]).Pairwise (· < ·) :=
          sorted.sublist (by simp)
        refine List.SortedLT.eq_of_mem_iff (set.insert key).sorted front.sortedLT fun x => ?_
        rw [SortedSet.mem_toList, SortedSet.mem_insert, List.mem_append, List.mem_singleton,
          SortedSet.mem_toList]
        tauto
      rw [List.foldlM_cons, accepted]
      exact ih (set.insert key) (by rw [appended]; simpa using sorted)

/-- The builder never rejects the iteration of a key set, and stores that set. -/
theorem build_toList (keys : FstSet) : SetBuilder.build keys.toList = .ok keys := by
  rw [SetBuilder.build, build_snoc SortedSet.empty keys.toList keys.sorted.pairwise]
  congr 1
  exact SortedSet.ext_mem fun key => by simp

/-! ## The files of a sub-directory -/

@[simp] theorem IndexDir.fst_empty (column : Column) : IndexDir.empty.fst column = none := by
  simp [IndexDir.fst, IndexDir.empty]

/-- A stem is a column that names its own file. -/
theorem fstFile_stem (name : FstName) : fstFile name.1 = some name := by
  have parts : name.1.splitOn '/' = [name.1] := List.splitOn_eq_singleton name.2.1
  simp [fstFile, parts, name.2]

theorem fstFile_of_isFileStem {column : Column} (stem : IsFileStem column) :
    fstFile column = some ⟨column, stem⟩ := fstFile_stem ⟨column, stem⟩

/-- The parts of a column that names a file. -/
theorem splitOn_of_named {column : Column} {name : FstName} (leads : fstFile column = some name) :
    ∃ dirs : List Str, column.splitOn '/' = dirs ++ [name.1] ∧
      (∀ dir ∈ dirs, dir = [] ∨ dir = ['.']) ∧ dirs.head? ≠ some [] := by
  unfold fstFile at leads
  cases parts : (column.splitOn '/').reverse with
  | nil => rw [parts] at leads; cases leads
  | cons stem dirs =>
      simp only [parts, Option.ite_none_right_eq_some, Option.dite_none_right_eq_some] at leads
      obtain ⟨⟨still, relative⟩, isStem, same⟩ := leads
      cases Option.some.inj same
      refine ⟨dirs.reverse, ?_, fun dir member => still dir (List.mem_reverse.mp member), ?_⟩
      · rw [← List.reverse_reverse (column.splitOn '/'), parts, List.reverse_cons]
      · rwa [List.head?_reverse]

theorem dropWhile_still {dirs : List Str} (still : ∀ dir ∈ dirs, dir = [] ∨ dir = ['.']) :
    (dirs.dropWhile fun dir => decide (dir = [] ∨ dir = ['.'])) = [] :=
  List.dropWhile_eq_nil_iff.mpr fun dir member => decide_eq_true (still dir member)

/-- A column that names a file stays in the sub-directory. -/
theorem not_leadsOut_of_named {column : Column} (named : fstFile column ≠ none) :
    ¬ LeadsOut column := by
  obtain ⟨name, leads⟩ := Option.ne_none_iff_exists'.mp named
  obtain ⟨dirs, parts, still, relative⟩ := splitOn_of_named leads
  rw [LeadsOut, parts, List.dropLast_concat, dropWhile_still still]
  rintro (absolute | leaves)
  · exact relative absolute
  · cases leaves

/-- A name that a file can have is not refused. -/
theorem opens_of_named {column : Column} (named : fstFile column ≠ none) : Opens column := by
  obtain ⟨name, leads⟩ := Option.ne_none_iff_exists'.mp named
  obtain ⟨dirs, parts, still, -⟩ := splitOn_of_named leads
  have first : firstName column = name.1 ++ ['.', 'f', 's', 't'] := by
    simp only [firstName, parts, List.dropLast_concat, dropWhile_still still,
      List.getLast?_concat]
    rfl
  refine ⟨fun member => ?_, ?_⟩
  · have joined : ['/'].intercalate (column.splitOn '/') = column := List.intercalate_splitOn '/'
    rw [← joined, parts, mem_intercalate (by decide)] at member
    obtain ⟨part, inParts, held⟩ := member
    rcases List.mem_append.mp inParts with inDirs | last
    · rcases still part inDirs with rfl | rfl
      · cases held
      · exact absurd (List.mem_singleton.mp held) (by decide)
    · rw [List.mem_singleton.mp last] at held
      exact name.2.2.1 held
  · rw [first, utf8_append, List.length_append]
    exact Nat.add_le_add_right name.2.2.2 4

theorem not_leadsOut_of_isFileStem {column : Column} (stem : IsFileStem column) :
    ¬ LeadsOut column := by
  refine not_leadsOut_of_named ?_
  rw [fstFile_of_isFileStem stem]
  exact Option.some_ne_none _

theorem opens_of_isFileStem {column : Column} (stem : IsFileStem column) : Opens column := by
  refine opens_of_named ?_
  rw [fstFile_of_isFileStem stem]
  exact Option.some_ne_none _

/-- Columns that are stems have files of their own. -/
theorem ownFiles_of_stems {columns : Set Column} (stems : ∀ column ∈ columns, IsFileStem column) :
    OwnFiles columns where
  stays column member := not_leadsOut_of_isFileStem (stems column member)
  apart column member other member' same _ := by
    rw [fstFile_of_isFileStem (stems column member), fstFile_of_isFileStem (stems other member')]
      at same
    exact congrArg Subtype.val (Option.some.inj same)

-- A dot before the separator changes nothing, and a directory is not made for a column.
example : fstFile "./name".toList = fstFile "name".toList := by decide
example : NamesNoFile "a/b".toList := by decide

theorem ownFiles_singleton {column : Column} (stays : ¬ LeadsOut column) : OwnFiles {column} where
  stays := by
    rintro _ rfl
    exact stays
  apart := by
    rintro _ rfl _ rfl _ _
    rfl

theorem OwnFiles.mono {columns columns' : Set Column} (own : OwnFiles columns')
    (part : columns ⊆ columns') : OwnFiles columns where
  stays column member := own.stays column (part member)
  apart column member other member' := own.apart column (part member) other (part member')

/-- Another column has another file. -/
theorem OwnFiles.ne {columns : Set Column} (own : OwnFiles columns) {column other : Column}
    (member : column ∈ columns) (member' : other ∈ columns) (named : fstFile column ≠ none)
    (ne : other ≠ column) : fstFile other ≠ fstFile column :=
  fun same => ne (own.apart column member other member' same named)

/-- The column of a file can be found back. -/
theorem OwnFiles.exists_columnOf {columns : Set Column} (own : OwnFiles columns) :
    ∃ columnOf : FstName → Column, ∀ column ∈ columns, ∀ name, fstFile column = some name →
      columnOf name = column := by
  have pick : ∀ name : FstName, ∃ picked : Column,
      ∀ column ∈ columns, fstFile column = some name → picked = column := by
    intro name
    by_cases used : ∃ column ∈ columns, fstFile column = some name
    · obtain ⟨picked, member, leads⟩ := used
      refine ⟨picked, fun column member' leads' => ?_⟩
      exact own.apart column member' picked member (leads.trans leads'.symm)
        (by rw [leads']; exact Option.some_ne_none _)
    · exact ⟨name.1, fun column member leads => absurd ⟨column, member, leads⟩ used⟩
  choose columnOf picks using pick
  exact ⟨columnOf, fun column member name leads => picks name column member leads⟩

theorem IndexDir.fst_congr (indexDir : IndexDir) {column other : Column}
    (same : fstFile other = fstFile column) : indexDir.fst other = indexDir.fst column := by
  rw [IndexDir.fst, same, IndexDir.fst]

/-- A column with an FST names a file. -/
theorem IndexDir.named_of_fst {indexDir : IndexDir} {column : Column}
    (held : indexDir.fst column ≠ none) : fstFile column ≠ none := by
  intro none
  rw [IndexDir.fst, none] at held
  exact held rfl

/-- A file that is there is not refused. -/
theorem IndexDir.opens_of_fst {indexDir : IndexDir} {column : Column} {fst : FstFile}
    (held : indexDir.fst column = some fst) : Opens column :=
  opens_of_named (IndexDir.named_of_fst (by rw [held]; exact Option.some_ne_none _))

/-- A sub-directory is its record and the FSTs of all columns. -/
theorem IndexDir.ext_fst {indexDir indexDir' : IndexDir}
    (metadata : indexDir.metadata = indexDir'.metadata)
    (fst : ∀ column, indexDir.fst column = indexDir'.fst column) : indexDir = indexDir' := by
  obtain ⟨record, files⟩ := indexDir
  obtain ⟨record', files'⟩ := indexDir'
  obtain rfl : record = record' := metadata
  congr 1
  funext name
  have same := fst name.1
  rw [IndexDir.fst, IndexDir.fst, fstFile_stem] at same
  exact same

@[simp] theorem IndexDir.withFst_metadata (indexDir : IndexDir) (column : Column)
    (fst : FstFile) : (indexDir.withFst column fst).metadata = indexDir.metadata := by
  unfold IndexDir.withFst
  split <;> rfl

theorem IndexDir.withFst_fst_same (indexDir : IndexDir) {column other : Column}
    (named : fstFile column ≠ none) (same : fstFile other = fstFile column) (fst : FstFile) :
    (indexDir.withFst column fst).fst other = some fst := by
  obtain ⟨name, leads⟩ := Option.ne_none_iff_exists'.mp named
  simp [IndexDir.withFst, IndexDir.fst, same, leads]

theorem IndexDir.withFst_fst_ne (indexDir : IndexDir) {column other : Column}
    (ne : fstFile other ≠ fstFile column) (fst : FstFile) :
    (indexDir.withFst column fst).fst other = indexDir.fst other := by
  unfold IndexDir.withFst
  cases leads : fstFile column with
  | none => rfl
  | some name =>
      unfold IndexDir.fst
      cases leads' : fstFile other with
      | none => rfl
      | some name' =>
          have apart : name' ≠ name := by
            rintro rfl
            exact ne (leads'.trans leads.symm)
          exact Function.update_of_ne apart _ _

theorem IndexDir.withFst_withFst (indexDir : IndexDir) (column : Column) (fst fst' : FstFile) :
    (indexDir.withFst column fst).withFst column fst' = indexDir.withFst column fst' := by
  unfold IndexDir.withFst
  cases fstFile column with
  | none => rfl
  | some name => simp [Function.update_idem]

/-! ## One file -/

/-- What `index_file` leaves in the sub-directory of the file. -/
def IndexDir.indexed (indexDir : IndexDir) (filePath : Path) (file : FileTree.DataFile)
    (column : Column) : IndexDir :=
  { indexDir with
    metadata := some (.text
      (metadataContent filePath file.mtime file.size file.content.numRowGroups)) }.withFst column
    (.valid (columnKeys file.content column))

theorem IndexDir.indexed_metadata (indexDir : IndexDir) (filePath : Path)
    (file : FileTree.DataFile) (column : Column) :
    (indexDir.indexed filePath file column).metadata = some (.text
      (metadataContent filePath file.mtime file.size file.content.numRowGroups)) :=
  IndexDir.withFst_metadata _ _ _

theorem IndexDir.indexed_fst_same (indexDir : IndexDir) (filePath : Path)
    (file : FileTree.DataFile) {column other : Column} (named : fstFile column ≠ none)
    (same : fstFile other = fstFile column) :
    (indexDir.indexed filePath file column).fst other =
      some (.valid (columnKeys file.content column)) :=
  IndexDir.withFst_fst_same _ named same _

theorem IndexDir.indexed_fst_self (indexDir : IndexDir) (filePath : Path)
    (file : FileTree.DataFile) {column : Column} (named : fstFile column ≠ none) :
    (indexDir.indexed filePath file column).fst column =
      some (.valid (columnKeys file.content column)) :=
  indexDir.indexed_fst_same filePath file named rfl

theorem IndexDir.indexed_fst_ne (indexDir : IndexDir) (filePath : Path) (file : FileTree.DataFile)
    {column other : Column} (ne : fstFile other ≠ fstFile column) :
    (indexDir.indexed filePath file column).fst other = indexDir.fst other :=
  IndexDir.withFst_fst_ne _ ne _

theorem IndexRoot.dir_of_lookup {root : IndexRoot} {fileHash : Str} {indexDir : IndexDir}
    (present : root.lookup fileHash = some indexDir) : root.dir fileHash = indexDir := by
  simp [IndexRoot.dir, present]

/-- A sub-directory with an FST is there. -/
theorem IndexRoot.lookup_of_fst {root : IndexRoot} {fileHash : Str} {column : Column}
    {fst : FstFile} (held : (root.dir fileHash).fst column = some fst) :
    ∃ indexDir, root.lookup fileHash = some indexDir ∧ indexDir.fst column = some fst := by
  cases present : root.lookup fileHash with
  | none =>
      simp only [IndexRoot.dir, present, Option.getD_none, IndexDir.fst_empty] at held
      cases held
  | some indexDir => exact ⟨indexDir, rfl, by rw [← dir_of_lookup present, held]⟩

theorem IndexRoot.dir_insert_self (root : IndexRoot) (fileHash : Str) (d : IndexDir) :
    IndexRoot.dir (root.insert fileHash d) fileHash = d := by
  simp [IndexRoot.dir]

theorem IndexRoot.dir_insert_ne (root : IndexRoot) {fileHash other : Str} (ne : other ≠ fileHash)
    (d : IndexDir) : IndexRoot.dir (root.insert fileHash d) other = IndexRoot.dir root other := by
  simp [IndexRoot.dir, AList.lookup_insert_ne ne]

/-- The FST of a file that was just indexed. -/
theorem IndexRoot.fst_insert_indexed (root : IndexRoot) (fileHash : Str) (indexDir : IndexDir)
    (filePath : Path) (file : FileTree.DataFile) {column : Column} (named : fstFile column ≠ none) :
    (IndexRoot.dir (root.insert fileHash (indexDir.indexed filePath file column)) fileHash).fst
      column = some (.valid (columnKeys file.content column)) := by
  rw [dir_insert_self, IndexDir.indexed_fst_self _ _ _ named]

/-- The FSTs of other files and under other names are as they were. -/
theorem IndexRoot.fst_insert_indexed_ne (root : IndexRoot) {fileHash fileHash' : Str}
    {column column' : Column} (filePath : Path) (file : FileTree.DataFile)
    (ne : fileHash' ≠ fileHash ∨ fstFile column' ≠ fstFile column) :
    (IndexRoot.dir (root.insert fileHash ((root.dir fileHash).indexed filePath file column))
      fileHash').fst column' = (root.dir fileHash').fst column' := by
  by_cases same : fileHash' = fileHash
  · subst same
    rw [dir_insert_self, IndexDir.indexed_fst_ne _ _ _ (ne.resolve_left fun other => other rfl)]
  · rw [dir_insert_ne root same]

section Specification

variable {calculateFileHash : Path → Str} {tree : FileTree} {root root' : IndexRoot}
  {filePath : Path} {column : Column}

/-- `index_file` succeeds on a data file when the column names a file; it rewrites the
sub-directory of the data file and no other. -/
theorem indexFile_of_dataFile {file : FileTree.DataFile}
    (found : tree.dataFile? filePath = some file) (named : fstFile column ≠ none) :
    indexFile calculateFileHash tree root filePath column =
      .ok (root.insert (calculateFileHash filePath)
        ((root.dir (calculateFileHash filePath)).indexed filePath file column)) := by
  simp only [indexFile, FileTree.openParquet_of_dataFile found,
    FileTree.fileMetadata_of_dataFile found, IndexRoot.createFst, if_neg named, build_toList, bind,
    Except.bind, pure, Except.pure]
  simp [IndexRoot.writeFst, IndexRoot.writeMetadata, IndexRoot.createDirAll,
    IndexRoot.dir_insert_self, IndexDir.withFst_withFst, IndexDir.indexed]

/-- It fails, after it has written metadata.txt, when the column names none. -/
theorem indexFile_of_noName {file : FileTree.DataFile}
    (found : tree.dataFile? filePath = some file) (noName : fstFile column = none) :
    indexFile calculateFileHash tree root filePath column = .error (.cannotCreate column) := by
  simp only [indexFile, FileTree.openParquet_of_dataFile found,
    FileTree.fileMetadata_of_dataFile found, IndexRoot.createFst, if_pos noName, bind, Except.bind]

/-- **What a successful `index_file` has done**: it has indexed a data file. -/
theorem indexFile_effect
    (ok : indexFile calculateFileHash tree root filePath column = .ok root') :
    fstFile column ≠ none ∧ ∃ file, tree.dataFile? filePath = some file ∧
      root' = root.insert (calculateFileHash filePath)
        ((root.dir (calculateFileHash filePath)).indexed filePath file column) := by
  obtain ⟨content, opened, written⟩ := bind_eq_ok_iff.mp ok
  obtain ⟨stamp, stat, -⟩ := bind_eq_ok_iff.mp written
  have found := FileTree.dataFile_of_ok opened stat
  by_cases named : fstFile column = none
  · rw [indexFile_of_noName found named] at ok
    cases ok
  · rw [indexFile_of_dataFile found named] at ok
    exact ⟨named, _, found, (Except.ok.inj ok).symm⟩

/-- **index_file stores exactly the column's content**: the keys come to the
builder strictly increasing, it accepts them all, and the stored set is that of
the keys of the non-null values.  It gets to store them when `File::create` makes the
file of the column. -/
theorem indexFile_stores {file : FileTree.DataFile}
    (found : tree.dataFile? filePath = some file) :
    (columnKeys file.content column).toList.Pairwise (· < ·) ∧
      SetBuilder.build (columnKeys file.content column).toList =
        .ok (columnKeys file.content column) ∧
      (fstFile column ≠ none →
        ∃ root', indexFile calculateFileHash tree root filePath column = .ok root') ∧
      ∀ root', indexFile calculateFileHash tree root filePath column = .ok root' →
        ∃ set, (root'.dir (calculateFileHash filePath)).fst column = some (.valid set) ∧
          ∀ key, key ∈ set ↔ ∃ v g, file.content.HoldsValue column g v ∧
            key = utf8 (v ++ [valueRgSeparator] ++ rowGroupPrefix ++ decimal g) := by
  refine ⟨(columnKeys file.content column).sorted.pairwise, build_toList _,
    fun named => ⟨_, indexFile_of_dataFile found named⟩, fun root' ok => ?_⟩
  obtain ⟨named, file', found', rfl⟩ := indexFile_effect ok
  obtain rfl : file = file' := Option.some.inj (found.symm.trans found')
  refine ⟨columnKeys file.content column, IndexRoot.fst_insert_indexed _ _ _ _ _ named,
    fun key => ?_⟩
  rw [mem_columnKeys, exists_comm]
  rfl

/-- The sub-directory vouches for a file: the FST exists and the recorded mtime
and size are those of the file. -/
def IndexDir.UpToDate (indexDir : IndexDir) (file : FileTree.DataFile) (column : Column) : Prop :=
  indexDir.fst column ≠ none ∧ ∃ contents, indexDir.metadata = some (.text contents) ∧
    storedStamp contents = some (file.mtime.toNat, file.size.toNat)

/-- `needs_indexing` on a data file, when it returns at all. -/
theorem needsIndexing_ok {file : FileTree.DataFile} {needed : Bool}
    (found : tree.dataFile? filePath = some file)
    (ok : needsIndexing calculateFileHash tree root filePath column = .ok needed) :
    needed = false ↔ (root.dir (calculateFileHash filePath)).UpToDate file column := by
  simp only [needsIndexing, FileTree.fileMetadata_of_dataFile found] at ok
  unfold IndexDir.UpToDate
  cases fst : (root.dir (calculateFileHash filePath)).fst column with
  | none =>
      simp only [fst, Except.ok.injEq] at ok
      simp [← ok]
  | some fstFile =>
      cases metadata : (root.dir (calculateFileHash filePath)).metadata with
      | none =>
          simp only [fst, metadata, Except.ok.injEq] at ok
          simp [← ok]
      | some textFile =>
          simp only [fst, metadata, bind, Except.bind] at ok
          cases textFile with
          | invalidUtf8 => simp at ok
          | text contents =>
              cases stored : storedStamp contents with
              | none =>
                  simp only [stored, Except.ok.injEq] at ok
                  simp [← ok, stored]
              | some stamp =>
                  simp only [stored, Except.ok.injEq] at ok
                  simp only [← ok, Bool.or_eq_false_iff, decide_eq_false_iff_not, not_not]
                  constructor
                  · rintro ⟨mtime, size⟩
                    exact ⟨by simp, contents, rfl, by rw [stored, mtime, size]⟩
                  · rintro ⟨-, contents', same, stamped⟩
                    cases same
                    rw [stored] at stamped
                    cases stamped
                    exact ⟨rfl, rfl⟩

/-- An entry that is skipped has an FST. -/
theorem fst_of_skipped
    (skipped : needsIndexing calculateFileHash tree root filePath column = .ok false) :
    (root.dir (calculateFileHash filePath)).fst column ≠ none := by
  intro missing
  simp [needsIndexing, missing] at skipped

/-- What processing one entry of the walk can do: skip it, or index it. -/
theorem indexEntry_cases {force : Bool}
    (ok : indexEntry calculateFileHash tree column force root filePath = .ok root') :
    (root' = root ∧ force = false ∧
      needsIndexing calculateFileHash tree root filePath column = .ok false) ∨
    fstFile column ≠ none ∧ ∃ file, tree.dataFile? filePath = some file ∧
      root' = root.insert (calculateFileHash filePath)
        ((root.dir (calculateFileHash filePath)).indexed filePath file column) ∧
      (force = true ∨ needsIndexing calculateFileHash tree root filePath column = .ok true) := by
  unfold indexEntry at ok
  cases force with
  | true =>
      obtain ⟨named, file, found, same⟩ := indexFile_effect ok
      exact Or.inr ⟨named, file, found, same, Or.inl rfl⟩
  | false =>
      obtain ⟨needed, decided, done⟩ := bind_eq_ok_iff.mp ok
      cases needed with
      | false => exact Or.inl ⟨(Except.ok.inj done).symm, rfl, decided⟩
      | true =>
          obtain ⟨named, file, found, same⟩ := indexFile_effect done
          exact Or.inr ⟨named, file, found, same, Or.inr decided⟩

end Specification

/-! ## Sample data -/

def sampleDir : Path := "/d".toList

def samplePath : Path := "/d/a.parquet".toList

def sampleColumn : Column := "name".toList

def sampleFile : FileTree.DataFile where
  mtime := 1700000000
  size := 1024
  content := .ofStrings sampleColumn [["alice".toList]] (by decide)

/-- The tree that holds one file under one path. -/
def singleTree (path : Path) (file : FileTree.DataFile) : FileTree :=
  .ofSpellings [(path, path)] [(path, file)]

theorem parquetEntries_sample (file : FileTree.DataFile) :
    (singleTree samplePath file).parquetEntries sampleDir = [samplePath] := rfl

theorem dataFile_singleTree (path : Path) (file : FileTree.DataFile) :
    (singleTree path file).dataFile? path = some file := by
  simp [singleTree, FileTree.dataFile?, FileTree.resolve, FileTree.ofSpellings]

/-- The hashes `DefaultHasher` gives a few paths. -/
def sampleHash (path : Path) : Str :=
  ([("/d/a.parquet".toList, "3ee241cfd783d5e4".toList),
    ("/d/b.parquet".toList, "3a18121463282fe4".toList),
    ("/d/a\nb.parquet".toList, "bf81e9cdb57f13b7".toList),
    ("d/a.parquet".toList, "f64a71d29a16a249".toList),
    ("./d/a.parquet".toList, "7a2762d1306d63bd".toList)].lookup path).getD path

/-- The index directory after indexing one file. -/
def IndexRoot.indexed (root : IndexRoot) (path : Path) (file : FileTree.DataFile)
    (column : Column) : IndexRoot :=
  root.insert (sampleHash path) ((root.dir (sampleHash path)).indexed path file column)

theorem IndexRoot.dir_indexed_self (root : IndexRoot) (path : Path) (file : FileTree.DataFile)
    (column : Column) :
    (root.indexed path file column).dir (sampleHash path) =
      (root.dir (sampleHash path)).indexed path file column :=
  IndexRoot.dir_insert_self root _ _

/-- The index of one file alone. -/
def singleRoot (path : Path) (file : FileTree.DataFile) (column : Column) : IndexRoot :=
  IndexRoot.indexed ∅ path file column

/-- One file indexed by one column has an FST under that name only. -/
theorem singleRoot_fst_ne {path : Path} {file : FileTree.DataFile} {column other : Column}
    (ne : fstFile other ≠ fstFile column) (fileHash : Str) :
    ((singleRoot path file column).dir fileHash).fst other = none := by
  by_cases same : fileHash = sampleHash path
  · subst same
    rw [singleRoot, IndexRoot.dir_indexed_self, IndexDir.indexed_fst_ne _ _ _ ne]
    exact IndexDir.fst_empty other
  · rw [singleRoot, IndexRoot.indexed, IndexRoot.dir_insert_ne _ same]
    exact IndexDir.fst_empty other

theorem indexFile_single (path : Path) (file : FileTree.DataFile) {column : Column}
    (named : fstFile column ≠ none) :
    indexFile sampleHash (singleTree path file) ∅ path column =
      .ok (singleRoot path file column) :=
  indexFile_of_dataFile (dataFile_singleTree path file) named

theorem named_sampleColumn : fstFile sampleColumn ≠ none := by decide

theorem ownFiles_sampleColumn : OwnFiles {sampleColumn} :=
  ownFiles_singleton (not_leadsOut_of_named named_sampleColumn)

/-- Eleven row groups in batches with nulls: `rg10` comes before `rg2`. -/
def batchedFile : FileTree.DataFile where
  mtime := 1700000000
  size := 1024
  content := {
    rowGroups := List.replicate 11 [.ofStrings sampleColumn [none, some "b".toList],
      .ofStrings sampleColumn [], .ofStrings sampleColumn ["a\x00b".toList, "a".toList]]
    fits := by decide
    oneSchema := by decide }

theorem indexFile_stores_sample :
    (columnKeys batchedFile.content sampleColumn).toList.Pairwise (· < ·) ∧
      ∃ root', indexFile sampleHash (singleTree samplePath batchedFile) ∅ samplePath sampleColumn =
          .ok root' ∧
        ∃ set, (root'.dir (sampleHash samplePath)).fst sampleColumn = some (.valid set) ∧
          ∀ key, key ∈ set ↔ ∃ v g, batchedFile.content.HoldsValue sampleColumn g v ∧
            key = utf8 (v ++ [valueRgSeparator] ++ rowGroupPrefix ++ decimal g) := by
  obtain ⟨increasing, -, returns, stores⟩ :=
    indexFile_stores (dataFile_singleTree samplePath batchedFile)
  obtain ⟨root', ok⟩ := returns named_sampleColumn
  exact ⟨increasing, root', ok, stores root' ok⟩

end Pdq
