/- Pdq.Index.Incremental -- runs that mix file changes with index runs.

The sub-directory of a file is a slot that shares one record, metadata.txt,
between the FSTs of all columns, and an unforced visit refreshes that slot
(`slot_refreshed`).  So the general law of shared stamps applies: a run whose
index runs never move the record to another file version while another column's
FST is there leaves a coherent slot for every path (`coherent_of_reached`), and
after each of its index runs the index is current (`current_of_reached`).
Without that restriction it need not be (`second_column_stale_refuted`). -/
import Pdq.Index.Rebuild
import Pdq.Theory.SharedStamp

namespace Pdq

open Theory Theory.SharedStamp

set_option autoImplicit false

/-! ## A sub-directory as a slot -/

/-- The modification time and size on record. -/
def IndexDir.recordedStamp (indexDir : IndexDir) : Option (Nat × Nat) :=
  match indexDir.metadata with
  | some (.text contents) => storedStamp contents
  | _ => none

/-- The row-group count on record. -/
def IndexDir.recordedCount (indexDir : IndexDir) : Option Nat :=
  match indexDir.metadata with
  | some (.text contents) => (fileMapEntry contents).bind Prod.snd
  | _ => none

/-- Of the FSTs, those of `columns`. -/
def IndexDir.slot (columns : Set Column) (indexDir : IndexDir) :
    Slot columns (Nat × Nat) (Option Nat) FstFile where
  record := indexDir.recordedStamp.map fun stamp => (stamp, indexDir.recordedCount)
  entry column := indexDir.fst column

theorem slot_empty (columns : Set Column) : IndexDir.empty.slot columns = Slot.empty :=
  Slot.ext rfl (funext fun column => IndexDir.fst_empty column)

/-- A file version, as the index records it. -/
def version (columns : Set Column) (file : FileTree.DataFile) :
    Version columns (Nat × Nat) (Option Nat) FstFile where
  stamp := (file.mtime.toNat, file.size.toNat)
  info := some file.content.numRowGroups
  value column := .valid (columnKeys file.content column)

theorem slot_stamp (columns : Set Column) (indexDir : IndexDir) :
    (indexDir.slot columns).record.map Prod.fst = indexDir.recordedStamp := by
  simp [IndexDir.slot, Option.map_map, Function.comp_def]

/-- The freshness test of the slot is the one `needs_indexing` makes. -/
theorem fresh_iff {columns : Set Column} {indexDir : IndexDir} {file : FileTree.DataFile}
    {column : columns} :
    (indexDir.slot columns).Fresh (version columns file) column ↔
      indexDir.UpToDate file column := by
  unfold Slot.Fresh
  rw [slot_stamp]
  refine and_congr_right fun _ => ?_
  simp only [IndexDir.recordedStamp, version]
  split
  · rename_i contents text
    rw [text]
    constructor
    · exact fun stored => ⟨contents, rfl, stored⟩
    · rintro ⟨contents', same, stored⟩
      cases same
      exact stored
  · rename_i notText
    refine iff_of_false (by simp) ?_
    rintro ⟨contents, text, -⟩
    exact notText contents text

theorem recordedStamp_indexed {filePath : Path} (one : OneLine filePath) (indexDir : IndexDir)
    (file : FileTree.DataFile) (column : Column) :
    (indexDir.indexed filePath file column).recordedStamp =
      some (file.mtime.toNat, file.size.toNat) := by
  rw [IndexDir.recordedStamp, IndexDir.indexed_metadata]
  exact storedStamp_content one _ _ _

theorem recordedCount_indexed {filePath : Path} (one : OneLine filePath) (indexDir : IndexDir)
    (file : FileTree.DataFile) (column : Column) :
    (indexDir.indexed filePath file column).recordedCount =
      some file.content.numRowGroups := by
  simp [IndexDir.recordedCount, IndexDir.indexed_metadata,
    fileMapEntry_content one _ _ file.content.fits, ParquetFile.numRowGroups]

/-- **An unforced visit refreshes the slot.** -/
theorem slot_refreshed {columns : Set Column} (own : OwnFiles columns) {filePath : Path}
    (one : OneLine filePath) (indexDir : IndexDir) (file : FileTree.DataFile) (column : columns)
    (named : fstFile column ≠ none) :
    (indexDir.refreshed filePath file column).slot columns =
      (indexDir.slot columns).refresh (version columns file) column := by
  by_cases upToDate : indexDir.UpToDate file column
  · rw [Slot.refresh_of_fresh (fresh_iff.mpr upToDate), IndexDir.refreshed, if_pos upToDate]
  · rw [Slot.refresh_of_stale (mt fresh_iff.mp upToDate), IndexDir.refreshed, if_neg upToDate]
    refine Slot.ext ?_ (funext fun other => ?_)
    · simp [IndexDir.slot, Slot.store, recordedStamp_indexed one, recordedCount_indexed one,
        version]
    · by_cases same : other = column
      · subst same
        rw [Slot.store_entry_self]
        exact IndexDir.indexed_fst_self _ _ _ named
      · have ne : fstFile other ≠ fstFile column :=
          own.ne column.2 other.2 named fun equal => same (Subtype.ext equal)
        rw [Slot.store_entry_ne _ _ same]
        exact IndexDir.indexed_fst_ne _ _ _ ne

/-! ## Runs -/

/-- The data files and the index directory. -/
structure World where
  tree : FileTree
  root : IndexRoot

/-- Every data file of the tree is one of the versions its path may ever have. -/
def Known (history : Path → Set FileTree.DataFile) (tree : FileTree) : Prop :=
  ∀ path file, tree.dataFile? path = some file → file ∈ history path

section Run

variable (calculateFileHash : Path → Str) (history : Path → Set FileTree.DataFile)
  (paths : Set Path) (columns : Set Column) (allowed : World → Path → Column → Prop)

/-- The states reached from an empty index directory by changing files and by
successful unforced index runs; `paths` has every path indexed, and `allowed`
says which index runs may be made. -/
inductive Reached : World → Prop
  | start (tree : FileTree) (known : Known history tree) : Reached ⟨tree, ∅⟩
  | change {world : World} (reached : Reached world) (tree : FileTree)
      (known : Known history tree) : Reached ⟨tree, world.root⟩
  | build {world : World} (reached : Reached world) {dataDir : Path} {column : Column}
      {root : IndexRoot} (visited : ∀ path ∈ world.tree.parquetEntries dataDir, path ∈ paths)
      (may : allowed world dataDir column)
      (ok : buildIndexExt calculateFileHash world.tree world.root dataDir column false =
        .ok root) : Reached ⟨world.tree, root⟩

/-- The index run is by one of the columns, reads no path with a line feed, and finds each
file it visits either as recorded or without an FST for another of the columns. -/
def MovesAlone (world : World) (dataDir : Path) (column : Column) : Prop :=
  column ∈ columns ∧ ∀ path ∈ world.tree.parquetEntries dataDir, ¬ '\n' ∈ path ∧
    ∀ file, world.tree.dataFile? path = some file →
      (world.root.dir (calculateFileHash path)).recordedStamp =
          some (file.mtime.toNat, file.size.toNat) ∨
        ∀ other ∈ columns, other ≠ column →
          (world.root.dir (calculateFileHash path)).fst other = none

end Run

/-- Every sub-directory is that of a path that was walked, and records it. -/
def RecordsPaths (calculateFileHash : Path → Str) (paths : Set Path) (root : IndexRoot) : Prop :=
  ∀ fileHash indexDir, root.lookup fileHash = some indexDir →
    ∃ path ∈ paths, calculateFileHash path = fileHash ∧ hasParquetExtension path = true ∧
      ∃ mtime size numRowGroups,
        indexDir.metadata = some (.text (metadataContent path mtime size numRowGroups))

/-- The index of one column of a file matches the file. -/
structure IndexDir.Current (indexDir : IndexDir) (file : FileTree.DataFile) (column : Column) :
    Prop where
  keys : indexDir.fst column = some (.valid (columnKeys file.content column))
  count : indexDir.recordedCount = some file.content.numRowGroups

section Coherence

variable {calculateFileHash : Path → Str} {history : Path → Set FileTree.DataFile}
  {paths : Set Path} {columns : Set Column} {world : World}

/-- **The invariant rule of runs** for what the index directory alone decides: what
indexing a data file keeps, every reached index directory has. -/
theorem reached_invariant {allowed : World → Path → Column → Prop} (P : IndexRoot → Prop)
    (start : P ∅)
    (step : ∀ path ∈ paths, hasParquetExtension path = true →
      ∀ (file : FileTree.DataFile) (column : Column), fstFile column ≠ none →
      ∀ now : IndexRoot, P now →
        P (now.insert (calculateFileHash path)
          ((now.dir (calculateFileHash path)).indexed path file column)))
    (reached : Reached calculateFileHash history paths allowed world) : P world.root := by
  induction reached with
  | start _ _ => exact start
  | change _ _ _ ih => exact ih
  | build _ visited _ ok ih =>
      refine buildIndexExt_invariant P (fun path inWalk file _ named now held => ?_) ih ok
      exact step path (visited path inWalk) (List.mem_filter.mp inWalk).2 file _ named now held

theorem RecordsPaths.indexed {root : IndexRoot}
    (records : RecordsPaths calculateFileHash paths root)
    {path : Path} (member : path ∈ paths) (selected : hasParquetExtension path = true)
    (file : FileTree.DataFile) (column : Column) :
    RecordsPaths calculateFileHash paths (root.insert (calculateFileHash path)
      ((root.dir (calculateFileHash path)).indexed path file column)) := by
  refine FiniteMap.forall_lookup_insert ?_ fun fileHash indexDir _ present =>
    records fileHash indexDir present
  exact ⟨path, member, rfl, selected, _, _, _, IndexDir.indexed_metadata _ _ _ _⟩

/-- **Runs of index runs record the paths they walk, and no other.** -/
theorem recordsPaths_of_reached {allowed : World → Path → Column → Prop}
    (reached : Reached calculateFileHash history paths allowed world) :
    RecordsPaths calculateFileHash paths world.root :=
  reached_invariant (RecordsPaths calculateFileHash paths) FiniteMap.forall_lookup_empty
    (fun _ member selected file column _ _ held => held.indexed member selected file column)
    reached

/-- **Runs by some columns leave FSTs under their names only.** -/
theorem fst_of_reached {allowed : World → Path → Column → Prop}
    (within : ∀ world dataDir column, allowed world dataDir column → column ∈ columns)
    (reached : Reached calculateFileHash history paths allowed world) {fileHash : Str}
    {column : Column} (held : (world.root.dir fileHash).fst column ≠ none) :
    ∃ other ∈ columns, fstFile other = fstFile column := by
  induction reached with
  | start _ _ => exact absurd (IndexDir.fst_empty column) held
  | change _ _ _ ih => exact ih held
  | build _ _ may ok ih =>
      refine buildIndexExt_invariant
        (fun now => (now.dir fileHash).fst column ≠ none →
          ∃ other ∈ columns, fstFile other = fstFile column)
        (fun path _ file _ _ now before held => ?_) ih ok held
      by_contra other
      refine held ?_
      rw [IndexRoot.fst_insert_indexed_ne _ _ _
        (Or.inr fun same => other ⟨_, within _ _ _ may, same.symm⟩)]
      by_contra earlier
      exact other (before earlier)

/-- No two contents of one path share modification time and size. -/
def StampsDiffer (history : Path → Set FileTree.DataFile) : Prop :=
  ∀ path, ∀ file ∈ history path, ∀ file' ∈ history path, file.mtime = file'.mtime →
    file.size = file'.size → file.content = file'.content

/-- A version is determined by its stamp. -/
theorem eq_of_stamp (differ : StampsDiffer history) {path : Path} {file file' : FileTree.DataFile}
    (known : file ∈ history path) (known' : file' ∈ history path)
    (mtime : file.mtime.toNat = file'.mtime.toNat) (size : file.size.toNat = file'.size.toNat) :
    file = file' := by
  have mtime' := UInt64.toNat_inj.mp mtime
  have size' := UInt64.toNat_inj.mp size
  have content := differ path file known file' known' mtime' size'
  cases file
  cases file'
  simp only at mtime' size' content
  rw [mtime', size', content]

theorem stampsIdentify (differ : StampsDiffer history) (path : Path) :
    StampsIdentify (version columns '' history path) := by
  rintro _ ⟨file, member, rfl⟩ _ ⟨file', member', rfl⟩ same
  obtain ⟨mtime, size⟩ := Prod.mk.inj same
  rw [eq_of_stamp differ member member' mtime size]

theorem known_of_reached {allowed : World → Path → Column → Prop}
    (reached : Reached calculateFileHash history paths allowed world) :
    Known history world.tree := by
  induction reached with
  | start tree known => exact known
  | change _ tree known => exact known
  | build _ _ _ _ ih => exact ih

/-- **An index run that moves alone keeps every sub-directory a partial copy of one
version of its file.** -/
theorem coherent_build (differ : StampsDiffer history) (own : OwnFiles columns)
    (distinct : Set.InjOn calculateFileHash paths) (known : Known history world.tree)
    (coherent : ∀ path ∈ paths,
      Coherent (version columns '' history path)
        ((world.root.dir (calculateFileHash path)).slot columns))
    {dataDir : Path} {column : Column} {root : IndexRoot}
    (visited : ∀ path ∈ world.tree.parquetEntries dataDir, path ∈ paths)
    (may : MovesAlone calculateFileHash columns world dataDir column)
    (ok : buildIndexExt calculateFileHash world.tree world.root dataDir column false = .ok root) :
    ∀ path ∈ paths,
      Coherent (version columns '' history path)
        ((root.dir (calculateFileHash path)).slot columns) := by
  intro path member
  rw [buildIndex_dir (fun other inWalk => distinct (visited other inWalk) member) ok]
  split
  · rename_i inWalk
    cases found : world.tree.dataFile? path with
    | none =>
        simp only [rebuilt, found]
        exact coherent path member
    | some file =>
        obtain ⟨noFeed, alone⟩ := may.2 path inWalk
        have one : OneLine path :=
          oneLine_of_hasParquetExtension (List.mem_filter.mp inWalk).2 noFeed
        have inHistory : version columns file ∈ version columns '' history path :=
          ⟨file, known path file found, rfl⟩
        have named := named_of_buildIndexExt inWalk ok
        rw [rebuilt_of_dataFile found,
          slot_refreshed own one _ _ ⟨column, may.1⟩ named]
        refine Or.inr ⟨version columns file, inHistory, ?_⟩
        refine refresh_describes (stampsIdentify differ path) (coherent path member) inHistory
          ⟨column, may.1⟩ ?_
        rw [slot_stamp]
        refine (alone file found).imp_right fun others other ne => ?_
        exact others other other.2 fun same => ne (Subtype.ext same)
  · exact coherent path member

/-- **Every sub-directory stays a partial copy of one version of its file.** -/
theorem coherent_of_reached (differ : StampsDiffer history) (own : OwnFiles columns)
    (distinct : Set.InjOn calculateFileHash paths)
    (reached : Reached calculateFileHash history paths (MovesAlone calculateFileHash columns)
      world) :
    ∀ path ∈ paths,
      Coherent (version columns '' history path)
        ((world.root.dir (calculateFileHash path)).slot columns) := by
  induction reached with
  | start tree known =>
      intro path _
      exact Or.inl (slot_empty columns)
  | change _ tree known ih => exact ih
  | build reached visited may ok ih =>
      exact coherent_build differ own distinct (known_of_reached reached) ih visited may ok

/-- **After each index run of such a run, the index is current.** -/
theorem current_of_reached (differ : StampsDiffer history) (own : OwnFiles columns)
    (distinct : Set.InjOn calculateFileHash paths)
    (reached : Reached calculateFileHash history paths (MovesAlone calculateFileHash columns)
      world)
    {dataDir : Path} {column : Column} {root : IndexRoot}
    (visited : ∀ path ∈ world.tree.parquetEntries dataDir, path ∈ paths)
    (may : MovesAlone calculateFileHash columns world dataDir column)
    (ok : buildIndexExt calculateFileHash world.tree world.root dataDir column false = .ok root)
    {path : Path} (inWalk : path ∈ world.tree.parquetEntries dataDir) {file : FileTree.DataFile}
    (found : world.tree.dataFile? path = some file) :
    (root.dir (calculateFileHash path)).Current file column := by
  have member := visited path inWalk
  have one : OneLine path :=
    oneLine_of_hasParquetExtension (List.mem_filter.mp inWalk).2 (may.2 path inWalk).1
  have known : version columns file ∈ version columns '' history path :=
    ⟨file, known_of_reached reached path file found, rfl⟩
  have identify := @stampsIdentify _ columns differ path
  have coherent := coherent_of_reached differ own distinct reached path member
  have slot : (root.dir (calculateFileHash path)).slot columns =
      ((world.root.dir (calculateFileHash path)).slot columns).refresh (version columns file)
        ⟨column, may.1⟩ := by
    rw [buildIndex_dir (fun other inWalk => distinct (visited other inWalk) member) ok,
      if_pos inWalk, rebuilt_of_dataFile found]
    exact slot_refreshed own one _ _ ⟨column, may.1⟩ (named_of_buildIndexExt inWalk ok)
  constructor
  · have entry := refresh_entry identify coherent known ⟨column, may.1⟩
    rw [← slot] at entry
    exact entry
  · have record := refresh_record identify coherent known ⟨column, may.1⟩
    rw [← slot] at record
    obtain ⟨stamp, -, same⟩ := Option.map_eq_some_iff.mp record
    exact (Prod.mk.inj same).2

end Coherence

/-! ## A rewritten file, with one column and with two -/

def cityColumn : Column := "city".toList

def personColumns : Set Column := {sampleColumn, cityColumn}

theorem ownFiles_person : OwnFiles personColumns := by
  refine ownFiles_of_stems ?_
  rintro column (rfl | rfl)
  · decide
  · decide

theorem named_cityColumn : fstFile cityColumn ≠ none := by decide

/-- One row with two columns. -/
def pairBatch (column other : Column) (values : Str × Str) : RecordBatch where
  numRows := 1
  columns := [(column, .stringArray [some values.1]), (other, .stringArray [some values.2])]
  aligned := by simp [ArrayRef.length]

/-- A file of two columns, with one row in each row group. -/
def pairFile (mtime : UInt64) (column other : Column) (rows : List (Str × Str))
    (fits : rows.length < usizeBound) : FileTree.DataFile where
  mtime := mtime
  size := 1024
  content := {
    rowGroups := rows.map fun values => [pairBatch column other values]
    fits := by rwa [List.length_map]
    oneSchema := by
      have strings : ∀ named ∈ batchColumns
          (rows.map fun values => [pairBatch column other values]),
        named.2.isStringArray = true := by
        intro named member
        simp only [batchColumns, List.mem_flatMap, List.mem_map] at member
        obtain ⟨rowGroup, ⟨values, -, rfl⟩, batch, inGroup, inBatch⟩ := member
        rw [List.mem_singleton.mp inGroup] at inBatch
        rcases List.mem_pair.mp inBatch with rfl | rfl <;> rfl
      intro a memberA b memberB _
      rw [strings a memberA, strings b memberB] }

theorem rows_pairBatch (column other : Column) (values : Str × Str) :
    RowGroup.rows [pairBatch column other values] = [(pairBatch column other values).row 0] := rfl

theorem row_pairBatch (column other : Column) (values : Str × Str) :
    (pairBatch column other values).row 0 column = .string .utf8 (some values.1) := by
  simp [RecordBatch.row, RecordBatch.columnByName, pairBatch, ArrayRef.cell]

theorem row_pairBatch_ne {column other : Column} (ne : other ≠ column) (values : Str × Str) :
    (pairBatch column other values).row 0 other = .string .utf8 (some values.2) := by
  simp [RecordBatch.row, RecordBatch.columnByName, pairBatch, ArrayRef.cell, ne.symm]

section PairFile

variable {mtime : UInt64} {column other : Column} {rows : List (Str × Str)}
  {fits : rows.length < usizeBound} {g : Nat} {v : Str}

theorem holdsValue_pairFile :
    (pairFile mtime column other rows fits).content.HoldsValue column g v ↔
      ∃ values, rows[g]? = some values ∧ v = values.1 := by
  simp only [ParquetFile.HoldsValue, pairFile, List.getElem?_map, Option.map_eq_some_iff,
    exists_exists_and_eq_and, rows_pairBatch, List.mem_singleton, exists_eq_left, row_pairBatch,
    ScalarValue.string.injEq, Option.some.injEq, true_and, eq_comm (a := v)]

theorem holdsValue_pairFile_ne (ne : other ≠ column) :
    (pairFile mtime column other rows fits).content.HoldsValue other g v ↔
      ∃ values, rows[g]? = some values ∧ v = values.2 := by
  simp only [ParquetFile.HoldsValue, pairFile, List.getElem?_map, Option.map_eq_some_iff,
    exists_exists_and_eq_and, rows_pairBatch, List.mem_singleton, exists_eq_left,
    row_pairBatch_ne ne, ScalarValue.string.injEq, Option.some.injEq, true_and, eq_comm (a := v)]

end PairFile

/-- A file of one row with a name and a city. -/
def personFile (mtime : UInt64) (name city : Str) : FileTree.DataFile :=
  pairFile mtime sampleColumn cityColumn [(name, city)] (by simp [usizeBound, UInt64.size])

def alice : FileTree.DataFile := personFile 1700000000 "alice".toList "paris".toList

def bob : FileTree.DataFile := personFile 1700000060 "bob".toList "rome".toList

def personHistory : Path → Set FileTree.DataFile := fun _ => {alice, bob}

theorem personHistory_differ : StampsDiffer personHistory := by
  rintro path file (rfl | rfl) file' (rfl | rfl) mtime size
  · rfl
  · exact absurd mtime (by decide)
  · exact absurd mtime (by decide)
  · rfl

theorem known_singleTree {history : Path → Set FileTree.DataFile} {path : Path}
    {file : FileTree.DataFile} (member : file ∈ history path) :
    Known history (singleTree path file) := by
  intro path' file' found
  by_cases same : path' = path
  · subst same
    rw [dataFile_singleTree] at found
    cases found
    exact member
  · simp [singleTree, FileTree.dataFile?, FileTree.resolve, FileTree.ofSpellings, same] at found

theorem known_bob : Known personHistory (singleTree samplePath bob) :=
  known_singleTree (Or.inr rfl)

theorem visited_sample (file : FileTree.DataFile) :
    ∀ path ∈ (singleTree samplePath file).parquetEntries sampleDir,
      path ∈ ({samplePath} : Set Path) := by
  simp [parquetEntries_sample]

theorem movesAlone_empty (file : FileTree.DataFile) :
    MovesAlone sampleHash personColumns ⟨singleTree samplePath file, ∅⟩ sampleDir
      sampleColumn := by
  refine ⟨Or.inl rfl, fun path member => ?_⟩
  rw [List.mem_singleton.mp member]
  exact ⟨by decide, fun _ _ => Or.inr fun other _ _ => IndexDir.fst_empty other⟩

/-- The index of one file, made by one run. -/
theorem reached_single {history : Path → Set FileTree.DataFile}
    {allowed : World → Path → Column → Prop} {file : FileTree.DataFile}
    (member : file ∈ history samplePath)
    (may : allowed ⟨singleTree samplePath file, ∅⟩ sampleDir sampleColumn) :
    Reached sampleHash history {samplePath} allowed
      ⟨singleTree samplePath file, singleRoot samplePath file sampleColumn⟩ := by
  have start : Reached sampleHash history {samplePath} allowed ⟨singleTree samplePath file, ∅⟩ :=
    .start _ (known_singleTree member)
  exact .build start (visited_sample file) may
    (buildIndex_single named_sampleColumn (parquetEntries_sample file) rfl)

/-- Indexed by name only: after the rewrite the index follows. -/
theorem current_sample :
    ((IndexRoot.indexed (.indexed ∅ samplePath alice sampleColumn) samplePath bob
      sampleColumn).dir (sampleHash samplePath)).Current bob sampleColumn := by
  have rebuilt : buildIndexExt sampleHash (singleTree samplePath bob)
      (.indexed ∅ samplePath alice sampleColumn) sampleDir sampleColumn false =
      .ok (.indexed (.indexed ∅ samplePath alice sampleColumn) samplePath bob sampleColumn) :=
    buildIndex_single named_sampleColumn (parquetEntries_sample bob) rfl
  have may : MovesAlone sampleHash personColumns ⟨singleTree samplePath bob,
      .indexed ∅ samplePath alice sampleColumn⟩ sampleDir sampleColumn := by
    refine ⟨Or.inl rfl, fun path member => ?_⟩
    rw [List.mem_singleton.mp member]
    refine ⟨by decide, fun _ _ => Or.inr fun other member ne => ?_⟩
    exact singleRoot_fst_ne (ownFiles_person.ne (Or.inl rfl) member named_sampleColumn ne) _
  have first : Reached sampleHash personHistory {samplePath}
      (MovesAlone sampleHash personColumns) _ :=
    reached_single (Or.inl rfl) (movesAlone_empty alice)
  have rewritten := Reached.change first (singleTree samplePath bob) known_bob
  exact current_of_reached personHistory_differ ownFiles_person (Set.injOn_singleton _ _) rewritten
    (visited_sample bob) may rebuilt (List.mem_singleton.mpr rfl) (dataFile_singleTree _ _)

/-- Indexed by name and by city, rewritten, and indexed by both again: the second
column is skipped, because the first has moved the record. -/
theorem second_column_stale_refuted :
    ∃ world root,
      Reached sampleHash personHistory {samplePath} (fun _ _ _ => True) world ∧
      world.tree = singleTree samplePath bob ∧
      buildIndexExt sampleHash world.tree world.root sampleDir cityColumn false = .ok root ∧
      ¬ (root.dir (sampleHash samplePath)).Current bob cityColumn := by
  have cities : buildIndexExt sampleHash (singleTree samplePath alice)
      (.indexed ∅ samplePath alice sampleColumn) sampleDir cityColumn false =
      .ok (.indexed (.indexed ∅ samplePath alice sampleColumn) samplePath alice cityColumn) :=
    buildIndex_single named_cityColumn (parquetEntries_sample alice) rfl
  have namesAgain : buildIndexExt sampleHash (singleTree samplePath bob)
      (.indexed (.indexed ∅ samplePath alice sampleColumn) samplePath alice cityColumn)
      sampleDir sampleColumn false =
      .ok (.indexed (.indexed (.indexed ∅ samplePath alice sampleColumn) samplePath alice
        cityColumn) samplePath bob sampleColumn) :=
    buildIndex_single named_sampleColumn (parquetEntries_sample bob) rfl
  have citiesSkipped : buildIndexExt sampleHash (singleTree samplePath bob)
      (.indexed (.indexed (.indexed ∅ samplePath alice sampleColumn) samplePath alice
        cityColumn) samplePath bob sampleColumn) sampleDir cityColumn false =
      .ok (.indexed (.indexed (.indexed ∅ samplePath alice sampleColumn) samplePath alice
        cityColumn) samplePath bob sampleColumn) := by
    rw [buildIndex_of_single (parquetEntries_sample bob)]
    exact indexEntry_of_skipped rfl
  have first : Reached sampleHash personHistory {samplePath} (fun _ _ _ => True) _ :=
    reached_single (Or.inl rfl) trivial
  have second := Reached.build first (visited_sample alice) trivial cities
  have rewritten := Reached.change second (singleTree samplePath bob) known_bob
  have third := Reached.build rewritten (visited_sample bob) trivial namesAgain
  exact ⟨_, _, third, rfl, citiesSkipped, fun current => absurd current.keys (by decide)⟩

end Pdq
