/- Pdq.Index.Maintenance -- an index that is pruned and rebuilt as its files change.

`pdq index --prune` first removes the sub-directories of files that are gone, then
runs the indexer.  `Catalogue` says what such an index is for: for each path and
column it knows the content the file had when it was last indexed by that column.
`Maintains` connects the two.  Changing files, pruning and an index run that moves
alone each keep it (`maintains_change`, `maintains_prune`, `maintains_build`), the
catalogue forgetting what is gone and taking up what is there. -/
import Pdq.Index.Incremental
import Pdq.Index.Prune

namespace Pdq

open Theory Theory.SharedStamp

set_option autoImplicit false

/-! ## The subcommand -/

/-- The `index` subcommand. -/
def indexCommand (calculateFileHash : Path → Str) (tree : FileTree) (root : IndexRoot)
    (prune : Bool) (dataDir : Path) (column : Column) : Except IndexError IndexRoot := do
  let root ← if prune then (pruneOrphans tree root).map Prod.fst else .ok root
  buildIndex calculateFileHash tree root dataDir column

theorem indexCommand_false (calculateFileHash : Path → Str) (tree : FileTree) (root : IndexRoot)
    (dataDir : Path) (column : Column) :
    indexCommand calculateFileHash tree root false dataDir column =
      buildIndex calculateFileHash tree root dataDir column := rfl

theorem indexCommand_true {calculateFileHash : Path → Str} {tree : FileTree}
    {root pruned : IndexRoot} {count : Nat} (ok : pruneOrphans tree root = .ok (pruned, count))
    (dataDir : Path) (column : Column) :
    indexCommand calculateFileHash tree root true dataDir column =
      buildIndex calculateFileHash tree pruned dataDir column := by
  simp only [indexCommand, if_true, ok, Except.map, bind, Except.bind]

/-! ## The catalogue -/

/-- The data files, and for each path and column the content that was indexed
last. -/
structure Catalogue where
  tree : FileTree
  snapshot : Path → Column → Option ParquetFile

namespace Catalogue

/-- Nothing is indexed. -/
def empty (tree : FileTree) : Catalogue := ⟨tree, fun _ _ => none⟩

/-- Forget the files that are gone. -/
def pruned (catalogue : Catalogue) : Catalogue where
  tree := catalogue.tree
  snapshot path column :=
    if (catalogue.tree.resolve path).isNone then none else catalogue.snapshot path column

/-- Take up what the data files under a directory hold now in a column. -/
def indexed (catalogue : Catalogue) (dataDir : Path) (column : Column) :
    Catalogue where
  tree := catalogue.tree
  snapshot path other :=
    if (catalogue.tree.parquetEntries dataDir).contains path && decide (other = column) then
      (catalogue.tree.dataFile? path).elim (catalogue.snapshot path other) fun file =>
        some file.content
    else catalogue.snapshot path other

theorem snapshot_indexed (catalogue : Catalogue) {dataDir path : Path} (column : Column)
    (inWalk : path ∈ catalogue.tree.parquetEntries dataDir) :
    (catalogue.indexed dataDir column).snapshot path column =
      (catalogue.tree.dataFile? path).elim (catalogue.snapshot path column) fun file =>
        some file.content :=
  if_pos (by simpa using inWalk)

theorem snapshot_indexed_ne (catalogue : Catalogue) {dataDir path : Path} {column other : Column}
    (apart : ¬ path ∈ catalogue.tree.parquetEntries dataDir ∨ other ≠ column) :
    (catalogue.indexed dataDir column).snapshot path other = catalogue.snapshot path other :=
  if_neg (by simpa [Decidable.imp_iff_not_or] using apart)

end Catalogue

/-- Every sub-directory is that of a path that was walked, and records a version of
the file there. -/
def RecordsVersions (calculateFileHash : Path → Str) (history : Path → Set FileTree.DataFile)
    (paths : Set Path) (root : IndexRoot) : Prop :=
  ∀ fileHash indexDir, root.lookup fileHash = some indexDir →
    ∃ path ∈ paths, calculateFileHash path = fileHash ∧ hasParquetExtension path = true ∧
      ∃ file ∈ history path, indexDir.metadata =
        some (.text (metadataContent path file.mtime file.size file.content.numRowGroups))

/-- The index directory is that of the catalogue, in the columns given, and has no FSTs
under other names. -/
structure Maintains (calculateFileHash : Path → Str) (history : Path → Set FileTree.DataFile)
    (paths : Set Path) (columns : Set Column) (world : World) (catalogue : Catalogue) :
    Prop where
  tree : catalogue.tree = world.tree
  known : Known history world.tree
  versions : RecordsVersions calculateFileHash history paths world.root
  coherent : ∀ path ∈ paths,
    Coherent (version columns '' history path)
      ((world.root.dir (calculateFileHash path)).slot columns)
  fst : ∀ path ∈ paths, ∀ column ∈ columns, (world.root.dir (calculateFileHash path)).fst column =
    (catalogue.snapshot path column).map fun file => .valid (columnKeys file column)
  noOther : ∀ path ∈ paths, ∀ column, (∀ other ∈ columns, fstFile column ≠ fstFile other) →
    (world.root.dir (calculateFileHash path)).fst column = none
  inside : ∀ path column file, catalogue.snapshot path column = some file →
    path ∈ paths ∧ ∃ data ∈ history path, data.content = file

section Run

variable {calculateFileHash : Path → Str} {history : Path → Set FileTree.DataFile} {tree : FileTree}
  {dataDir : Path} {column : Column} {before root : IndexRoot}

/-- A run leaves alone what is under the hash of no entry. -/
theorem lookup_build_ne {fileHash : Str}
    (other : ∀ path ∈ tree.parquetEntries dataDir, calculateFileHash path ≠ fileHash)
    (ok : buildIndex calculateFileHash tree before dataDir column = .ok root) :
    root.lookup fileHash = before.lookup fileHash :=
  buildIndexExt_invariant (fun now => now.lookup fileHash = before.lookup fileHash)
    (fun path inWalk _ _ _ now held => by
      rw [AList.lookup_insert_ne (other path inWalk).symm, held])
    rfl ok

/-- After a run, the record of an entry names its file as it is. -/
theorem stamp_of_build {columns : Set Column} (own : OwnFiles columns)
    (inColumns : column ∈ columns) {file : FileTree.DataFile} {path : Path}
    (differ : StampsDiffer history)
    (distinct : ∀ other ∈ tree.parquetEntries dataDir,
      calculateFileHash other = calculateFileHash path → other = path)
    (known : Known history tree)
    (coherent : Coherent (version columns '' history path)
      ((before.dir (calculateFileHash path)).slot columns))
    (one : OneLine path) (inWalk : path ∈ tree.parquetEntries dataDir)
    (found : tree.dataFile? path = some file)
    (ok : buildIndex calculateFileHash tree before dataDir column = .ok root) :
    (root.dir (calculateFileHash path)).recordedStamp =
      some (file.mtime.toNat, file.size.toNat) := by
  have inHistory : version columns file ∈ version columns '' history path :=
    ⟨file, known path file found, rfl⟩
  have record := refresh_record (stampsIdentify differ path) coherent inHistory ⟨column, inColumns⟩
  rw [← slot_stamp columns, buildIndex_dir distinct ok, if_pos inWalk, rebuilt_of_dataFile found,
    slot_refreshed own one _ _ ⟨column, inColumns⟩ (named_of_buildIndexExt inWalk ok), record]
  rfl

end Run

section Maintenance

variable {calculateFileHash : Path → Str} {history : Path → Set FileTree.DataFile}
  {paths : Set Path} {columns : Set Column} {world : World} {catalogue : Catalogue}
  {root : IndexRoot}

theorem RecordsVersions.recordsPaths
    (versions : RecordsVersions calculateFileHash history paths root) :
    RecordsPaths calculateFileHash paths root := by
  intro fileHash indexDir present
  obtain ⟨path, member, hashed, selected, file, -, written⟩ := versions fileHash indexDir present
  exact ⟨path, member, hashed, selected, _, _, _, written⟩

theorem Maintains.records
    (maintains : Maintains calculateFileHash history paths columns world catalogue) :
    RecordsPaths calculateFileHash paths world.root :=
  maintains.versions.recordsPaths

theorem maintains_start {tree : FileTree} (known : Known history tree) :
    Maintains calculateFileHash history paths columns ⟨tree, ∅⟩ (.empty tree) where
  tree := rfl
  known := known
  versions := FiniteMap.forall_lookup_empty
  coherent _ _ := Or.inl (slot_empty columns)
  fst _ _ column _ := IndexDir.fst_empty column
  noOther _ _ column _ := IndexDir.fst_empty column
  inside _ _ _ held := nomatch held

theorem maintains_change
    (maintains : Maintains calculateFileHash history paths columns world catalogue)
    {tree : FileTree} (known : Known history tree) :
    Maintains calculateFileHash history paths columns ⟨tree, world.root⟩
      ⟨tree, catalogue.snapshot⟩ where
  tree := rfl
  known := known
  versions := maintains.versions
  coherent := maintains.coherent
  fst := maintains.fst
  noOther := maintains.noOther
  inside := maintains.inside

theorem RecordsPaths.textOnly (records : RecordsPaths calculateFileHash paths root) :
    root.TextOnly := by
  intro fileHash
  cases present : root.lookup fileHash with
  | none =>
      rw [IndexRoot.dir, present]
      intro same
      cases same
  | some indexDir =>
      obtain ⟨_, -, -, -, _, _, _, written⟩ := records fileHash indexDir present
      rw [IndexRoot.dir_of_lookup present, written]
      intro same
      cases same

/-! ## Pruning -/

/-- The answer of `prune_orphans` about one hash. -/
def orphanOf (tree : FileTree) (root : IndexRoot) (fileHash : Str) : Bool :=
  match root.lookup fileHash with
  | some indexDir =>
      match isOrphan tree indexDir with
      | .ok orphan => orphan
      | .error _ => false
  | none => false

/-- The sub-directory of a path is removed when the path leads nowhere. -/
theorem isOrphan_of_records (distinct : Set.InjOn calculateFileHash paths)
    (noFeed : ∀ path ∈ paths, ¬ '\n' ∈ path) (records : RecordsPaths calculateFileHash paths root)
    {tree : FileTree} {path : Path} (member : path ∈ paths) {indexDir : IndexDir}
    (present : root.lookup (calculateFileHash path) = some indexDir) :
    isOrphan tree indexDir = .ok (tree.resolve path).isNone := by
  obtain ⟨path', member', hashed, selected, _, _, _, written⟩ := records _ _ present
  obtain rfl := distinct member' member hashed
  exact isOrphan_recorded (oneLine_of_hasParquetExtension selected (noFeed _ member)) written

/-- **Pruning removes the sub-directories of the paths that lead nowhere**, and no
other. -/
theorem pruneOrphans_recorded (distinct : Set.InjOn calculateFileHash paths)
    (noFeed : ∀ path ∈ paths, ¬ '\n' ∈ path) (records : RecordsPaths calculateFileHash paths root)
    (tree : FileTree) :
    ∃ root' count, pruneOrphans tree root = .ok (root', count) ∧
      (∀ fileHash, root'.lookup fileHash = root.lookup fileHash ∨ root'.lookup fileHash = none) ∧
      ∀ path ∈ paths, root'.lookup (calculateFileHash path) =
        if (tree.resolve path).isNone then none else root.lookup (calculateFileHash path) := by
  have answers : ∀ fileHash indexDir, root.lookup fileHash = some indexDir →
      isOrphan tree indexDir = .ok (orphanOf tree root fileHash) := by
    intro fileHash indexDir present
    obtain ⟨path, member, rfl, -⟩ := records fileHash indexDir present
    have orphan : isOrphan tree indexDir = .ok (tree.resolve path).isNone :=
      isOrphan_of_records distinct noFeed records member present
    simp only [orphanOf, present, orphan]
  obtain ⟨root', ok, lookups⟩ := pruneOrphans_spec answers
  refine ⟨root', _, ok, fun fileHash => ?_, fun path member => ?_⟩
  · rw [lookups]
    split
    · exact Or.inr rfl
    · exact Or.inl rfl
  · rw [lookups]
    cases present : root.lookup (calculateFileHash path) with
    | none => simp
    | some indexDir =>
        simp only [orphanOf, present, isOrphan_of_records distinct noFeed records member present]

theorem RecordsVersions.of_part {before : IndexRoot}
    (records : RecordsVersions calculateFileHash history paths before)
    (part : ∀ fileHash, root.lookup fileHash = before.lookup fileHash ∨
      root.lookup fileHash = none) : RecordsVersions calculateFileHash history paths root := by
  intro fileHash indexDir present
  rcases part fileHash with same | removed
  · exact records fileHash indexDir (same ▸ present)
  · rw [removed] at present
    cases present

theorem maintains_prune (distinct : Set.InjOn calculateFileHash paths)
    (noFeed : ∀ path ∈ paths, ¬ '\n' ∈ path)
    (maintains : Maintains calculateFileHash history paths columns world catalogue) {count : Nat}
    (ok : pruneOrphans world.tree world.root = .ok (root, count)) :
    Maintains calculateFileHash history paths columns ⟨world.tree, root⟩ catalogue.pruned := by
  obtain ⟨root', count', ok', part, lookups⟩ :=
    pruneOrphans_recorded distinct noFeed maintains.records world.tree
  rw [ok] at ok'
  cases ok'
  have dirs : ∀ path ∈ paths, root.dir (calculateFileHash path) =
      if (world.tree.resolve path).isNone then IndexDir.empty
      else world.root.dir (calculateFileHash path) := by
    intro path member
    rw [IndexRoot.dir, lookups path member]
    split <;> rfl
  constructor
  · exact maintains.tree
  · exact maintains.known
  · exact maintains.versions.of_part part
  · intro path member
    show Coherent _ ((root.dir _).slot columns)
    rw [dirs path member]
    split
    · exact Or.inl (slot_empty columns)
    · exact maintains.coherent path member
  · intro path member column inColumns
    show (root.dir _).fst column = _
    rw [dirs path member, Catalogue.pruned, maintains.tree]
    simp only
    split
    · exact IndexDir.fst_empty column
    · exact maintains.fst path member column inColumns
  · intro path member column apart
    show (root.dir _).fst column = none
    rw [dirs path member]
    split
    · exact IndexDir.fst_empty column
    · exact maintains.noOther path member column apart
  · intro path column file held
    simp only [Catalogue.pruned] at held
    split at held
    · cases held
    · exact maintains.inside path column file held

/-! ## Indexing -/

/-- The FSTs of a sub-directory after an unforced visit. -/
theorem refreshed_fst_ne (indexDir : IndexDir) (path : Path) (file : FileTree.DataFile)
    {column other : Column} (ne : fstFile other ≠ fstFile column) :
    (indexDir.refreshed path file column).fst other = indexDir.fst other := by
  unfold IndexDir.refreshed
  split
  · rfl
  · exact IndexDir.indexed_fst_ne _ _ _ ne

/-- An index run keeps what is recorded that of a version. -/
theorem recordsVersions_build {tree : FileTree} {before : IndexRoot} {dataDir : Path}
    {column : Column} (known : Known history tree)
    (records : RecordsVersions calculateFileHash history paths before)
    (visited : ∀ path ∈ tree.parquetEntries dataDir, path ∈ paths)
    (ok : buildIndex calculateFileHash tree before dataDir column = .ok root) :
    RecordsVersions calculateFileHash history paths root := by
  refine buildIndexExt_invariant (RecordsVersions calculateFileHash history paths)
    (fun path inWalk file found _ now held => ?_) records ok
  refine FiniteMap.forall_lookup_insert ?_ fun fileHash indexDir _ present =>
    held fileHash indexDir present
  exact ⟨path, visited path inWalk, rfl, (List.mem_filter.mp inWalk).2, file,
    known path file found, IndexDir.indexed_metadata _ _ _ _⟩

/-- What a run leaves of the FSTs of the columns is what the catalogue has on record. -/
theorem fst_of_build (differ : StampsDiffer history) (own : OwnFiles columns)
    (distinct : Set.InjOn calculateFileHash paths)
    (maintains : Maintains calculateFileHash history paths columns world catalogue)
    {dataDir : Path} {column : Column}
    (visited : ∀ path ∈ world.tree.parquetEntries dataDir, path ∈ paths)
    (may : MovesAlone calculateFileHash columns world dataDir column)
    (ok : buildIndex calculateFileHash world.tree world.root dataDir column = .ok root)
    {path : Path} (member : path ∈ paths) {other : Column} (inColumns : other ∈ columns) :
    (root.dir (calculateFileHash path)).fst other =
      ((catalogue.indexed dataDir column).snapshot path other).map fun content =>
        .valid (columnKeys content other) := by
  rw [buildIndex_dir (fun other inWalk => distinct (visited other inWalk) member) ok]
  by_cases inWalk : path ∈ world.tree.parquetEntries dataDir
  · rw [if_pos inWalk]
    have listed : path ∈ catalogue.tree.parquetEntries dataDir := by rwa [maintains.tree]
    cases found : world.tree.dataFile? path with
    | none =>
        have unread : (catalogue.indexed dataDir column).snapshot path other =
            catalogue.snapshot path other := by
          by_cases here : other = column
          · subst here
            rw [catalogue.snapshot_indexed other listed, maintains.tree, found]
            rfl
          · exact catalogue.snapshot_indexed_ne (Or.inr here)
        rw [unread, rebuilt, found]
        exact maintains.fst path member other inColumns
    | some file =>
        have named := named_of_buildIndexExt inWalk ok
        rw [rebuilt_of_dataFile found]
        by_cases here : other = column
        · subst here
          rw [catalogue.snapshot_indexed other listed, maintains.tree, found]
          have one : OneLine path :=
            oneLine_of_hasParquetExtension (List.mem_filter.mp inWalk).2 (may.2 path inWalk).1
          have inHistory : version columns file ∈ version columns '' history path :=
            ⟨file, maintains.known path file found, rfl⟩
          have entry := refresh_entry (stampsIdentify differ path)
            (maintains.coherent path member) inHistory ⟨other, inColumns⟩
          rwa [← slot_refreshed own one _ _ ⟨other, inColumns⟩ named] at entry
        · have ne := own.ne may.1 inColumns named here
          rw [catalogue.snapshot_indexed_ne (Or.inr here), refreshed_fst_ne _ _ _ ne]
          exact maintains.fst path member other inColumns
  · rw [if_neg inWalk, catalogue.snapshot_indexed_ne (Or.inl (by rwa [maintains.tree]))]
    exact maintains.fst path member other inColumns

/-- What is on record after a run is a version of a path. -/
theorem inside_of_build
    (maintains : Maintains calculateFileHash history paths columns world catalogue)
    {dataDir : Path} {column : Column}
    (visited : ∀ path ∈ world.tree.parquetEntries dataDir, path ∈ paths) {path : Path}
    {other : Column} {file : ParquetFile}
    (held : (catalogue.indexed dataDir column).snapshot path other = some file) :
    path ∈ paths ∧ ∃ data ∈ history path, data.content = file := by
  by_cases here : path ∈ catalogue.tree.parquetEntries dataDir ∧ other = column
  · obtain ⟨inWalk, rfl⟩ := here
    rw [catalogue.snapshot_indexed other inWalk] at held
    cases found : catalogue.tree.dataFile? path with
    | none =>
        rw [found] at held
        exact maintains.inside path other file held
    | some data =>
        rw [found] at held
        cases held
        rw [maintains.tree] at inWalk found
        exact ⟨visited path inWalk, data, maintains.known path data found, rfl⟩
  · rw [catalogue.snapshot_indexed_ne (not_and_or.mp here)] at held
    exact maintains.inside path other file held

theorem maintains_build (differ : StampsDiffer history) (own : OwnFiles columns)
    (distinct : Set.InjOn calculateFileHash paths)
    (maintains : Maintains calculateFileHash history paths columns world catalogue)
    {dataDir : Path} {column : Column}
    (visited : ∀ path ∈ world.tree.parquetEntries dataDir, path ∈ paths)
    (may : MovesAlone calculateFileHash columns world dataDir column)
    (ok : buildIndex calculateFileHash world.tree world.root dataDir column = .ok root) :
    Maintains calculateFileHash history paths columns ⟨world.tree, root⟩
      (catalogue.indexed dataDir column) := by
  constructor
  · exact maintains.tree
  · exact maintains.known
  · exact recordsVersions_build maintains.known maintains.versions visited ok
  · exact coherent_build differ own distinct maintains.known maintains.coherent visited may ok
  · exact fun path member other inColumns =>
      fst_of_build differ own distinct maintains visited may ok member inColumns
  · intro path member other apart
    show (root.dir _).fst other = none
    rw [buildIndex_dir (fun other inWalk => distinct (visited other inWalk) member) ok]
    split
    · unfold rebuilt
      split
      · rw [refreshed_fst_ne _ _ _ (apart column may.1)]
        exact maintains.noOther path member other apart
      · exact maintains.noOther path member other apart
    · exact maintains.noOther path member other apart
  · exact fun path other file held => inside_of_build maintains visited held

/-- Pruning leaves an index run alone that was alone before. -/
theorem movesAlone_prune {dataDir : Path} {column : Column}
    (part : ∀ fileHash, root.lookup fileHash = world.root.lookup fileHash ∨
      root.lookup fileHash = none)
    (may : MovesAlone calculateFileHash columns world dataDir column) :
    MovesAlone calculateFileHash columns ⟨world.tree, root⟩ dataDir column := by
  refine ⟨may.1, fun path inWalk => ?_⟩
  obtain ⟨noFeed, alone⟩ := may.2 path inWalk
  refine ⟨noFeed, fun file found => ?_⟩
  show (root.dir _).recordedStamp = _ ∨
    ∀ other ∈ columns, other ≠ column → (root.dir _).fst other = none
  rcases part (calculateFileHash path) with same | removed
  · rw [IndexRoot.dir, same]
    exact alone file found
  · rw [IndexRoot.dir, removed]
    exact Or.inr fun other _ _ => IndexDir.fst_empty other

/-- The catalogue after the subcommand. -/
def Catalogue.after (catalogue : Catalogue) (prune : Bool) (dataDir : Path)
    (column : Column) : Catalogue :=
  (if prune then catalogue.pruned else catalogue).indexed dataDir column

/-- **The subcommand maintains the index.** -/
theorem maintains_indexCommand (differ : StampsDiffer history) (own : OwnFiles columns)
    (distinct : Set.InjOn calculateFileHash paths) (noFeed : ∀ path ∈ paths, ¬ '\n' ∈ path)
    (maintains : Maintains calculateFileHash history paths columns world catalogue)
    {prune : Bool} {dataDir : Path} {column : Column}
    (visited : ∀ path ∈ world.tree.parquetEntries dataDir, path ∈ paths)
    (may : MovesAlone calculateFileHash columns world dataDir column)
    (ok : indexCommand calculateFileHash world.tree world.root prune dataDir column = .ok root) :
    Maintains calculateFileHash history paths columns ⟨world.tree, root⟩
      (catalogue.after prune dataDir column) := by
  cases prune with
  | false => exact maintains_build differ own distinct maintains visited may ok
  | true =>
      obtain ⟨middle, count, pruned, part, -⟩ :=
        pruneOrphans_recorded distinct noFeed maintains.records world.tree
      rw [indexCommand_true pruned] at ok
      exact maintains_build differ own distinct (maintains_prune distinct noFeed maintains pruned)
        visited (movesAlone_prune part may) ok

end Maintenance

end Pdq
