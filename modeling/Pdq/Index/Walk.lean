/- Pdq.Index.Walk -- the walk of a directory tree, and what an index run makes of
it.

A directory tree is regular files and directories, named and nested in any way.
The walk yields every one of them, a directory before its entries, and the run
selects by the extension of the path alone.  So an index run covers the Parquet
files (`buildIndex_covers`) when no directory has that extension, and stops at
the first one that does, or at a file it cannot date (`dataFiles_of_buildIndex`). -/
import Pdq.Index.Prune

namespace Pdq

open Theory

set_option autoImplicit false

/-! ## Directory trees -/

mutual

inductive DirTree where
  | file (node : FileNode)
  | dir (modified : Option UInt64) (len : UInt64) (entries : DirEntries)

inductive DirEntries where
  | nil
  | cons (name : Str) (tree : DirTree) (rest : DirEntries)

end

namespace DirTree

/-- What the root of the tree resolves to. -/
def node : DirTree → FileNode
  | .file node => node
  | .dir modified len _ => ⟨modified, len, none⟩

def isFile : DirTree → Bool
  | .file _ => true
  | .dir _ _ _ => false

end DirTree

mutual

/-- `WalkDir::new(path)`: each entry with its path, a directory before what it
holds. -/
def DirTree.walk (path : Path) : DirTree → List (Path × DirTree)
  | .file node => [(path, .file node)]
  | .dir modified len entries => (path, .dir modified len entries) :: DirEntries.walk path entries

def DirEntries.walk (parent : Path) : DirEntries → List (Path × DirTree)
  | .nil => []
  | .cons name tree rest => DirTree.walk (join parent name) tree ++ DirEntries.walk parent rest

end

mutual

/-- The regular files of the tree, with their paths. -/
def DirTree.files (path : Path) : DirTree → List (Path × FileNode)
  | .file node => [(path, node)]
  | .dir _ _ entries => DirEntries.files path entries

def DirEntries.files (parent : Path) : DirEntries → List (Path × FileNode)
  | .nil => []
  | .cons name tree rest => DirTree.files (join parent name) tree ++ DirEntries.files parent rest

end

mutual

/-- The paths of the directories of the tree, the root among them. -/
def DirTree.dirs (path : Path) : DirTree → List Path
  | .file _ => []
  | .dir _ _ entries => path :: DirEntries.dirs path entries

def DirEntries.dirs (parent : Path) : DirEntries → List Path
  | .nil => []
  | .cons name tree rest => DirTree.dirs (join parent name) tree ++ DirEntries.dirs parent rest

end

/-- The regular file at a walked entry. -/
def fileOf (entry : Path × DirTree) : Option (Path × FileNode) :=
  match entry.2 with
  | .file node => some (entry.1, node)
  | .dir _ _ _ => none

/-- The path of a walked directory. -/
def dirOf (entry : Path × DirTree) : Option Path :=
  match entry.2 with
  | .file _ => none
  | .dir _ _ _ => some entry.1

/-! ## The walk yields the files and the directories -/

mutual

theorem DirTree.walk_files (path : Path) :
    (tree : DirTree) → (tree.walk path).filterMap fileOf = tree.files path
  | .file node => rfl
  | .dir modified len entries => by
      rw [DirTree.walk, DirTree.files, ← DirEntries.walk_files path entries]
      rfl

theorem DirEntries.walk_files (parent : Path) :
    (entries : DirEntries) → (entries.walk parent).filterMap fileOf = entries.files parent
  | .nil => rfl
  | .cons name tree rest => by
      rw [DirEntries.walk, DirEntries.files, List.filterMap_append,
        DirTree.walk_files (join parent name) tree, DirEntries.walk_files parent rest]

end

mutual

theorem DirTree.walk_dirs (path : Path) :
    (tree : DirTree) → (tree.walk path).filterMap dirOf = tree.dirs path
  | .file node => rfl
  | .dir modified len entries => by
      rw [DirTree.walk, DirTree.dirs, ← DirEntries.walk_dirs path entries]
      rfl

theorem DirEntries.walk_dirs (parent : Path) :
    (entries : DirEntries) → (entries.walk parent).filterMap dirOf = entries.dirs parent
  | .nil => rfl
  | .cons name tree rest => by
      rw [DirEntries.walk, DirEntries.dirs, List.filterMap_append,
        DirTree.walk_dirs (join parent name) tree, DirEntries.walk_dirs parent rest]

end

/-- The selected entries are the selected files, when no directory is selected. -/
theorem filter_walk_eq {walked : List (Path × DirTree)} {selects : Path → Bool}
    (noDir : ∀ path ∈ walked.filterMap dirOf, selects path = false) :
    (walked.map Prod.fst).filter selects =
      ((walked.filterMap fileOf).filter fun file => selects file.1).map Prod.fst := by
  induction walked with
  | nil => rfl
  | cons entry walked ih =>
      obtain ⟨path, tree⟩ := entry
      cases tree with
      | file node =>
          have rest := ih noDir
          simp only [List.map_cons, List.filterMap_cons, fileOf, List.filter_cons]
          split <;> simp [rest]
      | dir modified len entries =>
          have rest := ih fun path member => noDir path (List.mem_cons_of_mem _ member)
          have skipped : selects path = false := noDir path List.mem_cons_self
          simp only [List.map_cons, List.filterMap_cons, fileOf, List.filter_cons, skipped,
            Bool.false_eq_true, if_false]
          exact rest

/-! ## The tree behind the program's calls -/

/-- What the program sees of the data directory is this directory tree. -/
structure DirTree.Shows (dirTree : DirTree) (tree : FileTree) (dataDir : Path) : Prop where
  walk : tree.walkDir dataDir = (dirTree.walk dataDir).map Prod.fst
  resolves : ∀ entry ∈ dirTree.walk dataDir, tree.resolve entry.1 = some entry.2.node

/-- Every regular file with extension `parquet` is a readable Parquet file. -/
def DirTree.Readable (dirTree : DirTree) (dataDir : Path) : Prop :=
  ∀ file ∈ dirTree.files dataDir, hasParquetExtension file.1 = true → file.2.parquet ≠ none

/-- No directory has extension `parquet`, and no regular file that has it is older
than the epoch. -/
structure DirTree.Indexable (dirTree : DirTree) (dataDir : Path) : Prop where
  dirs : ∀ path ∈ dirTree.dirs dataDir, hasParquetExtension path = false
  dated : ∀ file ∈ dirTree.files dataDir, hasParquetExtension file.1 = true →
    file.2.modified ≠ none

/-- The Parquet files of the tree, in the order of the walk. -/
def DirTree.parquetFiles (dirTree : DirTree) (dataDir : Path) : List (Path × ParquetFile) :=
  ((dirTree.files dataDir).filter fun file => hasParquetExtension file.1).filterMap fun file =>
    file.2.parquet.map fun content => (file.1, content)

section Shows

variable {dirTree : DirTree} {tree : FileTree} {dataDir : Path}

theorem DirTree.Shows.resolve_file (shows : dirTree.Shows tree dataDir) {path : Path}
    {node : FileNode} (member : (path, node) ∈ dirTree.files dataDir) :
    tree.resolve path = some node := by
  rw [← DirTree.walk_files] at member
  obtain ⟨⟨path', entry⟩, walked, here⟩ := List.mem_filterMap.mp member
  cases entry with
  | file node' =>
      cases here
      exact shows.resolves _ walked
  | dir modified len entries => cases here

/-- The entries an index run visits, in a tree that can be indexed. -/
theorem parquetEntries_of_indexable (shows : dirTree.Shows tree dataDir)
    (readable : dirTree.Readable dataDir) (indexable : dirTree.Indexable dataDir) :
    tree.parquetEntries dataDir = (dirTree.parquetFiles dataDir).map Prod.fst := by
  have noDir : ∀ path ∈ (dirTree.walk dataDir).filterMap dirOf,
      hasParquetExtension path = false := by
    rw [DirTree.walk_dirs]
    exact indexable.dirs
  rw [FileTree.parquetEntries, shows.walk, filter_walk_eq noDir, DirTree.walk_files,
    DirTree.parquetFiles]
  have all : ∀ file ∈ (dirTree.files dataDir).filter fun file => hasParquetExtension file.1,
      file.2.parquet ≠ none := by
    intro file member
    obtain ⟨inFiles, selected⟩ := List.mem_filter.mp member
    exact readable file inFiles selected
  generalize ((dirTree.files dataDir).filter fun file => hasParquetExtension file.1) = selected
    at all
  induction selected with
  | nil => rfl
  | cons file rest ih =>
      obtain ⟨content, parquet⟩ := Option.ne_none_iff_exists'.mp (all file List.mem_cons_self)
      have later := ih fun other member => all other (List.mem_cons_of_mem file member)
      simp [parquet, later]

/-- Each Parquet file of such a tree is a data file. -/
theorem dataFile_of_parquetFiles (shows : dirTree.Shows tree dataDir)
    (indexable : dirTree.Indexable dataDir) {path : Path} {content : ParquetFile}
    (member : (path, content) ∈ dirTree.parquetFiles dataDir) :
    ∃ file, tree.dataFile? path = some file ∧ file.content = content := by
  obtain ⟨⟨path', node⟩, selected, here⟩ := List.mem_filterMap.mp member
  obtain ⟨content', readAs, same⟩ := Option.map_eq_some_iff.mp here
  cases same
  obtain ⟨inFiles, extension⟩ := List.mem_filter.mp selected
  have parquet : node.parquet = some content := readAs
  obtain ⟨mtime, modified⟩ : ∃ mtime, node.modified = some mtime :=
    Option.ne_none_iff_exists'.mp (indexable.dated _ inFiles extension)
  exact ⟨⟨mtime, node.len, content⟩, by
    simp [FileTree.dataFile?, shows.resolve_file inFiles, modified, parquet], rfl⟩

/-- A tree whose selected entries are all data files can be indexed. -/
theorem indexable_of_dataFiles (shows : dirTree.Shows tree dataDir)
    (all : ∀ path ∈ tree.parquetEntries dataDir, ∃ file, tree.dataFile? path = some file) :
    dirTree.Indexable dataDir := by
  have visited : ∀ {entry}, entry ∈ dirTree.walk dataDir → hasParquetExtension entry.1 = true →
      ∃ file, tree.dataFile? entry.1 = some file := by
    intro entry walked selected
    refine all entry.1 (List.mem_filter.mpr ⟨?_, selected⟩)
    rw [shows.walk]
    exact List.mem_map_of_mem walked
  constructor
  · intro path member
    rw [← DirTree.walk_dirs] at member
    obtain ⟨⟨path', entry⟩, walked, here⟩ := List.mem_filterMap.mp member
    cases entry with
    | file node => cases here
    | dir modified len entries =>
        cases here
        by_contra selected
        obtain ⟨file, found⟩ := visited walked (by simpa using selected)
        cases modified <;>
          simp [FileTree.dataFile?, shows.resolves _ walked, DirTree.node] at found
  · intro file member selected undated
    rw [← DirTree.walk_files] at member
    obtain ⟨⟨path', entry⟩, walked, here⟩ := List.mem_filterMap.mp member
    cases entry with
    | file node =>
        cases here
        have before : node.modified = none := undated
        obtain ⟨data, found⟩ := visited walked selected
        simp [FileTree.dataFile?, shows.resolves _ walked, DirTree.node, before] at found
    | dir modified len entries => cases here

end Shows

/-! ## The run over the walk -/

section Run

variable {calculateFileHash : Path → Str} {tree : FileTree} {root root' : IndexRoot}
  {dataDir : Path} {column : Column}

/-- No sub-directory has an FST of the column. -/
def Unindexed (root : IndexRoot) (column : Column) : Prop :=
  ∀ fileHash, (root.dir fileHash).fst column = none

/-- Every FST of the column is that of a visited data file, and the record beside it
is a text. -/
def IndexedFrom (calculateFileHash : Path → Str) (tree : FileTree) (column : Column)
    (visited : List Path) (root : IndexRoot) : Prop :=
  ∀ fileHash fst, (root.dir fileHash).fst column = some fst →
    (∃ path ∈ visited, calculateFileHash path = fileHash ∧
      ∃ file, tree.dataFile? path = some file ∧ fst = .valid (columnKeys file.content column)) ∧
    ∃ contents, (root.dir fileHash).metadata = some (.text contents)

/-- A data file is never refused where the records are texts. -/
theorem indexEntry_total {visited : List Path}
    (indexed : IndexedFrom calculateFileHash tree column visited root) {path : Path}
    {file : FileTree.DataFile} (found : tree.dataFile? path = some file)
    (named : fstFile column ≠ none) :
    ∃ root', indexEntry calculateFileHash tree column false root path = .ok root' := by
  have decided : ∃ needed, needsIndexing calculateFileHash tree root path column = .ok needed := by
    simp only [needsIndexing]
    cases held : (root.dir (calculateFileHash path)).fst column with
    | none => exact ⟨true, rfl⟩
    | some fst =>
        obtain ⟨-, contents, text⟩ := indexed _ fst held
        simp only [text, FileTree.fileMetadata_of_dataFile found, bind, Except.bind]
        cases storedStamp contents <;> exact ⟨_, rfl⟩
  obtain ⟨needed, answer⟩ := decided
  cases needed with
  | true => exact ⟨_, indexEntry_of_needed found named answer⟩
  | false => exact ⟨root, indexEntry_of_skipped answer⟩

/-- One visit keeps the FSTs those of visited data files, and leaves an FST for its
own entry. -/
theorem indexedFrom_step {visited : List Path}
    (indexed : IndexedFrom calculateFileHash tree column visited root) {path : Path}
    (ok : indexEntry calculateFileHash tree column false root path = .ok root') :
    IndexedFrom calculateFileHash tree column (visited ++ [path]) root' ∧
      (root'.dir (calculateFileHash path)).fst column ≠ none ∧
      ∀ fileHash, (root.dir fileHash).fst column ≠ none →
        (root'.dir fileHash).fst column ≠ none := by
  have wider : IndexedFrom calculateFileHash tree column (visited ++ [path]) root := by
    intro fileHash fst held
    obtain ⟨⟨other, member, rest⟩, text⟩ := indexed fileHash fst held
    exact ⟨⟨other, List.mem_append_left _ member, rest⟩, text⟩
  rcases indexEntry_cases ok with ⟨rfl, -, skipped⟩ | ⟨named, file, found, rfl, -⟩
  · exact ⟨wider, fst_of_skipped skipped, fun _ present => present⟩
  · refine ⟨fun fileHash fst held => ?_, ?_, fun fileHash present => ?_⟩
    · by_cases same : fileHash = calculateFileHash path
      · subst same
        rw [IndexRoot.fst_insert_indexed _ _ _ _ _ named] at held
        cases held
        refine ⟨⟨path, by simp, rfl, file, found, rfl⟩,
          metadataContent path file.mtime file.size file.content.numRowGroups, ?_⟩
        rw [IndexRoot.dir_insert_self, IndexDir.indexed_metadata]
      · rw [IndexRoot.dir_insert_ne root same] at held ⊢
        exact wider fileHash fst held
    · simp [IndexRoot.fst_insert_indexed _ _ _ _ _ named]
    · by_cases same : fileHash = calculateFileHash path
      · simp [same, IndexRoot.fst_insert_indexed _ _ _ _ _ named]
      · rwa [IndexRoot.fst_insert_indexed_ne root _ _ (Or.inl same)]

/-- **A run over data files returns, and covers them**: each has an FST under its
hash, and every FST is that of one of them. -/
theorem buildIndex_covers (unindexed : Unindexed root column)
    (named : tree.parquetEntries dataDir ≠ [] → fstFile column ≠ none)
    (all : ∀ path ∈ tree.parquetEntries dataDir, ∃ file, tree.dataFile? path = some file) :
    ∃ root', buildIndex calculateFileHash tree root dataDir column = .ok root' ∧
      IndexedFrom calculateFileHash tree column (tree.parquetEntries dataDir) root' ∧
      ∀ path ∈ tree.parquetEntries dataDir,
        (root'.dir (calculateFileHash path)).fst column ≠ none := by
  have start : IndexedFrom calculateFileHash tree column [] root := by
    intro fileHash fst held
    rw [unindexed fileHash] at held
    cases held
  obtain ⟨root', returned, -⟩ : ∃ root',
      buildIndex calculateFileHash tree root dataDir column = .ok root' ∧
        ∃ visited, IndexedFrom calculateFileHash tree column visited root' := by
    refine foldlM_total
      (fun now => ∃ visited, IndexedFrom calculateFileHash tree column visited now)
      (fun path member now ⟨visited, indexed⟩ => ?_) ⟨[], start⟩
    obtain ⟨file, found⟩ := all path member
    obtain ⟨next, ok⟩ := indexEntry_total indexed found (named (List.ne_nil_of_mem member))
    exact ⟨next, ok, _, (indexedFrom_step indexed ok).1⟩
  have invariant := foldlM_ok_induction
    (fun (visited : List Path) (now : IndexRoot) =>
      IndexedFrom calculateFileHash tree column visited now ∧
        ∀ path ∈ visited, (now.dir (calculateFileHash path)).fst column ≠ none)
    (fun visited entry now next ⟨indexed, present⟩ visit => by
      obtain ⟨kept, own, others⟩ := indexedFrom_step indexed visit
      refine ⟨kept, fun path member => ?_⟩
      rcases List.mem_append.mp member with earlier | last
      · exact others _ (present path earlier)
      · rw [List.mem_singleton.mp last]
        exact own)
    (tree.parquetEntries dataDir) [] root root' ⟨start, by simp⟩ returned
  exact ⟨root', returned, by simpa using invariant⟩

/-- **A run that returns has met data files only**, when no two of its entries share
a hash. -/
theorem dataFiles_of_buildIndex (unindexed : Unindexed root column)
    (distinct : ∀ path ∈ tree.parquetEntries dataDir, ∀ other ∈ tree.parquetEntries dataDir,
      calculateFileHash path = calculateFileHash other → path = other)
    (ok : buildIndex calculateFileHash tree root dataDir column = .ok root') :
    ∀ path ∈ tree.parquetEntries dataDir, ∃ file, tree.dataFile? path = some file := by
  have start : IndexedFrom calculateFileHash tree column [] root := by
    intro fileHash fst held
    rw [unindexed fileHash] at held
    cases held
  have invariant := foldlM_ok_induction
    (fun (visited : List Path) (now : IndexRoot) =>
      (∀ path ∈ visited, ∀ other ∈ visited,
        calculateFileHash path = calculateFileHash other → path = other) →
      IndexedFrom calculateFileHash tree column visited now ∧
        ∀ path ∈ visited, ∃ file, tree.dataFile? path = some file)
    (fun visited entry now next held visit apart => by
      obtain ⟨indexed, before⟩ := held fun path member other inVisited =>
        apart path (List.mem_append_left _ member) other (List.mem_append_left _ inVisited)
      refine ⟨(indexedFrom_step indexed visit).1, fun path member => ?_⟩
      rcases List.mem_append.mp member with earlier | last
      · exact before path earlier
      · rw [List.mem_singleton.mp last]
        rcases indexEntry_cases visit with ⟨-, -, skipped⟩ | ⟨-, file, found, -, -⟩
        · -- A skipped entry has the FST of an earlier entry of its hash: it is that entry.
          obtain ⟨fst, present⟩ := Option.ne_none_iff_exists'.mp (fst_of_skipped skipped)
          obtain ⟨⟨other, inVisited, named, file, found, -⟩, -⟩ := indexed _ fst present
          rw [apart entry (by simp) other (List.mem_append_left _ inVisited) named.symm]
          exact ⟨file, found⟩
        · exact ⟨file, found⟩)
    (tree.parquetEntries dataDir) [] root root' (fun _ => ⟨start, by simp⟩) ok
  simpa using (invariant (by simpa using distinct)).2

end Run

end Pdq
