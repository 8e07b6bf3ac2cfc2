/- Pdq.Index.Convergence -- what a sequence of index runs over unchanged files
leaves.

Each call decides file by file to skip or to rewrite, from a record that all
columns share.  Over files that do not change these decisions leave no trace:
after any successful calls the index directory is the one `Leaves` describes by
which paths were indexed by which columns (`leaves_of_buildAll`), and there is
only one such directory (`Leaves.unique`). -/
import Pdq.Index.Incremental

namespace Pdq

open Theory

set_option autoImplicit false

/-! ## Sequences of calls -/

/-- One call of `build_index_ext`. -/
structure BuildCall where
  dataDir : Path
  column : Column
  force : Bool
  deriving DecidableEq, Repr

/-- The calls one after the other, all successful. -/
def buildAll (calculateFileHash : Path → Str) (tree : FileTree) (root : IndexRoot)
    (calls : List BuildCall) : Except IndexError IndexRoot :=
  calls.foldlM (fun root call =>
    buildIndexExt calculateFileHash tree root call.dataDir call.column call.force) root

/-- Some call indexes the path by the column. -/
def Requested (tree : FileTree) (calls : List BuildCall) (path : Path) (column : Column) : Prop :=
  ∃ call ∈ calls, call.column = column ∧ path ∈ tree.parquetEntries call.dataDir

/-- Calls on one data directory cover its files by the columns they name. -/
theorem requested_iff {tree : FileTree} {calls : List BuildCall} {dataDir : Path}
    (oneDir : ∀ call ∈ calls, call.dataDir = dataDir) {path : Path} {column : Column} :
    Requested tree calls path column ↔
      path ∈ tree.parquetEntries dataDir ∧ column ∈ calls.map BuildCall.column := by
  simp only [Requested, List.mem_map]
  constructor
  · rintro ⟨call, member, named, inWalk⟩
    rw [oneDir call member] at inWalk
    exact ⟨inWalk, call, member, named⟩
  · rintro ⟨inWalk, call, member, named⟩
    exact ⟨call, member, named, by rwa [oneDir call member]⟩

/-- One call for each column. -/
theorem requested_columns_iff {tree : FileTree} {dataDir : Path} {columns : List Column}
    {path : Path} {column : Column} :
    Requested tree (columns.map fun column => ⟨dataDir, column, false⟩) path column ↔
      path ∈ tree.parquetEntries dataDir ∧ column ∈ columns := by
  have oneDir : ∀ call ∈ columns.map fun column => (⟨dataDir, column, false⟩ : BuildCall),
      call.dataDir = dataDir := by
    intro call member
    obtain ⟨column, -, rfl⟩ := List.mem_map.mp member
    rfl
  rw [requested_iff oneDir, List.map_map]
  simp

theorem requested_columns_subset {tree : FileTree} {dataDir : Path} {columns : List Column} :
    {path | ∃ column, Requested tree (columns.map fun column => ⟨dataDir, column, false⟩) path
      column} ⊆ {path | path ∈ tree.parquetEntries dataDir} := by
  rintro path ⟨column, asked⟩
  exact (requested_columns_iff.mp asked).1

/-! ## What they leave -/

section Leaves

variable {calculateFileHash : Path → Str} {tree : FileTree} {paths : Set Path}
  {visited : Path → Column → Prop} {root root' : IndexRoot}

/-- The index directory of the files of `tree`, each indexed by the columns it was
visited for and under no other name. -/
structure Leaves (calculateFileHash : Path → Str) (tree : FileTree) (paths : Set Path)
    (visited : Path → Column → Prop) (root : IndexRoot) : Prop where
  inside : ∀ path column, visited path column → path ∈ paths
  covered : ∀ path column, visited path column → ∃ file, tree.dataFile? path = some file ∧
    (root.dir (calculateFileHash path)).metadata =
      some (.text (metadataContent path file.mtime file.size file.content.numRowGroups)) ∧
    (root.dir (calculateFileHash path)).fst column = some (.valid (columnKeys file.content column))
  noOther : ∀ path ∈ paths, ∀ column,
    (∀ other, visited path other → fstFile other ≠ fstFile column) →
      (root.dir (calculateFileHash path)).fst column = none
  present : ∀ fileHash indexDir, root.lookup fileHash = some indexDir →
    ∃ path column, visited path column ∧ calculateFileHash path = fileHash

theorem leaves_empty (calculateFileHash : Path → Str) (tree : FileTree) (paths : Set Path) :
    Leaves calculateFileHash tree paths (fun _ _ => False) ∅ where
  inside _ _ none := none.elim
  covered _ _ none := none.elim
  noOther _ _ column _ := IndexDir.fst_empty column
  present := FiniteMap.forall_lookup_empty

theorem Leaves.congr {visited' : Path → Column → Prop}
    (leaves : Leaves calculateFileHash tree paths visited root)
    (same : ∀ path column, visited path column ↔ visited' path column) :
    Leaves calculateFileHash tree paths visited' root := by
  have equal : visited = visited' := by
    funext path column
    exact propext (same path column)
  exact equal ▸ leaves

/-- What is under a hash that no visited path has. -/
theorem Leaves.absent (leaves : Leaves calculateFileHash tree paths visited root) {fileHash : Str}
    (unvisited : ¬ ∃ path column, visited path column ∧ calculateFileHash path = fileHash) :
    root.lookup fileHash = none := by
  cases found : root.lookup fileHash with
  | none => rfl
  | some indexDir => exact absurd (leaves.present fileHash indexDir found) unvisited

/-- The FSTs of a path are known from the columns it was visited for. -/
theorem Leaves.fst_unique (leaves : Leaves calculateFileHash tree paths visited root)
    (leaves' : Leaves calculateFileHash tree paths visited root') {path : Path}
    (inside : path ∈ paths) (column : Column) :
    (root.dir (calculateFileHash path)).fst column =
      (root'.dir (calculateFileHash path)).fst column := by
  by_cases visit : ∃ other, visited path other ∧ fstFile other = fstFile column
  · obtain ⟨other, visit, same⟩ := visit
    obtain ⟨file, found, -, keys⟩ := leaves.covered path other visit
    obtain ⟨file', found', -, keys'⟩ := leaves'.covered path other visit
    rw [found] at found'
    cases found'
    rw [← IndexDir.fst_congr _ same, ← IndexDir.fst_congr _ same, keys, keys']
  · have apart : ∀ other, visited path other → fstFile other ≠ fstFile column :=
      fun other visited' same => visit ⟨other, visited', same⟩
    rw [leaves.noOther path inside column apart, leaves'.noOther path inside column apart]

/-- **There is one such index directory.** -/
theorem Leaves.unique (leaves : Leaves calculateFileHash tree paths visited root)
    (leaves' : Leaves calculateFileHash tree paths visited root') (fileHash : Str) :
    root.lookup fileHash = root'.lookup fileHash := by
  by_cases known : ∃ path column, visited path column ∧ calculateFileHash path = fileHash
  · obtain ⟨path, column, visit, rfl⟩ := known
    obtain ⟨file, found, metadata, keys⟩ := leaves.covered path column visit
    obtain ⟨file', found', metadata', keys'⟩ := leaves'.covered path column visit
    rw [found] at found'
    cases found'
    obtain ⟨indexDir, present, -⟩ := IndexRoot.lookup_of_fst keys
    obtain ⟨indexDir', present', -⟩ := IndexRoot.lookup_of_fst keys'
    rw [present, present']
    rw [IndexRoot.dir_of_lookup present] at metadata
    rw [IndexRoot.dir_of_lookup present'] at metadata'
    have same : indexDir = indexDir' := by
      refine IndexDir.ext_fst (metadata.trans metadata'.symm) fun other => ?_
      rw [← IndexRoot.dir_of_lookup present, ← IndexRoot.dir_of_lookup present']
      exact leaves.fst_unique leaves' (leaves.inside path column visit) other
    rw [same]
  · rw [leaves.absent known, leaves'.absent known]

/-! ## One visit -/

/-- Indexing a file adds its path and column, when the columns have files of their own. -/
theorem Leaves.indexed {columns : Set Column} (own : OwnFiles columns)
    (distinct : Set.InjOn calculateFileHash paths)
    (leaves : Leaves calculateFileHash tree paths visited root)
    (within : ∀ path column, visited path column → column ∈ columns) {path : Path}
    (member : path ∈ paths) {file : FileTree.DataFile} (found : tree.dataFile? path = some file)
    {column : Column} (inColumns : column ∈ columns) (named : fstFile column ≠ none) :
    Leaves calculateFileHash tree paths (fun p c => visited p c ∨ p = path ∧ c = column)
      (root.insert (calculateFileHash path)
        ((root.dir (calculateFileHash path)).indexed path file column)) := by
  have elsewhere : ∀ p ∈ paths, p ≠ path → ∀ d : IndexDir,
      IndexRoot.dir (root.insert (calculateFileHash path) d) (calculateFileHash p) =
        root.dir (calculateFileHash p) := fun p inside ne d =>
    IndexRoot.dir_insert_ne root (fun same => ne (distinct inside member same)) d
  constructor
  · rintro p c (before | ⟨rfl, -⟩)
    · exact leaves.inside p c before
    · exact member
  · intro p c visit
    by_cases same : p = path
    · subst same
      refine ⟨file, found, ?_⟩
      rw [IndexRoot.dir_insert_self]
      refine ⟨IndexDir.indexed_metadata _ _ _ _, ?_⟩
      by_cases here : c = column
      · subst here
        exact IndexDir.indexed_fst_self _ _ _ named
      · have before := visit.resolve_right fun last => here last.2
        obtain ⟨file', found', -, keys⟩ := leaves.covered p c before
        rw [found] at found'
        cases found'
        rw [IndexDir.indexed_fst_ne _ _ _ (own.ne inColumns (within p c before) named here), keys]
    · have before := visit.resolve_right fun last => same last.1
      rw [elsewhere p (leaves.inside p c before) same]
      exact leaves.covered p c before
  · intro p inside c apart
    have before := leaves.noOther p inside c fun other visit => apart other (Or.inl visit)
    by_cases same : p = path
    · subst same
      have ne : fstFile c ≠ fstFile column :=
        fun equal => apart column (Or.inr ⟨rfl, rfl⟩) equal.symm
      rw [IndexRoot.fst_insert_indexed_ne _ _ _ (Or.inr ne)]
      exact before
    · rw [elsewhere p inside same]
      exact before
  · refine FiniteMap.forall_lookup_insert ⟨path, column, Or.inr ⟨rfl, rfl⟩, rfl⟩ ?_
    intro fileHash indexDir _ present
    obtain ⟨p, c, before, named⟩ := leaves.present fileHash indexDir present
    exact ⟨p, c, Or.inl before, named⟩

/-- **A visit adds its path and column**, whether it skips or rewrites. -/
theorem Leaves.visit {columns : Set Column} (own : OwnFiles columns)
    (distinct : Set.InjOn calculateFileHash paths)
    (leaves : Leaves calculateFileHash tree paths visited root)
    (within : ∀ path column, visited path column → column ∈ columns) {path : Path}
    (member : path ∈ paths) {column : Column} (inColumns : column ∈ columns) {force : Bool}
    (ok : indexEntry calculateFileHash tree column force root path = .ok root') :
    Leaves calculateFileHash tree paths
      (fun p c => visited p c ∨ p = path ∧ c = column) root' := by
  rcases indexEntry_cases ok with ⟨rfl, -, skipped⟩ | ⟨named, file, found, rfl, -⟩
  · -- A file is skipped only when it has an FST, and then it was visited before.
    have visit : visited path column := by
      have held := fst_of_skipped skipped
      by_contra unvisited
      refine held (leaves.noOther path member column fun other visit same => unvisited ?_)
      obtain rfl := own.apart column inColumns other (within path other visit) same
        (IndexDir.named_of_fst held)
      exact visit
    refine leaves.congr fun p c => ⟨Or.inl, ?_⟩
    rintro (before | ⟨rfl, rfl⟩)
    · exact before
    · exact visit
  · exact leaves.indexed own distinct within member found inColumns named

/-! ## Whole runs -/

theorem Leaves.build {columns : Set Column} (own : OwnFiles columns)
    (distinct : Set.InjOn calculateFileHash paths)
    (leaves : Leaves calculateFileHash tree paths visited root)
    (within : ∀ path column, visited path column → column ∈ columns) {dataDir : Path}
    {column : Column} {force : Bool}
    (walked : ∀ path ∈ tree.parquetEntries dataDir, path ∈ paths ∧ column ∈ columns)
    (ok : buildIndexExt calculateFileHash tree root dataDir column force = .ok root') :
    Leaves calculateFileHash tree paths
      (fun p c => visited p c ∨ p ∈ tree.parquetEntries dataDir ∧ c = column) root' := by
  -- The invariant: the entries done so far have been visited for the column.
  have invariant := foldlM_ok_induction
    (fun (done : List Path) (now : IndexRoot) =>
      (∀ path ∈ done, path ∈ paths ∧ column ∈ columns) →
      Leaves calculateFileHash tree paths (fun p c => visited p c ∨ p ∈ done ∧ c = column) now)
    (fun done path now next held visit inside => by
      have before := held fun p member => inside p (List.mem_append_left _ member)
      obtain ⟨member, inColumns⟩ := inside path (by simp)
      have within' : ∀ p c, visited p c ∨ p ∈ done ∧ c = column → c ∈ columns := by
        rintro p c (earlier | ⟨-, rfl⟩)
        · exact within p c earlier
        · exact inColumns
      refine (before.visit own distinct within' member inColumns visit).congr fun p c => ?_
      rw [List.mem_append, List.mem_singleton, or_and_right, or_assoc])
    (tree.parquetEntries dataDir) [] root root'
    (fun _ => leaves.congr fun p c => by simp) ok
  exact invariant walked

/-- **What any successful calls leave** is known from what they cover. -/
theorem leaves_of_buildAll {calls : List BuildCall}
    (own : OwnFiles {column | ∃ path, Requested tree calls path column})
    (distinct : Set.InjOn calculateFileHash {path | ∃ column, Requested tree calls path column})
    (ok : buildAll calculateFileHash tree ∅ calls = .ok root) :
    Leaves calculateFileHash tree {path | ∃ column, Requested tree calls path column}
      (Requested tree calls) root := by
  generalize whole : {path | ∃ column, Requested tree calls path column} = paths at distinct ⊢
  generalize all : {column | ∃ path, Requested tree calls path column} = columns at own
  have invariant := foldlM_ok_induction
    (fun (done : List BuildCall) (now : IndexRoot) =>
      (∀ path column, Requested tree done path column → path ∈ paths ∧ column ∈ columns) →
      Leaves calculateFileHash tree paths (Requested tree done) now)
    (fun done call now next held build inside => by
      have before : ∀ path column, Requested tree done path column →
          path ∈ paths ∧ column ∈ columns := fun path column ⟨before, member, covers⟩ =>
        inside path column ⟨before, List.mem_append_left _ member, covers⟩
      have walked : ∀ path ∈ tree.parquetEntries call.dataDir,
          path ∈ paths ∧ call.column ∈ columns := fun path inWalk =>
        inside path call.column ⟨call, by simp, rfl, inWalk⟩
      have built := (held before).build own distinct
        (fun path column asked => (before path column asked).2) walked build
      refine built.congr fun path column => ?_
      simp only [Requested, List.mem_append, List.mem_singleton, or_and_right, exists_or,
        exists_eq_left]
      rw [and_comm, eq_comm])
    calls [] ∅ root
    (fun _ => (leaves_empty calculateFileHash tree paths).congr fun path column => by
      simp [Requested])
    ok
  refine invariant fun path column covered => ⟨?_, ?_⟩
  · rw [← whole]
    exact ⟨column, covered⟩
  · rw [← all]
    exact ⟨path, covered⟩

/-- **Calls over data files return**, when their columns name files. -/
theorem buildAll_returns {calls : List BuildCall}
    (named : ∀ path column, Requested tree calls path column → fstFile column ≠ none)
    (readable : ∀ path column, Requested tree calls path column →
      ∃ file, tree.dataFile? path = some file) :
    ∃ root, buildAll calculateFileHash tree ∅ calls = .ok root := by
  obtain ⟨root, ok, -⟩ := foldlM_total
    (f := fun root (call : BuildCall) =>
      buildIndexExt calculateFileHash tree root call.dataDir call.column call.force)
    IndexRoot.TextOnly (l := calls)
    (fun call member now text => by
      have asked : ∀ path ∈ tree.parquetEntries call.dataDir,
          Requested tree calls path call.column :=
        fun path inWalk => ⟨call, member, rfl, inWalk⟩
      refine buildIndexExt_returns (fun some => ?_) text
        (fun path inWalk => readable path call.column (asked path inWalk)) call.force
      obtain ⟨path, inWalk⟩ := List.exists_mem_of_ne_nil _ some
      exact named path call.column (asked path inWalk))
    textOnly_empty
  exact ⟨root, ok⟩

/-! ## A repeated run -/

/-- Indexing again what is on record rewrites it as it is. -/
theorem indexed_of_covered {indexDir : IndexDir} {path : Path} {file : FileTree.DataFile}
    {column : Column}
    (metadata : indexDir.metadata =
      some (.text (metadataContent path file.mtime file.size file.content.numRowGroups)))
    (keys : indexDir.fst column = some (.valid (columnKeys file.content column))) :
    indexDir.indexed path file column = indexDir := by
  have named : fstFile column ≠ none := IndexDir.named_of_fst (by rw [keys]; exact nofun)
  refine IndexDir.ext_fst ?_ fun other => ?_
  · rw [IndexDir.indexed_metadata, metadata]
  · by_cases same : fstFile other = fstFile column
    · rw [IndexDir.indexed_fst_same _ _ _ named same, IndexDir.fst_congr _ same, keys]
    · rw [IndexDir.indexed_fst_ne _ _ _ same]

/-- Visiting a path again, by a column it was indexed by, changes nothing. -/
theorem Leaves.visit_again (leaves : Leaves calculateFileHash tree paths visited root)
    {path : Path} {column : Column} (visit : visited path column) {now : IndexRoot}
    (same : ∀ fileHash, now.lookup fileHash = root.lookup fileHash) :
    ∃ next, indexEntry calculateFileHash tree column false now path = .ok next ∧
      ∀ fileHash, next.lookup fileHash = root.lookup fileHash := by
  obtain ⟨file, found, metadata, keys⟩ := leaves.covered path column visit
  obtain ⟨indexDir, present, -⟩ := IndexRoot.lookup_of_fst keys
  have dir : root.dir (calculateFileHash path) = indexDir := IndexRoot.dir_of_lookup present
  have dirNow : now.dir (calculateFileHash path) = indexDir :=
    IndexRoot.dir_of_lookup ((same _).trans present)
  rw [dir] at metadata keys
  have decided : ∃ needed, needsIndexing calculateFileHash tree now path column = .ok needed := by
    simp only [needsIndexing, dirNow, keys, metadata, FileTree.fileMetadata_of_dataFile found,
      bind, Except.bind]
    split <;> exact ⟨_, rfl⟩
  obtain ⟨needed, decided⟩ := decided
  cases needed with
  | false => exact ⟨now, indexEntry_of_skipped decided, same⟩
  | true =>
      have named : fstFile column ≠ none :=
        IndexDir.named_of_fst (by rw [keys]; exact Option.some_ne_none _)
      refine ⟨_, indexEntry_of_needed found named decided, fun fileHash => ?_⟩
      rw [dirNow, indexed_of_covered metadata keys]
      by_cases here : fileHash = calculateFileHash path
      · subst here
        rw [AList.lookup_insert, present]
      · rw [AList.lookup_insert_ne here, same]

/-- **The final index depends only on which files were indexed by which columns**,
not on the order, the repetitions or the force flags of the calls; and an unforced
call that repeats one of them changes nothing. -/
theorem builds_agree {calls calls' : List BuildCall}
    (own : OwnFiles {column | ∃ path, Requested tree calls path column})
    (distinct : Set.InjOn calculateFileHash {path | ∃ column, Requested tree calls path column})
    (same : ∀ path column, Requested tree calls path column ↔ Requested tree calls' path column)
    (ok : buildAll calculateFileHash tree ∅ calls = .ok root)
    (ok' : buildAll calculateFileHash tree ∅ calls' = .ok root') :
    (∀ fileHash, root.lookup fileHash = root'.lookup fileHash) ∧
      ∀ call ∈ calls, ∃ again,
        buildIndex calculateFileHash tree root call.dataDir call.column = .ok again ∧
          ∀ fileHash, again.lookup fileHash = root.lookup fileHash := by
  have leaves := leaves_of_buildAll own distinct ok
  constructor
  · have samePaths : {path | ∃ column, Requested tree calls path column} =
        {path | ∃ column, Requested tree calls' path column} := by
      simp only [same]
    have sameColumns : {column | ∃ path, Requested tree calls path column} =
        {column | ∃ path, Requested tree calls' path column} := by
      simp only [same]
    rw [samePaths] at distinct
    rw [sameColumns] at own
    have leaves' := (leaves_of_buildAll own distinct ok').congr fun path column =>
      (same path column).symm
    rw [← samePaths] at leaves'
    exact leaves.unique leaves'
  · intro call member
    refine foldlM_total
      (fun now : IndexRoot => ∀ fileHash, now.lookup fileHash = root.lookup fileHash) ?_
      fun _ => rfl
    intro path inWalk now held
    exact leaves.visit_again ⟨call, member, rfl, inWalk⟩ held

/-! ## Two columns that share a file -/

/-- The tree of one file with both columns. -/
def pairTree (column other : Column) : FileTree :=
  singleTree samplePath (pairFile 1700000000 column other [(['a'], ['b'])] (by decide))

/-- A run by each of two columns. -/
def pairCalls (column other : Column) : List BuildCall :=
  [⟨sampleDir, column, false⟩, ⟨sampleDir, other, false⟩]

theorem requested_pair {column other : Column} {file : FileTree.DataFile} {path : Path}
    {c : Column} :
    Requested (singleTree samplePath file) (pairCalls column other) path c ↔
      (c = column ∨ c = other) ∧ path = samplePath := by
  simp only [Requested, pairCalls, List.mem_cons, List.not_mem_nil, or_false, or_and_right,
    exists_or, exists_eq_left, parquetEntries_sample, eq_comm (a := c)]

theorem oneLine_samplePath : OneLine samplePath := oneLine_of_hasParquetExtension rfl (by decide)

/-- The column indexed first keeps the file. -/
theorem build_pair {column other : Column} (same : fstFile other = fstFile column)
    (named : fstFile column ≠ none) (file : FileTree.DataFile) :
    buildAll calculateFileHash (singleTree samplePath file) ∅ (pairCalls column other) =
      .ok (AList.insert (calculateFileHash samplePath)
        (IndexDir.empty.indexed samplePath file column) ∅) := by
  have found := dataFile_singleTree samplePath file
  have upToDate : (IndexRoot.dir (AList.insert (calculateFileHash samplePath)
      (IndexDir.empty.indexed samplePath file column) ∅) (calculateFileHash samplePath)).UpToDate
      file other := by
    rw [IndexRoot.dir_insert_self]
    refine ⟨?_, _, IndexDir.indexed_metadata _ _ _ _, storedStamp_content oneLine_samplePath _ _ _⟩
    rw [IndexDir.indexed_fst_same _ _ _ named same]
    exact nofun
  have first : indexEntry calculateFileHash (singleTree samplePath file) column false ∅ samplePath =
      .ok (AList.insert (calculateFileHash samplePath)
        (IndexDir.empty.indexed samplePath file column) ∅) :=
    indexEntry_of_missing found named (IndexDir.fst_empty column)
  simp only [buildAll, pairCalls, List.foldlM_cons, List.foldlM_nil,
    buildIndex_of_single (parquetEntries_sample file), first]
  exact congrArg (· >>= pure) (indexEntry_of_upToDate found upToDate)

/-- The two orders leave different key sets. -/
theorem build_pair_differs {column other : Column} (ne : other ≠ column)
    (same : fstFile other = fstFile column) (named : fstFile column ≠ none) {root root' : IndexRoot}
    (ok : buildAll calculateFileHash (pairTree column other) ∅ (pairCalls column other) = .ok root)
    (ok' : buildAll calculateFileHash (pairTree column other) ∅ (pairCalls other column) =
      .ok root') :
    root.lookup (calculateFileHash samplePath) ≠ root'.lookup (calculateFileHash samplePath) := by
  intro agree
  have named' : fstFile other ≠ none := by rwa [same]
  rw [pairTree, build_pair same named] at ok
  rw [pairTree, build_pair same.symm named'] at ok'
  cases ok
  cases ok'
  rw [AList.lookup_insert, AList.lookup_insert] at agree
  have fsts := congrArg (IndexDir.fst · column) (Option.some.inj agree)
  simp only [IndexDir.indexed_fst_self _ _ _ named,
    IndexDir.indexed_fst_same _ _ _ named' same.symm] at fsts
  have keys := FstFile.valid.inj (Option.some.inj fsts)
  have held : keyBytes ['a'] 0 ∈ columnKeys (pairFile 1700000000 column other [(['a'], ['b'])]
      (by decide)).content column :=
    mem_columnKeys.mpr ⟨0, ['a'], holdsValue_pairFile.mpr ⟨(['a'], ['b']), rfl, rfl⟩, rfl⟩
  rw [keys] at held
  obtain ⟨g, v, holds, key⟩ := mem_columnKeys.mp held
  obtain ⟨values, row, rfl⟩ := (holdsValue_pairFile_ne ne).mp holds
  obtain ⟨rfl, rfl⟩ : g = 0 ∧ values = (['a'], ['b']) := by
    cases g <;> simp_all
  exact absurd key (by decide)

/-- **Calls by some columns agree, on every tree and in every order, exactly when the
columns have files of their own.** -/
theorem builds_agree_iff {columns : Set Column} (stays : ∀ column ∈ columns, ¬ LeadsOut column) :
    (∀ (tree : FileTree) (calls calls' : List BuildCall) (root root' : IndexRoot),
      (∀ call ∈ calls, call.column ∈ columns) →
      Set.InjOn calculateFileHash {path | ∃ column, Requested tree calls path column} →
      (∀ path column, Requested tree calls path column ↔ Requested tree calls' path column) →
      buildAll calculateFileHash tree ∅ calls = .ok root →
      buildAll calculateFileHash tree ∅ calls' = .ok root' →
      (∀ fileHash, root.lookup fileHash = root'.lookup fileHash) ∧
        ∀ call ∈ calls, ∃ again,
          buildIndex calculateFileHash tree root call.dataDir call.column = .ok again ∧
            ∀ fileHash, again.lookup fileHash = root.lookup fileHash) ↔
      OwnFiles columns := by
  constructor
  · refine fun agree => ⟨stays, fun column member other member' same named => ?_⟩
    by_contra ne
    have ok : buildAll calculateFileHash (pairTree column other) ∅ (pairCalls column other) =
        .ok _ := build_pair same named _
    have ok' : buildAll calculateFileHash (pairTree column other) ∅ (pairCalls other column) =
        .ok _ := build_pair same.symm (by rwa [same]) _
    have within : ∀ call ∈ pairCalls column other, call.column ∈ columns := by
      simp [pairCalls, member, member']
    have distinct : Set.InjOn calculateFileHash
        {path | ∃ c, Requested (pairTree column other) (pairCalls column other) path c} := by
      refine (Set.injOn_singleton _ samplePath).mono ?_
      rintro path ⟨c, requested⟩
      exact (requested_pair.mp requested).2
    have covers : ∀ path c, Requested (pairTree column other) (pairCalls column other) path c ↔
        Requested (pairTree column other) (pairCalls other column) path c := by
      intro path c
      rw [pairTree, requested_pair, requested_pair, or_comm]
    have agreed := (agree _ _ _ _ _ within distinct covers ok ok').1
    exact build_pair_differs ne same named ok ok' (agreed _)
  · intro own tree calls calls' root root' within distinct same ok ok'
    refine builds_agree (own.mono ?_) distinct same ok ok'
    rintro column ⟨path, call, member, rfl, -⟩
    exact within call member

end Leaves

/-! ## Two orders of two columns -/

def nameThenCity : List BuildCall :=
  [⟨sampleDir, sampleColumn, false⟩, ⟨sampleDir, cityColumn, false⟩]

def cityThenName : List BuildCall :=
  [⟨sampleDir, cityColumn, true⟩, ⟨sampleDir, sampleColumn, false⟩, ⟨sampleDir, cityColumn, false⟩]

theorem builds_agree_sample :
    ∃ root root', buildAll sampleHash (singleTree samplePath alice) ∅ nameThenCity = .ok root ∧
      buildAll sampleHash (singleTree samplePath alice) ∅ cityThenName = .ok root' ∧
      ∀ fileHash, root.lookup fileHash = root'.lookup fileHash := by
  have oneDir : ∀ call ∈ nameThenCity, call.dataDir = sampleDir := by decide
  have oneDir' : ∀ call ∈ cityThenName, call.dataDir = sampleDir := by decide
  have walk := parquetEntries_sample alice
  have within : ∀ call ∈ nameThenCity, call.column ∈ personColumns := by
    simp [nameThenCity, personColumns]
  have distinct : Set.InjOn sampleHash
      {path | ∃ column, Requested (singleTree samplePath alice) nameThenCity path column} := by
    refine (Set.injOn_singleton sampleHash samplePath).mono ?_
    rintro path ⟨column, covered⟩
    rw [requested_iff oneDir, walk] at covered
    exact List.mem_singleton.mp covered.1
  have sameColumns : ∀ column, column ∈ nameThenCity.map BuildCall.column ↔
      column ∈ cityThenName.map BuildCall.column := by
    intro column
    simp only [nameThenCity, cityThenName, List.map_cons, List.map_nil, List.mem_cons]
    tauto
  have same : ∀ path column, Requested (singleTree samplePath alice) nameThenCity path column ↔
      Requested (singleTree samplePath alice) cityThenName path column := by
    intro path column
    rw [requested_iff oneDir, requested_iff oneDir', sameColumns]
  have ok : ∃ root, buildAll sampleHash (singleTree samplePath alice) ∅ nameThenCity = .ok root :=
    ⟨_, rfl⟩
  have ok' : ∃ root, buildAll sampleHash (singleTree samplePath alice) ∅ cityThenName = .ok root :=
    ⟨_, rfl⟩
  obtain ⟨root, ok⟩ := ok
  obtain ⟨root', ok'⟩ := ok'
  have agree := (builds_agree_iff ownFiles_person.stays).mpr ownFiles_person _ _ _ _ _ within
    distinct same ok ok'
  exact ⟨root, root', ok, ok', agree.1⟩

/-- A column whose FST is the one of the column `name`. -/
def aliasColumn : Column := "./name".toList

theorem fstFile_aliasColumn : fstFile aliasColumn = fstFile sampleColumn := by decide

/-- A run by `name` and a run by `./name` leave the keys of the one that came first. -/
theorem shared_fst_refuted :
    ∃ root root', buildAll sampleHash (pairTree sampleColumn aliasColumn) ∅
        (pairCalls sampleColumn aliasColumn) = .ok root ∧
      buildAll sampleHash (pairTree sampleColumn aliasColumn) ∅
        (pairCalls aliasColumn sampleColumn) = .ok root' ∧
      (∀ path column, Requested (pairTree sampleColumn aliasColumn)
          (pairCalls sampleColumn aliasColumn) path column ↔
        Requested (pairTree sampleColumn aliasColumn)
          (pairCalls aliasColumn sampleColumn) path column) ∧
      root.lookup (sampleHash samplePath) ≠ root'.lookup (sampleHash samplePath) := by
  have ok : buildAll sampleHash (pairTree sampleColumn aliasColumn) ∅
      (pairCalls sampleColumn aliasColumn) = .ok _ :=
    build_pair fstFile_aliasColumn named_sampleColumn _
  have ok' : buildAll sampleHash (pairTree sampleColumn aliasColumn) ∅
      (pairCalls aliasColumn sampleColumn) = .ok _ :=
    build_pair fstFile_aliasColumn.symm (by decide) _
  have covers : ∀ path column, Requested (pairTree sampleColumn aliasColumn)
      (pairCalls sampleColumn aliasColumn) path column ↔
      Requested (pairTree sampleColumn aliasColumn)
        (pairCalls aliasColumn sampleColumn) path column := by
    intro path column
    rw [pairTree, requested_pair, requested_pair, or_comm]
  exact ⟨_, _, ok, ok', covers,
    build_pair_differs (by decide) fstFile_aliasColumn named_sampleColumn ok ok'⟩

end Pdq
