/- Pdq.Index.OneColumn -- an index that is kept for one column.

A directory is indexed by one column again and again, with or without `--prune`,
while its files come, change and go.  No index run can mislead another one then
(`oneColumn_maintains`), and a run with `--prune` leaves what a run from nothing
would leave (`pruned_run_is_fresh`). -/
import Pdq.Index.Convergence
import Pdq.Index.Maintenance

namespace Pdq

open Theory Theory.SharedStamp

set_option autoImplicit false

section OneColumn

variable (calculateFileHash : Path → Str) (history : Path → Set FileTree.DataFile)
  (paths : Set Path) (dataDir : Path) (column : Column)

/-- The states reached from an empty index directory. -/
inductive OneColumn : World → Prop
  | start (tree : FileTree) (known : Known history tree) : OneColumn ⟨tree, ∅⟩
  | change {world : World} (reached : OneColumn world) (tree : FileTree)
      (known : Known history tree) : OneColumn ⟨tree, world.root⟩
  | index {world : World} (reached : OneColumn world) {prune : Bool} {root : IndexRoot}
      (visited : ∀ path ∈ world.tree.parquetEntries dataDir, path ∈ paths)
      (ok : indexCommand calculateFileHash world.tree world.root prune dataDir column = .ok root) :
      OneColumn ⟨world.tree, root⟩

end OneColumn

section Invariants

variable {calculateFileHash : Path → Str} {history : Path → Set FileTree.DataFile}
  {paths : Set Path} {dataDir : Path} {column : Column} {world : World} {tree : FileTree}
  {root : IndexRoot}

/-- The column, and a column for each other file. -/
def ownColumns (column : Column) : Set Column :=
  {other | other = column ∨ IsFileStem other ∧ fstFile other ≠ fstFile column}

theorem ownFiles_ownColumns (named : fstFile column ≠ none) : OwnFiles (ownColumns column) where
  stays := by
    rintro other (rfl | ⟨stem, -⟩)
    · exact not_leadsOut_of_named named
    · exact not_leadsOut_of_isFileStem stem
  apart := by
    rintro first (rfl | ⟨stem, apart⟩) second (rfl | ⟨stem', apart'⟩) same -
    · rfl
    · exact absurd same apart'
    · exact absurd same.symm apart
    · rw [fstFile_of_isFileStem stem, fstFile_of_isFileStem stem'] at same
      exact congrArg Subtype.val (Option.some.inj same)

/-- Only the column is indexed. -/
def Catalogue.Only (catalogue : Catalogue) (column : Column) : Prop :=
  ∀ path other, other ≠ column → catalogue.snapshot path other = none

theorem Catalogue.Only.after {catalogue : Catalogue} (only : catalogue.Only column) (prune : Bool)
    (dataDir : Path) : (catalogue.after prune dataDir column).Only column := by
  intro path other ne
  rw [Catalogue.after, Catalogue.snapshot_indexed_ne _ (Or.inr ne)]
  cases prune with
  | false => exact only path other ne
  | true => simp only [if_true, Catalogue.pruned, only path other ne, ite_self]

/-- A run over the only column moves alone. -/
theorem movesAlone_of_only (noFeed : ∀ path ∈ paths, ¬ '\n' ∈ path) {catalogue : Catalogue}
    (maintains : Maintains calculateFileHash history paths (ownColumns column) world catalogue)
    (only : catalogue.Only column)
    (visited : ∀ path ∈ world.tree.parquetEntries dataDir, path ∈ paths) :
    MovesAlone calculateFileHash (ownColumns column) world dataDir column := by
  refine ⟨Or.inl rfl, fun path inWalk => ?_⟩
  have member := visited path inWalk
  refine ⟨noFeed path member, fun file _ => Or.inr fun other inColumns ne => ?_⟩
  rw [maintains.fst path member other inColumns, only path other ne]
  rfl

/-- **What is indexed of one column is maintained**, with nothing more to ask of the
runs. -/
theorem oneColumn_maintains (differ : StampsDiffer history) (named : fstFile column ≠ none)
    (distinct : Set.InjOn calculateFileHash paths) (noFeed : ∀ path ∈ paths, ¬ '\n' ∈ path)
    (reached : OneColumn calculateFileHash history paths dataDir column world) :
    ∃ catalogue, Maintains calculateFileHash history paths (ownColumns column) world catalogue ∧
      catalogue.Only column := by
  induction reached with
  | start tree known => exact ⟨.empty tree, maintains_start known, fun _ _ _ => rfl⟩
  | change _ tree known ih =>
      obtain ⟨catalogue, maintains, only⟩ := ih
      exact ⟨_, maintains_change maintains known, only⟩
  | index _ visited ok ih =>
      obtain ⟨catalogue, maintains, only⟩ := ih
      exact ⟨_, maintains_indexCommand differ (ownFiles_ownColumns named) distinct noFeed maintains
        visited (movesAlone_of_only noFeed maintains only visited) ok, only.after _ dataDir⟩

/-! ## A run with pruning -/

/-- The record that names a version is the record of that version. -/
theorem metadata_of_current {file : FileTree.DataFile} {path : Path} (differ : StampsDiffer history)
    (distinct : Set.InjOn calculateFileHash paths) (member : path ∈ paths) (one : OneLine path)
    (known : file ∈ history path)
    (records : RecordsVersions calculateFileHash history paths root)
    (present : root.lookup (calculateFileHash path) ≠ none)
    (stamp : (root.dir (calculateFileHash path)).recordedStamp =
      some (file.mtime.toNat, file.size.toNat)) :
    (root.dir (calculateFileHash path)).metadata =
      some (.text (metadataContent path file.mtime file.size file.content.numRowGroups)) := by
  obtain ⟨indexDir, found⟩ := Option.ne_none_iff_exists'.mp present
  obtain ⟨path', member', hashed, -, recorded, inHistory, written⟩ := records _ _ found
  obtain rfl := distinct member' member hashed
  rw [IndexRoot.dir_of_lookup found] at stamp ⊢
  rw [IndexDir.recordedStamp, written] at stamp
  simp only [storedStamp_content one, Option.some.injEq, Prod.mk.injEq] at stamp
  rw [eq_of_stamp differ known inHistory stamp.1.symm stamp.2.symm, written]

/-- No FST is there under another name than that of the only column. -/
theorem Maintains.fst_of_only {catalogue : Catalogue}
    (maintains : Maintains calculateFileHash history paths (ownColumns column) world catalogue)
    (only : catalogue.Only column) {path : Path} (member : path ∈ paths) {other : Column}
    (ne : fstFile other ≠ fstFile column) :
    (world.root.dir (calculateFileHash path)).fst other = none := by
  cases leads : fstFile other with
  | none => rw [IndexDir.fst, leads, Option.bind_none]
  | some name =>
      -- The file is also that of the column that is its stem.
      rw [leads, ← fstFile_stem name] at ne
      have stem : name.1 ≠ column := fun same => ne (congrArg fstFile same)
      rw [← IndexDir.fst_congr _ ((fstFile_stem name).trans leads.symm),
        maintains.fst path member name.1 (Or.inr ⟨name.2, ne⟩), only path name.1 stem]
      rfl

section Pruned

variable {catalogue : Catalogue} {middle : IndexRoot} {prunedCount : Nat}

/-- A run after a pruning covers each file under the directory, as it is now. -/
theorem covered_of_prunedRun (differ : StampsDiffer history) (named : fstFile column ≠ none)
    (distinct : Set.InjOn calculateFileHash paths) (noFeed : ∀ path ∈ paths, ¬ '\n' ∈ path)
    (kept : Maintains calculateFileHash history paths (ownColumns column) ⟨tree, middle⟩
      catalogue.pruned)
    (maintained : Maintains calculateFileHash history paths (ownColumns column) ⟨tree, root⟩
      (catalogue.after true dataDir column))
    (visited : ∀ path ∈ tree.parquetEntries dataDir, path ∈ paths)
    (ok : buildIndex calculateFileHash tree middle dataDir column = .ok root) {path : Path}
    (inWalk : path ∈ tree.parquetEntries dataDir) {file : FileTree.DataFile}
    (found : tree.dataFile? path = some file) :
    (root.dir (calculateFileHash path)).metadata =
        some (.text (metadataContent path file.mtime file.size file.content.numRowGroups)) ∧
      (root.dir (calculateFileHash path)).fst column =
        some (.valid (columnKeys file.content column)) := by
  have member := visited path inWalk
  have one : OneLine path :=
    oneLine_of_hasParquetExtension (List.mem_filter.mp inWalk).2 (noFeed path member)
  have snapshot : (catalogue.after true dataDir column).snapshot path column =
      some file.content := by
    have listed : path ∈ catalogue.pruned.tree.parquetEntries dataDir := by rwa [kept.tree]
    rw [Catalogue.after, if_pos rfl, Catalogue.snapshot_indexed _ column listed, kept.tree, found]
    rfl
  have keys := maintained.fst path member column (Or.inl rfl)
  rw [snapshot, Option.map_some] at keys
  obtain ⟨indexDir, present, -⟩ := IndexRoot.lookup_of_fst keys
  have stamp := stamp_of_build (ownFiles_ownColumns named) (Or.inl rfl) differ
    (fun entry inWalk' => distinct (visited entry inWalk') member) kept.known
    (kept.coherent path member) one inWalk found ok
  exact ⟨metadata_of_current differ distinct member one (kept.known path file found)
    maintained.versions (by simp [present]) stamp, keys⟩

/-- **What a pruning run leaves** is of the files under the directory, by the one column. -/
theorem leaves_of_prunedRun (differ : StampsDiffer history) (named : fstFile column ≠ none)
    (distinct : Set.InjOn calculateFileHash paths) (noFeed : ∀ path ∈ paths, ¬ '\n' ∈ path)
    (maintains : Maintains calculateFileHash history paths (ownColumns column) world catalogue)
    (only : catalogue.Only column)
    (visited : ∀ path ∈ world.tree.parquetEntries dataDir, path ∈ paths)
    (readable : ∀ path ∈ world.tree.parquetEntries dataDir,
      ∃ file, world.tree.dataFile? path = some file)
    (gone : ∀ path ∈ paths, ¬ path ∈ world.tree.parquetEntries dataDir →
      middle.lookup (calculateFileHash path) = none)
    (pruned : pruneOrphans world.tree world.root = .ok (middle, prunedCount))
    (part : ∀ fileHash, middle.lookup fileHash = world.root.lookup fileHash ∨
      middle.lookup fileHash = none)
    (ok : buildIndex calculateFileHash world.tree middle dataDir column = .ok root) :
    Leaves calculateFileHash world.tree {path | path ∈ world.tree.parquetEntries dataDir}
      (fun path c => path ∈ world.tree.parquetEntries dataDir ∧ c = column) root := by
  have kept := maintains_prune distinct noFeed maintains pruned
  have may := movesAlone_of_only noFeed maintains only visited
  have maintained : Maintains calculateFileHash history paths (ownColumns column)
      ⟨world.tree, root⟩ (catalogue.after true dataDir column) :=
    maintains_build differ (ownFiles_ownColumns named) distinct kept visited
      (movesAlone_prune part may) ok
  constructor
  · exact fun path _ visit => visit.1
  · rintro path other ⟨inWalk, here⟩
    rw [here]
    obtain ⟨file, found⟩ := readable path inWalk
    exact ⟨file, found, covered_of_prunedRun differ named distinct noFeed kept maintained visited ok
      inWalk found⟩
  · intro path inWalk other apart
    exact maintained.fst_of_only (only.after true dataDir) (visited path inWalk)
      (apart column ⟨inWalk, rfl⟩).symm
  · intro fileHash indexDir present
    obtain ⟨path, member, rfl, -⟩ := maintained.records fileHash indexDir present
    by_cases inWalk : path ∈ world.tree.parquetEntries dataDir
    · exact ⟨path, column, ⟨inWalk, rfl⟩, rfl⟩
    · -- It was recorded before, so its file is gone and the sub-directory was removed.
      have other : ∀ entry ∈ world.tree.parquetEntries dataDir,
          calculateFileHash entry ≠ calculateFileHash path := fun entry member' same =>
        inWalk (distinct (visited entry member') member same ▸ member')
      rw [lookup_build_ne other ok, gone path member inWalk] at present
      cases present

end Pruned

/-- **A run with `--prune` leaves what a run from nothing would leave**, when the
files that were indexed before are still under the directory or are gone. -/
theorem pruned_run_is_fresh (differ : StampsDiffer history)
    (named : fstFile column ≠ none) (distinct : Set.InjOn calculateFileHash paths)
    (noFeed : ∀ path ∈ paths, ¬ '\n' ∈ path)
    (reached : OneColumn calculateFileHash history paths dataDir column world)
    (visited : ∀ path ∈ world.tree.parquetEntries dataDir, path ∈ paths)
    (readable : ∀ path ∈ world.tree.parquetEntries dataDir,
      ∃ file, world.tree.dataFile? path = some file)
    (gone : ∀ path ∈ paths, ¬ path ∈ world.tree.parquetEntries dataDir →
      world.tree.resolve path = none) :
    ∃ root fresh,
      indexCommand calculateFileHash world.tree world.root true dataDir column = .ok root ∧
      buildIndex calculateFileHash world.tree ∅ dataDir column = .ok fresh ∧
      ∀ fileHash, root.lookup fileHash = fresh.lookup fileHash := by
  obtain ⟨catalogue, maintains, only⟩ := oneColumn_maintains differ named distinct noFeed reached
  obtain ⟨middle, count, pruned, part, lookups⟩ :=
    pruneOrphans_recorded distinct noFeed maintains.records world.tree
  have kept := maintains_prune distinct noFeed maintains pruned
  obtain ⟨root, ok, -⟩ : ∃ root, buildIndex calculateFileHash world.tree middle dataDir column =
      .ok root ∧ root.TextOnly :=
    buildIndexExt_returns (fun _ => named) kept.records.textOnly readable false
  obtain ⟨fresh, okFresh, -⟩ : ∃ fresh, buildIndex calculateFileHash world.tree ∅ dataDir column =
      .ok fresh ∧ fresh.TextOnly :=
    buildIndexExt_returns (fun _ => named) textOnly_empty readable false
  have leaves := leaves_of_prunedRun differ named distinct noFeed maintains only visited readable
    (fun path member outside => by rw [lookups path member, gone path member outside]; rfl)
    pruned part ok
  have walked : {path | path ∈ world.tree.parquetEntries dataDir} ⊆ paths := visited
  have leaves' := ((leaves_empty calculateFileHash world.tree _).build (ownFiles_ownColumns named)
    (distinct.mono walked) (fun _ _ none => none.elim) (fun path inWalk => ⟨inWalk, Or.inl rfl⟩)
    okFresh).congr fun path c => by rw [false_or]
  refine ⟨root, fresh, ?_, okFresh, leaves.unique leaves'⟩
  rw [indexCommand_true pruned, ok]

end Invariants

/-! ## A file that is moved -/

def movedPath : Path := "/d/b.parquet".toList

theorem injOn_moved : Set.InjOn sampleHash {samplePath, movedPath} := by
  rintro path (rfl | rfl) path' (rfl | rfl) same
  · rfl
  · exact absurd same (by decide)
  · exact absurd same (by decide)
  · rfl

/-- Indexed under one path, moved to another, and indexed again with `--prune`. -/
theorem pruned_run_is_fresh_sample :
    ∃ root fresh,
      indexCommand sampleHash (singleTree movedPath alice)
        (singleRoot samplePath alice sampleColumn) true sampleDir sampleColumn = .ok root ∧
      buildIndex sampleHash (singleTree movedPath alice) ∅ sampleDir sampleColumn = .ok fresh ∧
      ∀ fileHash, root.lookup fileHash = fresh.lookup fileHash := by
  have walk : (singleTree movedPath alice).parquetEntries sampleDir = [movedPath] := rfl
  have first : indexCommand sampleHash (singleTree samplePath alice) ∅ false sampleDir
      sampleColumn = .ok (singleRoot samplePath alice sampleColumn) :=
    buildIndex_single named_sampleColumn (parquetEntries_sample alice) rfl
  have indexed : OneColumn sampleHash personHistory {samplePath, movedPath} sampleDir sampleColumn
      ⟨singleTree samplePath alice, singleRoot samplePath alice sampleColumn⟩ :=
    .index (.start (singleTree samplePath alice) (known_singleTree (Or.inl rfl)))
      (fun path inWalk => Or.inl (visited_sample alice path inWalk)) first
  refine pruned_run_is_fresh personHistory_differ named_sampleColumn injOn_moved ?_
    (indexed.change (singleTree movedPath alice) (known_singleTree (Or.inl rfl))) ?_ ?_ ?_
  · rintro path (rfl | rfl) <;> decide
  · intro path inWalk
    rw [walk] at inWalk
    exact Or.inr (List.mem_singleton.mp inWalk)
  · intro path inWalk
    rw [walk] at inWalk
    exact ⟨alice, by rw [List.mem_singleton.mp inWalk, dataFile_singleTree]⟩
  · rintro path (rfl | rfl) outside
    · decide
    · exact absurd (by rw [walk]; exact List.mem_singleton_self _) outside

end Pdq
