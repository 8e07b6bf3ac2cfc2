/- Pdq.Provider.Pruning -- queries before and after prune_orphans.

A missing file is met twice: a pruning run removes its sub-directory, and a scan
passes over a path that does not resolve.  Over an index directory that index
runs left, what a scan plans for a hash depends on the sub-directory of that hash
alone (`planned_of_agree`), though all files of the index take part in the
pruning loop before it.  So removing the sub-directories of missing files changes
no plan (`pruning_invisible`). -/
import Pdq.Index.Prune
import Pdq.Provider.Duplicates
import Pdq.Provider.Table
import Pdq.Query.Batch

namespace Pdq

open Theory

set_option autoImplicit false

/-! ## What index runs leave -/

/-- A fresh provider can read the index directory: its FSTs are those of some
files, and every sub-directory records the path of its hash and a count. -/
structure Legible (calculateFileHash : Path → Str) (root : IndexRoot) : Prop where
  written : ∃ content, WrittenFrom root content
  names : NamesPaths calculateFileHash (.new root)
  counted : ∀ fileHash indexDir, root.lookup fileHash = some indexDir →
    ∃ count, (indexDir.mapEntry fileHash).2 = some count

section Legible

variable {calculateFileHash : Path → Str} {root root' : IndexRoot}

/-- **Index runs leave a legible index directory.** -/
theorem legible_of_reached {history : Path → Set FileTree.DataFile} {paths : Set Path}
    {allowed : World → Path → Column → Prop} {world : World}
    (reached : Reached calculateFileHash history paths allowed world)
    (noFeed : ∀ path ∈ paths, ¬ '\n' ∈ path) : Legible calculateFileHash world.root where
  written := by
    refine reached_invariant (fun now => ∃ content, WrittenFrom now content)
      ⟨_, writtenFrom_empty⟩ ?_ reached
    rintro path - - file column named now ⟨content, held⟩
    exact ⟨_, held.indexed _ path file named⟩
  names _ _ mapped := (fileMap_of_reached reached noFeed mapped).2
  counted := by
    refine reached_invariant (fun now : IndexRoot => ∀ fileHash indexDir,
      now.lookup fileHash = some indexDir → ∃ count, (indexDir.mapEntry fileHash).2 = some count)
      FiniteMap.forall_lookup_empty ?_ reached
    intro path member selected file column named now held
    have one := oneLine_of_hasParquetExtension selected (noFeed path member)
    refine FiniteMap.forall_lookup_insert ?_ fun fileHash indexDir _ present =>
      held fileHash indexDir present
    exact ⟨_, congrArg Prod.snd (mapEntry_indexed _ _ one file column)⟩

/-- Removing sub-directories keeps an index directory legible. -/
theorem Legible.of_part (legible : Legible calculateFileHash root)
    (part : ∀ fileHash, root'.lookup fileHash = root.lookup fileHash ∨
      root'.lookup fileHash = none) : Legible calculateFileHash root' where
  written := by
    obtain ⟨content, written⟩ := legible.written
    refine ⟨fun fileHash column => (root'.lookup fileHash).bind fun _ => content fileHash column,
      fun fileHash column => ?_⟩
    rcases part fileHash with same | removed
    · cases present : root.lookup fileHash with
      | none => simp [IndexRoot.dir, same, present]
      | some indexDir =>
          have here := written fileHash column
          rw [IndexRoot.dir_of_lookup present] at here
          simp only [same, present, IndexRoot.dir_of_lookup (same.trans present), here,
            Option.bind_some]
    · simp [IndexRoot.dir, removed]
  names fileHash path mapped := by
    rw [IndexQueryEngine.new_fileMap] at mapped
    rcases part fileHash with same | removed
    · exact legible.names fileHash path (by rw [IndexQueryEngine.new_fileMap, ← same, mapped])
    · rw [removed] at mapped
      cases mapped
  counted fileHash indexDir present := by
    rcases part fileHash with same | removed
    · exact legible.counted fileHash indexDir (same.symm.trans present)
    · rw [removed] at present
      cases present

theorem Legible.exactSearch_returns (legible : Legible calculateFileHash root) {column : Column}
    (opens : Opens column) (term : Str) :
    ∃ results, ((IndexQueryEngine.new root).exactSearch root column term).1 = .ok results := by
  obtain ⟨content, written⟩ := legible.written
  exact ⟨_, IndexQueryEngine.exactSearch_written written (.refl _ _) (fun _ _ => opens) term⟩

end Legible

/-! ## What is planned for one hash -/

section Agree

variable {calculateFileHash : Path → Str} {root root' : IndexRoot} {fileHash : Str}
  {filters : List Expr}

/-- The pruning of a fresh provider. -/
def freshPruning (calculateFileHash : Path → Str) (root : IndexRoot) (filters : List Expr) :
    Pruned :=
  (pruneWithFstIndex calculateFileHash root (.new root) filters).1

/-- A match of a filter is one of its file's hash, so another index directory
with the same sub-directory of that hash has it too. -/
theorem filterMatches_of_agree (legible : Legible calculateFileHash root)
    (legible' : Legible calculateFileHash root')
    (agree : root'.lookup fileHash = root.lookup fileHash) {filter : Expr}
    {fileMatch : FileMatches} (named : calculateFileHash fileMatch.filePath = fileHash)
    (member : fileMatch ∈ filterMatches root (.new root) filter) :
    fileMatch ∈ filterMatches root' (.new root') filter := by
  obtain ⟨column, value, extracted, -, fileHash', mapped, answered, nonempty⟩ :=
    mem_filterMatches_iff.mp member
  have key : fileHash' = fileHash := (legible.names fileHash' _ mapped).symm.trans named
  subst key
  obtain ⟨_, held, -⟩ := IndexQueryEngine.fst_of_fileAnswer answered nonempty
  rw [IndexQueryEngine.new_fstFor] at held
  refine mem_filterMatches_iff.mpr ⟨column, value, extracted,
    legible'.exactSearch_returns (IndexDir.opens_of_fst held) value, fileHash', ?_, ?_, nonempty⟩
  · rw [IndexQueryEngine.new_fileMap, agree, ← IndexQueryEngine.new_fileMap, mapped]
  · have sameDir : root'.dir fileHash' = root.dir fileHash' := by
      rw [IndexRoot.dir, agree, IndexRoot.dir]
    rw [← answered]
    simp only [IndexQueryEngine.fileAnswer, IndexQueryEngine.new_fstFor, sameDir]

/-- What the pruning loop leaves under a hash is settled by the sub-directory of
that hash. -/
theorem fileRowGroups_of_agree (legible : Legible calculateFileHash root)
    (legible' : Legible calculateFileHash root')
    (agree : root'.lookup fileHash = root.lookup fileHash) :
    (freshPruning calculateFileHash root' filters).fileRowGroups.lookup fileHash =
      (freshPruning calculateFileHash root filters).fileRowGroups.lookup fileHash := by
  refine FiniteMap.meets_unique (fun answer named => ?_) (pruned_meets _ filters fileHash)
    (pruned_meets _ filters fileHash)
  simp only [List.mem_map, List.mem_flatMap]
  constructor
  · rintro ⟨fileMatch, ⟨filter, asked, member⟩, rfl⟩
    exact ⟨fileMatch, ⟨filter, asked,
      filterMatches_of_agree legible' legible agree.symm named member⟩, rfl⟩
  · rintro ⟨fileMatch, ⟨filter, asked, member⟩, rfl⟩
    exact ⟨fileMatch, ⟨filter, asked,
      filterMatches_of_agree legible legible' agree named member⟩, rfl⟩

/-- The files a scan of a fresh provider plans. -/
def freshlyPlanned (calculateFileHash : Path → Str) (session : Session) (tree : FileTree)
    (root : IndexRoot) (filters : List Expr) : Set PartitionedFile :=
  {file | ∃ plan, (scan calculateFileHash session tree root (.new root) filters).1 = .ok plan ∧
    file ∈ plan.files}

/-- The path on record, of a hash that the pruning loop leaves row groups for. -/
theorem path_of_pruned (legible : Legible calculateFileHash root) {rowGroups : SortedSet Nat}
    (left : (freshPruning calculateFileHash root filters).fileRowGroups.lookup fileHash =
      some rowGroups) :
    ∃ path, (IndexQueryEngine.new root).fileMap.lookup fileHash = some path ∧
      (freshPruning calculateFileHash root filters).hashToPath.lookup fileHash = some path :=
  (pruned_sound legible.names left).1

/-- A scan of a fresh provider over a legible index directory returns. -/
theorem scan_returns_of_legible (legible : Legible calculateFileHash root) {session : Session}
    (tree : FileTree) (accepts : session.createPhysicalExpr filters = .ok ()) :
    ∃ plan, (scan calculateFileHash session tree root (.new root) filters).1 = .ok plan := by
  refine scan_returns accepts fun entry member => ?_
  obtain ⟨path, mapped, -⟩ := path_of_pruned legible (FiniteMap.mem_entries_iff.mp member)
  rw [IndexQueryEngine.new_fileMap] at mapped
  obtain ⟨indexDir, present, -⟩ := Option.map_eq_some_iff.mp mapped
  obtain ⟨count, counted⟩ := legible.counted entry.1 indexDir present
  exact ⟨count, by rw [IndexQueryEngine.new_numRowGroups, present, Option.bind_some, counted]⟩

theorem mem_freshlyPlanned (legible : Legible calculateFileHash root) {session : Session}
    {tree : FileTree} {file : PartitionedFile} :
    file ∈ freshlyPlanned calculateFileHash session tree root filters ↔
      session.createPhysicalExpr filters = .ok () ∧
      ∃ entry ∈ (freshPruning calculateFileHash root filters).fileRowGroups.entries,
        plannedFile tree (.new root) (freshPruning calculateFileHash root filters).hashToPath
          entry = some file := by
  constructor
  · rintro ⟨plan, ok, member⟩
    refine ⟨accepts_of_planned ok member, ?_⟩
    rw [scan_files ok] at member
    exact List.mem_filterMap.mp member
  · rintro ⟨accepts, planned⟩
    obtain ⟨plan, ok⟩ := scan_returns_of_legible legible tree accepts
    refine ⟨plan, ok, ?_⟩
    rw [scan_files ok]
    exact List.mem_filterMap.mpr planned

/-- **What a scan plans for a hash is settled by the sub-directory of that hash.** -/
theorem planned_of_agree (legible : Legible calculateFileHash root)
    (legible' : Legible calculateFileHash root') {tree : FileTree}
    {entry : Sigma fun _ : Str => SortedSet Nat} {file : PartitionedFile}
    (agree : root'.lookup entry.1 = root.lookup entry.1)
    (member : entry ∈ (freshPruning calculateFileHash root filters).fileRowGroups.entries)
    (planned : plannedFile tree (.new root)
      (freshPruning calculateFileHash root filters).hashToPath entry = some file) :
    entry ∈ (freshPruning calculateFileHash root' filters).fileRowGroups.entries ∧
      plannedFile tree (.new root') (freshPruning calculateFileHash root' filters).hashToPath
        entry = some file := by
  have left := FiniteMap.mem_entries_iff.mp member
  have left' := (fileRowGroups_of_agree legible legible' agree).trans left
  refine ⟨FiniteMap.mem_entries_iff.mpr left', ?_⟩
  obtain ⟨path, mapped, recorded⟩ := path_of_pruned legible left
  obtain ⟨path', mapped', recorded'⟩ := path_of_pruned legible' left'
  have samePath : path' = path := by
    rw [IndexQueryEngine.new_fileMap, agree, ← IndexQueryEngine.new_fileMap, mapped] at mapped'
    exact (Option.some.inj mapped').symm
  obtain ⟨filePath, canonicalPath, totalRgs, lead, resolved, counted, rest⟩ :=
    plannedFile_eq_some_iff.mp planned
  have sameCount : (IndexQueryEngine.new root').numRowGroups entry.1 =
      (IndexQueryEngine.new root).numRowGroups entry.1 := by
    rw [IndexQueryEngine.new_numRowGroups, IndexQueryEngine.new_numRowGroups, agree]
  refine plannedFile_eq_some_iff.mpr ⟨filePath, canonicalPath, totalRgs, ?_, resolved, ?_, rest⟩
  · rw [recorded', samePath, ← recorded, lead]
  · rw [← counted, rowGroupCount, rowGroupCount, sameCount]

/-- A scan plans at least the same files over an index directory that has the same
sub-directory for every path that resolves. -/
theorem freshlyPlanned_subset (legible : Legible calculateFileHash root)
    (legible' : Legible calculateFileHash root') {session : Session} {tree : FileTree}
    (agree : ∀ fileHash path, (IndexQueryEngine.new root).fileMap.lookup fileHash = some path →
      tree.canonicalize path ≠ none → root'.lookup fileHash = root.lookup fileHash) :
    freshlyPlanned calculateFileHash session tree root filters ⊆
      freshlyPlanned calculateFileHash session tree root' filters := by
  intro file planned
  obtain ⟨accepts, entry, member, planned⟩ := (mem_freshlyPlanned legible).mp planned
  obtain ⟨path, mapped, recorded⟩ := path_of_pruned legible (FiniteMap.mem_entries_iff.mp member)
  obtain ⟨filePath, canonicalPath, -, lead, resolved, -⟩ := plannedFile_eq_some_iff.mp planned
  cases recorded.symm.trans lead
  have same := agree entry.1 path mapped (by rw [resolved]; exact Option.some_ne_none _)
  exact (mem_freshlyPlanned legible').mpr
    ⟨accepts, entry, planned_of_agree legible legible' same member planned⟩

end Agree

/-! ## Before and after -/

section Invisible

variable {calculateFileHash : Path → Str} {history : Path → Set FileTree.DataFile}
  {paths : Set Path} {allowed : World → Path → Column → Prop} {world : World}

/-- A pruning run leaves a sub-directory as it is, or removes it, and then the path
on record resolves to nothing. -/
theorem pruneOrphans_part (reached : Reached calculateFileHash history paths allowed world)
    (noFeed : ∀ path ∈ paths, ¬ '\n' ∈ path) (tree : FileTree) :
    ∃ root' prunedCount, pruneOrphans tree world.root = .ok (root', prunedCount) ∧
      ∀ fileHash, root'.lookup fileHash = world.root.lookup fileHash ∨
        root'.lookup fileHash = none ∧
          ∃ path, (IndexQueryEngine.new world.root).fileMap.lookup fileHash = some path ∧
            tree.resolve path = none := by
  have records := recordsPaths_of_reached reached
  let missing : Str → Bool := fun fileHash =>
    ((IndexQueryEngine.new world.root).fileMap.lookup fileHash).any fun path =>
      (tree.resolve path).isNone
  have answers : ∀ fileHash indexDir, world.root.lookup fileHash = some indexDir →
      isOrphan tree indexDir = .ok (missing fileHash) := by
    intro fileHash indexDir present
    obtain ⟨path, member, -, selected, _, _, _, written⟩ := records fileHash indexDir present
    have one := oneLine_of_hasParquetExtension selected (noFeed path member)
    rw [isOrphan_recorded one written]
    simp [missing, IndexQueryEngine.new_fileMap, present, IndexDir.mapEntry_recorded one written]
  obtain ⟨root', pruned, lookups⟩ := pruneOrphans_spec answers
  refine ⟨root', _, pruned, fun fileHash => ?_⟩
  rw [lookups fileHash]
  cases named : missing fileHash with
  | false => exact Or.inl (if_neg Bool.false_ne_true)
  | true =>
      obtain ⟨path, mapped, unresolved⟩ := (Option.any_eq_true _ _).mp named
      exact Or.inr ⟨if_pos rfl, path, mapped, Option.isNone_iff_eq_none.mp unresolved⟩

/-- **Pruning is invisible to queries**: a scan of a fresh provider plans the same
files, with the same row groups, after `prune_orphans` as before it. -/
theorem pruning_invisible (reached : Reached calculateFileHash history paths allowed world)
    (noFeed : ∀ path ∈ paths, ¬ '\n' ∈ path)
    (missing : ∀ path, world.tree.resolve path = none → world.tree.canonicalize path = none) :
    ∃ root' prunedCount, pruneOrphans world.tree world.root = .ok (root', prunedCount) ∧
      ∀ (session : Session) (filters : List Expr),
        freshlyPlanned calculateFileHash session world.tree root' filters =
            freshlyPlanned calculateFileHash session world.tree world.root filters ∧
          (session.createPhysicalExpr filters = .ok () → ∀ root ∈ [world.root, root'],
            ∃ plan, (scan calculateFileHash session world.tree root (.new root) filters).1 =
              .ok plan) := by
  have legible := legible_of_reached reached noFeed
  obtain ⟨root', prunedCount, pruned, part⟩ := pruneOrphans_part reached noFeed world.tree
  have legible' : Legible calculateFileHash root' := legible.of_part fun fileHash =>
    (part fileHash).imp_right And.left
  refine ⟨root', prunedCount, pruned, fun session filters => ⟨?_, fun accepts root member => ?_⟩⟩
  · refine Set.Subset.antisymm (freshlyPlanned_subset legible' legible ?_)
      (freshlyPlanned_subset legible legible' ?_)
    · -- A path on record after the run has a sub-directory, so that is as it was.
      intro fileHash path mapped _
      rcases part fileHash with agree | ⟨removed, -⟩
      · exact agree.symm
      · rw [IndexQueryEngine.new_fileMap, removed] at mapped
        cases mapped
    · -- A path on record before it that resolves is not removed.
      intro fileHash path mapped resolved
      rcases part fileHash with agree | ⟨-, path', mapped', unresolved⟩
      · exact agree
      · cases mapped.symm.trans mapped'
        exact absurd (missing path unresolved) resolved
  · rcases List.mem_pair.mp member with rfl | rfl
    · exact scan_returns_of_legible legible _ accepts
    · exact scan_returns_of_legible legible' _ accepts

end Invisible

/-! ## One file of two is gone -/

theorem reached_sharedRoot :
    Reached sampleHash (fun _ => Set.univ) {logsPath, trafficPath} (fun _ _ _ => True)
      ⟨singleTree trafficPath sampleFile, sharedRoot⟩ := by
  have start : Reached sampleHash (fun _ => Set.univ) {logsPath, trafficPath} (fun _ _ _ => True)
      ⟨twoDirectories, ∅⟩ := .start _ (known_of_univ _)
  have visitedLogs : ∀ path ∈ twoDirectories.parquetEntries "/logs".toList,
      path ∈ ({logsPath, trafficPath} : Set Path) := by
    have single : twoDirectories.parquetEntries "/logs".toList = [logsPath] := by decide
    rw [single]
    exact fun path member => Or.inl (List.mem_singleton.mp member)
  have visitedTraffic : ∀ path ∈ twoDirectories.parquetEntries "/traffic".toList,
      path ∈ ({logsPath, trafficPath} : Set Path) := by
    have single : twoDirectories.parquetEntries "/traffic".toList = [trafficPath] := by decide
    rw [single]
    exact fun path member => Or.inr (List.mem_singleton.mp member)
  have logs := start.build visitedLogs trivial build_logs
  have both := logs.build visitedTraffic trivial build_traffic
  exact both.change _ (known_of_univ _)

theorem pruning_invisible_sample :
    ∃ root' prunedCount,
      pruneOrphans (singleTree trafficPath sampleFile) sharedRoot = .ok (root', prunedCount) ∧
      ∀ (session : Session) (filters : List Expr),
        freshlyPlanned sampleHash session (singleTree trafficPath sampleFile) root' filters =
          freshlyPlanned sampleHash session (singleTree trafficPath sampleFile) sharedRoot
            filters := by
  have noFeed : ∀ path ∈ ({logsPath, trafficPath} : Set Path), ¬ '\n' ∈ path := by
    rintro path (rfl | rfl) <;> decide
  have missing : ∀ path, (singleTree trafficPath sampleFile).resolve path = none →
      (singleTree trafficPath sampleFile).canonicalize path = none := by
    intro path unresolved
    by_cases same : path = trafficPath
    · subst same
      exact absurd unresolved (by decide)
    · simp [singleTree, FileTree.ofSpellings, same]
  obtain ⟨root', prunedCount, pruned, invisible⟩ :=
    pruning_invisible reached_sharedRoot noFeed missing
  exact ⟨root', prunedCount, pruned, fun session filters => (invisible session filters).1⟩

end Pdq
