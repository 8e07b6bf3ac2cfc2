/- Pdq.Provider.AccessPlan -- the access plan a scan attaches to a matched file.

The length of the plan comes from the record of the last index run or from the
footer; the row groups come from an FST that may be older than either.  Where the
record is of the current version, or carries no count, the plan is one DataFusion
accepts, whatever the FST holds (`access_plan_valid`): the loop stays within
bounds, and what the current version no longer has is left out. -/
import Pdq.Index.Incremental
import Pdq.Provider.Scan

namespace Pdq

open Theory

set_option autoImplicit false

namespace ParquetAccessPlan

/-! ## Selecting within bounds -/

/-- `ParquetAccessPlan::scan`, which panics on an index outside the plan. -/
def scanChecked (plan : ParquetAccessPlan) (idx : Nat) : Option ParquetAccessPlan :=
  if idx < plan.length then some (plan.scan idx) else none

/-- The selection loop of `scan` with every call checked. -/
def ofRowGroupsChecked (totalRgs : Nat) (rowGroups : List Nat) : Option ParquetAccessPlan :=
  rowGroups.foldlM (fun plan rg => if rg < totalRgs then plan.scanChecked rg else some plan)
    (newNone totalRgs)

theorem foldlM_scanChecked {totalRgs : Nat} (l : List Nat) {plan : ParquetAccessPlan}
    (length : plan.length = totalRgs) :
    l.foldlM (fun plan rg => if rg < totalRgs then scanChecked plan rg else some plan) plan =
      some (l.foldl (fun plan rg => if rg < totalRgs then scan plan rg else plan) plan) := by
  induction l generalizing plan with
  | nil => rfl
  | cons rg l ih =>
      rw [List.foldlM_cons, List.foldl_cons]
      by_cases exists_ : rg < totalRgs
      · have kept : (plan.scan rg).length = totalRgs := by simp [scan, length]
        have inBounds : rg < plan.length := by omega
        rw [if_pos exists_, if_pos exists_, scanChecked, if_pos inBounds]
        exact ih kept
      · rw [if_neg exists_, if_neg exists_]
        exact ih length

/-- **No selection of the loop is out of bounds.** -/
theorem ofRowGroupsChecked_eq (totalRgs : Nat) (rowGroups : List Nat) :
    ofRowGroupsChecked totalRgs rowGroups = some (ofRowGroups totalRgs rowGroups) :=
  foldlM_scanChecked rowGroups (by rw [newNone, List.length_replicate])

theorem rowGroupIndexes_eq_filter (totalRgs : Nat) (rowGroups : SortedSet Nat) :
    rowGroupIndexes (ofRowGroups totalRgs rowGroups.toList) =
      rowGroups.toList.filter fun g => decide (g < totalRgs) := by
  rw [rowGroupIndexes_ofRowGroups]
  have increasing : ((List.range totalRgs).filter fun g =>
      decide (g ∈ rowGroups.toList)).SortedLT :=
    (List.pairwise_lt_range.filter _).sortedLT
  refine increasing.eq_of_mem_iff (rowGroups.sorted.pairwise.filter _).sortedLT fun g => ?_
  simp only [List.mem_filter, List.mem_range, decide_eq_true_eq]
  exact and_comm

end ParquetAccessPlan

/-! ## The record of the last index run -/

/-- metadata.txt records the path and either the row-group count of this version of
the file, as an index run writes it, or none, as before counts were recorded. -/
def RecordsVersion (contents : Str) (filePath : Path) (file : ParquetFile) : Prop :=
  originalPath contents = some filePath ∧
    ((∃ mtime size, contents = metadataContent filePath mtime size file.numRowGroups) ∨
      (lines contents).length < 4)

/-- A first line is split off whatever it ends in. -/
theorem exists_lines_append_newline {s : Str} (noFeed : ¬ '\n' ∈ s) (rest : Str) :
    ∃ line, lines (s ++ '\n' :: rest) = line :: lines rest := by
  induction s with
  | nil => exact ⟨[], by simp [lines]⟩
  | cons c s ih =>
      rw [List.mem_cons, not_or] at noFeed
      obtain ⟨line, split⟩ := ih noFeed.2
      simp only [List.cons_append, lines, if_neg (Ne.symm noFeed.1), split]
      split_ifs <;> exact ⟨_, rfl⟩

/-- What the file map takes from such a record. -/
theorem fileMapEntry_of_recordsVersion {contents : Str} {filePath : Path} {file : ParquetFile}
    (records : RecordsVersion contents filePath file) :
    (∃ path, fileMapEntry contents = some (path, some file.numRowGroups)) ∨
      ∃ path, fileMapEntry contents = some (path, none) := by
  obtain ⟨first, ⟨mtime, size, rfl⟩ | short⟩ := records
  · have noFeed : ¬ '\n' ∈ filePath := fun broken => originalPath_ne broken _ first
    obtain ⟨path, split⟩ := exists_lines_append_newline noFeed
      (decimal mtime.toNat ++ '\n' :: (decimal size.toNat ++
        '\n' :: (decimal file.numRowGroups ++ ['\n'])))
    refine Or.inl ⟨path, ?_⟩
    simp [fileMapEntry, metadataContent, split, lines_decimal,
      parseUnsigned_decimal (n := file.numRowGroups) file.fits]
  · refine Or.inr ⟨filePath, ?_⟩
    unfold originalPath at first
    unfold fileMapEntry
    cases whole : lines contents with
    | nil =>
        rw [whole] at first
        cases first
    | cons path rest =>
        rw [whole] at first short
        cases first
        rw [List.length_cons] at short
        have noCount : rest[2]? = none := List.getElem?_eq_none (by omega)
        simp [noCount]

section Plan

variable {calculateFileHash : Path → Str} {tree : FileTree}
  {root built : IndexRoot} {engine : IndexQueryEngine} {filters : List Expr} {fileHash : Str}
  {filePath canonicalPath : Path} {node : FileNode} {content : ParquetFile}

/-- The total a scan plans with is that of the current version. -/
theorem rowGroupCount_of_recordsVersion
    (counts : engine.rowGroupCounts = (IndexQueryEngine.new built).rowGroupCounts)
    {indexDir : IndexDir} (present : built.lookup fileHash = some indexDir) {contents : Str}
    (written : indexDir.metadata = some (.text contents))
    (records : RecordsVersion contents filePath content)
    (resolved : tree.resolve canonicalPath = some node)
    (readable : node.parquet = some content) :
    rowGroupCount tree engine fileHash canonicalPath = .ok content.numRowGroups := by
  have known : engine.numRowGroups fileHash = (indexDir.mapEntry fileHash).2 := by
    have fresh := IndexQueryEngine.new_numRowGroups built fileHash
    rw [present, Option.bind_some] at fresh
    rw [← fresh, IndexQueryEngine.numRowGroups, IndexQueryEngine.numRowGroups, counts]
  unfold rowGroupCount
  rcases fileMapEntry_of_recordsVersion records with ⟨path, entry⟩ | ⟨path, entry⟩
  · rw [known, IndexDir.mapEntry, written]
    simp [entry]
  · have opened : tree.openParquet canonicalPath = .ok content := by
      simp [FileTree.openParquet, resolved, readable]
    rw [known, IndexDir.mapEntry, written]
    simp [entry, opened]

/-- **The plan of a matched file is valid**: one entry for each row group of the
current version, every selection in bounds, the pruned row groups that still exist
selected, and the file left out only when there are none. -/
theorem access_plan_valid
    (counts : engine.rowGroupCounts = (IndexQueryEngine.new built).rowGroupCounts)
    {rowGroups : SortedSet Nat}
    (left : (pruneWithFstIndex calculateFileHash root engine filters).1.fileRowGroups.lookup
      fileHash = some rowGroups)
    (named : (pruneWithFstIndex calculateFileHash root engine filters).1.hashToPath.lookup
      fileHash = some filePath)
    {indexDir : IndexDir} (present : built.lookup fileHash = some indexDir) {contents : Str}
    (written : indexDir.metadata = some (.text contents))
    (records : RecordsVersion contents filePath content)
    (exists_ : tree.canonicalize filePath = some canonicalPath)
    (resolved : tree.resolve canonicalPath = some node)
    (readable : node.parquet = some content)
    (accepted : tree.objectStoreAccepts canonicalPath = true) :
    ∃ accessPlan,
      ParquetAccessPlan.ofRowGroupsChecked content.numRowGroups rowGroups.toList =
          some accessPlan ∧
        accessPlan.length = content.numRowGroups ∧
        accessPlan.rowGroupIndexes =
          rowGroups.toList.filter (fun g => decide (g < content.numRowGroups)) ∧
        planFile tree engine (pruneWithFstIndex calculateFileHash root engine filters).1.hashToPath
            fileHash rowGroups =
          .ok (if accessPlan.rowGroupIndexes = [] then none
            else some ⟨canonicalPath, node.len, accessPlan⟩) ∧
        ⟨fileHash, rowGroups⟩ ∈
          (pruneWithFstIndex calculateFileHash root engine filters).1.fileRowGroups.entries ∧
        ∀ session plan, (scan calculateFileHash session tree root engine filters).1 = .ok plan →
          plan.files =
            (pruneWithFstIndex calculateFileHash root engine filters).1.fileRowGroups.entries.filterMap
              (plannedFile tree engine
                (pruneWithFstIndex calculateFileHash root engine filters).1.hashToPath) := by
  have counted := rowGroupCount_of_recordsVersion counts present written records resolved readable
  have planned : planFile tree engine
      (pruneWithFstIndex calculateFileHash root engine filters).1.hashToPath fileHash rowGroups =
      .ok (if (ParquetAccessPlan.ofRowGroups content.numRowGroups
          rowGroups.toList).rowGroupIndexes = [] then none
        else some ⟨canonicalPath, node.len,
          ParquetAccessPlan.ofRowGroups content.numRowGroups rowGroups.toList⟩) := by
    cases empty : rowGroups.isEmpty with
    | true =>
        have nothing : rowGroups.toList = [] := List.isEmpty_iff.mp empty
        rw [ParquetAccessPlan.rowGroupIndexes_eq_filter]
        simp [planFile, empty, nothing]
    | false =>
        simp only [planFile, empty, named, exists_, counted, bind, Except.bind, pure, Except.pure,
          resolved, accepted, List.isEmpty_iff]
        split_ifs <;> simp_all
  refine ⟨_, ParquetAccessPlan.ofRowGroupsChecked_eq _ _, ParquetAccessPlan.length_ofRowGroups _ _,
    ParquetAccessPlan.rowGroupIndexes_eq_filter _ _, planned, FiniteMap.mem_entries_iff.mpr left,
    fun session plan ok => scan_files ok⟩

end Plan

/-! ## A file that has lost a row group -/

def longerFile : FileTree.DataFile where
  mtime := 1600000000
  size := 2048
  content := .ofStrings sampleColumn [["alice".toList], ["alice".toList]] (by decide)

/-- Indexed by name while it had two row groups, and by city since. -/
def shrunkRoot : IndexRoot :=
  (singleRoot samplePath longerFile sampleColumn).indexed samplePath sampleFile cityColumn

theorem access_plan_valid_sample :
    ∃ accessPlan,
      ParquetAccessPlan.ofRowGroupsChecked 1 [0, 1] = some accessPlan ∧
        accessPlan.length = 1 ∧ accessPlan.rowGroupIndexes = [0] ∧
        ∃ plan, (scan sampleHash ⟨fun _ => .ok ()⟩ (singleTree samplePath sampleFile) shrunkRoot
            (.new shrunkRoot) [nameIs "alice".toList]).1 = .ok plan ∧
          plan.files = [⟨samplePath, 1024, accessPlan⟩] := by
  have left : (pruneWithFstIndex sampleHash shrunkRoot (.new shrunkRoot)
      [nameIs "alice".toList]).1.fileRowGroups.lookup (sampleHash samplePath) =
        some (SortedSet.ofList [0, 1]) := by decide
  have named : (pruneWithFstIndex sampleHash shrunkRoot (.new shrunkRoot)
      [nameIs "alice".toList]).1.hashToPath.lookup (sampleHash samplePath) = some samplePath := by
    decide
  have resolved : (singleTree samplePath sampleFile).resolve samplePath =
      some ⟨some sampleFile.mtime, sampleFile.size, some sampleFile.content⟩ := rfl
  obtain ⟨accessPlan, checked, length, indexes, -, -, files⟩ :=
    access_plan_valid rfl left named (AList.lookup_insert _) rfl ⟨by decide, Or.inl ⟨_, _, rfl⟩⟩
      rfl resolved rfl rfl
  have returned : (scan sampleHash ⟨fun _ => .ok ()⟩ (singleTree samplePath sampleFile) shrunkRoot
      (.new shrunkRoot) [nameIs "alice".toList]).1 = .ok _ := rfl
  obtain rfl : ParquetAccessPlan.ofRowGroups 1 [0, 1] = accessPlan :=
    Option.some.inj ((ParquetAccessPlan.ofRowGroupsChecked_eq 1 [0, 1]).symm.trans checked)
  exact ⟨_, checked, length, indexes, _, returned, by decide⟩

end Pdq
