/- Pdq.Provider.Scan -- the table provider's scan.

`pruneWithFstIndex` asks the index about every equality among the filters and
meets the answers per file; `scan` turns what is left into one access plan per
file.  The projection and the limit are handed on unread and are left out.
`pruned_meets` says what the pruning loop leaves, from the matches of the filters
one by one; `scan_files` says what a plan holds, from what the loop left. -/
import Pdq.Query.Engine
import Pdq.Provider.Expr

namespace Pdq

open Theory

set_option autoImplicit false

/-! ## Pruning -/

/-- Row groups to read per file hash, and the path each hash came from. -/
structure Pruned where
  fileRowGroups : FiniteMap Str (SortedSet Nat)
  hashToPath : FiniteMap Str Path

section Prune

variable (calculateFileHash : Path → Str)

/-- Meet one match of a search with what earlier filters left. -/
def recordMatch (pruned : Pruned) (fileMatch : FileMatches) : Pruned :=
  let fileHash := calculateFileHash fileMatch.filePath
  { fileRowGroups := FiniteMap.insertOrIntersect pruned.fileRowGroups fileHash
      (SortedSet.ofList fileMatch.rowGroups)
    hashToPath := pruned.hashToPath.insert fileHash fileMatch.filePath }

/-- The loop body of `prune_with_fst_index`; a failed search is passed over. -/
def pruneFilter (root : IndexRoot) (state : Pruned × IndexQueryEngine) (filter : Expr) :
    Pruned × IndexQueryEngine :=
  match extractEqualityFilter filter with
  | none => state
  | some (column, value) =>
      match state.2.exactSearch root column value with
      | (.ok results, engine) => (results.foldl (recordMatch calculateFileHash) state.1, engine)
      | (.error _, engine) => (state.1, engine)

/-- `PdqTableProvider::prune_with_fst_index` -/
def pruneWithFstIndex (root : IndexRoot) (engine : IndexQueryEngine) (filters : List Expr) :
    Pruned × IndexQueryEngine :=
  filters.foldl (pruneFilter calculateFileHash root) (⟨∅, ∅⟩, engine)

end Prune

/-! ## Access plans -/

inductive RowGroupAccess where
  | skip
  | scan
  deriving DecidableEq, Repr

/-- How each row group of one file is read. -/
abbrev ParquetAccessPlan := List RowGroupAccess

namespace ParquetAccessPlan

def newNone (rowGroupCount : Nat) : ParquetAccessPlan := List.replicate rowGroupCount .skip

def scan (plan : ParquetAccessPlan) (idx : Nat) : ParquetAccessPlan := plan.set idx .scan

def rowGroupIndexes (plan : ParquetAccessPlan) : List Nat :=
  (List.range plan.length).filter fun i => decide (plan[i]? = some .scan)

/-- The plan of `totalRgs` row groups that reads those listed, as far as they
exist. -/
def ofRowGroups (totalRgs : Nat) (rowGroups : List Nat) : ParquetAccessPlan :=
  rowGroups.foldl (fun plan rg => if rg < totalRgs then plan.scan rg else plan) (newNone totalRgs)

end ParquetAccessPlan

/-- A file of a scan. -/
structure PartitionedFile where
  /-- The canonical path, which the object-store path spells. -/
  path : Path
  size : UInt64
  accessPlan : ParquetAccessPlan
  deriving DecidableEq, Repr

/-- The data source of a scan: the predicate its reader filters by, and its
files. -/
structure ScanPlan where
  predicate : List Expr
  files : List PartitionedFile
  deriving DecidableEq, Repr

/-- The plan that reads nothing, which `scan` returns for an empty pruning. -/
def ScanPlan.empty : ScanPlan := ⟨[], []⟩

inductive PlanError where
  /-- DataFusion does not plan the filters over the table's schema. -/
  | predicate
  | openFailed (path : Path)
  | footer (path : Path)
  deriving DecidableEq, Repr

/-- What `scan` asks of DataFusion before it looks at a file: a physical
predicate over the schema, and the object store. -/
structure Session where
  createPhysicalExpr : List Expr → Except PlanError Unit

/-- `PdqTableProvider::row_group_count` -/
def rowGroupCount (tree : FileTree) (engine : IndexQueryEngine) (fileHash : Str)
    (filePath : Path) : Except PlanError Nat :=
  match engine.numRowGroups fileHash with
  | some count => .ok count
  | none =>
      match tree.openParquet filePath with
      | .ok file => .ok file.numRowGroups
      | .error (.notParquet path) => .error (.footer path)
      | .error _ => .error (.openFailed filePath)

/-- The loop body of `scan`: the plan of one pruned file, when it has one. -/
def planFile (tree : FileTree) (engine : IndexQueryEngine) (hashToPath : FiniteMap Str Path)
    (fileHash : Str) (rowGroups : SortedSet Nat) : Except PlanError (Option PartitionedFile) :=
  if rowGroups.isEmpty then .ok none
  else
    match hashToPath.lookup fileHash with
    | none => .ok none
    | some filePath =>
        match tree.canonicalize filePath with
        | none => .ok none
        | some canonicalPath => do
            let fileSize := ((tree.resolve canonicalPath).map FileNode.len).getD 0
            let totalRgs ← rowGroupCount tree engine fileHash canonicalPath
            let accessPlan := ParquetAccessPlan.ofRowGroups totalRgs rowGroups.toList
            if accessPlan.rowGroupIndexes.isEmpty then return none
            else if tree.objectStoreAccepts canonicalPath then
              return some ⟨canonicalPath, fileSize, accessPlan⟩
            else return none

def planFiles (tree : FileTree) (engine : IndexQueryEngine) (hashToPath : FiniteMap Str Path) :
    List (Sigma fun _ : Str => SortedSet Nat) → Except PlanError (List PartitionedFile)
  | [] => .ok []
  | entry :: rest => do
      let file ← planFile tree engine hashToPath entry.1 entry.2
      let later ← planFiles tree engine hashToPath rest
      return file.toList ++ later

/-- `PdqTableProvider::scan` -/
def scan (calculateFileHash : Path → Str) (session : Session) (tree : FileTree) (root : IndexRoot)
    (engine : IndexQueryEngine) (filters : List Expr) :
    Except PlanError ScanPlan × IndexQueryEngine :=
  let (pruned, engine) := pruneWithFstIndex calculateFileHash root engine filters
  let plan := do
    if pruned.fileRowGroups.entries.isEmpty then return ScanPlan.empty
    else
      session.createPhysicalExpr filters
      let files ← planFiles tree engine pruned.hashToPath pruned.fileRowGroups.entries
      return ⟨filters, files⟩
  (plan, engine)

/-! ## What the pruning loop leaves -/

section PruneSpecification

variable {calculateFileHash : Path → Str} {root : IndexRoot}

/-- The matches one filter contributes. -/
def filterMatches (root : IndexRoot) (engine : IndexQueryEngine) (filter : Expr) :
    List FileMatches :=
  match extractEqualityFilter filter with
  | none => []
  | some (column, value) =>
      match (engine.exactSearch root column value).1 with
      | .ok results => results
      | .error _ => []

/-- **The matches of a filter**: it is an equality, its search returns, and the
files match whose FST answers with some row group. -/
theorem mem_filterMatches_iff {engine : IndexQueryEngine} {filter : Expr}
    {fileMatch : FileMatches} :
    fileMatch ∈ filterMatches root engine filter ↔
      ∃ column value, extractEqualityFilter filter = some (column, value) ∧
        (∃ results, (engine.exactSearch root column value).1 = .ok results) ∧
        ∃ fileHash, engine.fileMap.lookup fileHash = some fileMatch.filePath ∧
          engine.fileAnswer root column (fun set => searchSet set value) fileHash =
            .ok fileMatch.rowGroups ∧ fileMatch.rowGroups ≠ [] := by
  unfold filterMatches
  constructor
  · intro member
    split at member
    · cases member
    · rename_i column value extracted
      split at member
      · rename_i results searched
        exact ⟨column, value, extracted, ⟨results, searched⟩,
          (IndexQueryEngine.mem_exactSearch searched fileMatch).mp member⟩
      · cases member
  · rintro ⟨column, value, extracted, ⟨results, searched⟩, answered⟩
    simp only [extracted, searched]
    exact (IndexQueryEngine.mem_exactSearch searched fileMatch).mpr answered

theorem filterMatches_of_loads {before after : IndexQueryEngine}
    (loads : IndexQueryEngine.Loads root before after) (filter : Expr) :
    filterMatches root after filter = filterMatches root before filter := by
  unfold filterMatches
  split
  · rfl
  · rw [loads.exactSearch]

/-- One filter: its matches are recorded, and the engine only loads. -/
theorem pruneFilter_spec (calculateFileHash : Path → Str) (root : IndexRoot)
    (state : Pruned × IndexQueryEngine) (filter : Expr) :
    (pruneFilter calculateFileHash root state filter).1 =
        (filterMatches root state.2 filter).foldl (recordMatch calculateFileHash) state.1 ∧
      IndexQueryEngine.Loads root state.2 (pruneFilter calculateFileHash root state filter).2 := by
  unfold pruneFilter filterMatches
  cases extractEqualityFilter filter with
  | none => exact ⟨rfl, .refl root state.2⟩
  | some equality =>
      have loads := IndexQueryEngine.exactSearch_loads root state.2 equality.1 equality.2
      simp only
      split
      · rename_i results engine searched
        rw [searched] at loads ⊢
        exact ⟨rfl, loads⟩
      · rename_i e engine searched
        rw [searched] at loads ⊢
        exact ⟨rfl, loads⟩

/-- **The pruning loop records the matches of all filters, in order.** -/
theorem pruneWithFstIndex_spec (calculateFileHash : Path → Str) (root : IndexRoot)
    (engine : IndexQueryEngine) (filters : List Expr) :
    (pruneWithFstIndex calculateFileHash root engine filters).1 =
        (filters.flatMap (filterMatches root engine)).foldl (recordMatch calculateFileHash)
          ⟨∅, ∅⟩ ∧
      IndexQueryEngine.Loads root engine
        (pruneWithFstIndex calculateFileHash root engine filters).2 := by
  have loop : ∀ (l : List Expr) (state : Pruned × IndexQueryEngine),
      IndexQueryEngine.Loads root engine state.2 →
      (l.foldl (pruneFilter calculateFileHash root) state).1 =
          (l.flatMap (filterMatches root engine)).foldl (recordMatch calculateFileHash) state.1 ∧
        IndexQueryEngine.Loads root engine
          (l.foldl (pruneFilter calculateFileHash root) state).2 := by
    intro l
    induction l with
    | nil => exact fun state loads => ⟨rfl, loads⟩
    | cons filter l ih =>
        intro state loads
        obtain ⟨recorded, further⟩ := pruneFilter_spec calculateFileHash root state filter
        obtain ⟨left, loaded⟩ := ih _ (loads.trans further)
        refine ⟨?_, loaded⟩
        rw [List.foldl_cons, left, recorded, filterMatches_of_loads loads, List.flatMap_cons,
          List.foldl_append]
  exact loop filters (⟨∅, ∅⟩, engine) (.refl root engine)

theorem foldl_recordMatch (fileMatches : List FileMatches) (pruned : Pruned) :
    (fileMatches.foldl (recordMatch calculateFileHash) pruned).fileRowGroups =
      FiniteMap.intersectAll pruned.fileRowGroups (fileMatches.map fun fileMatch =>
        (calculateFileHash fileMatch.filePath, SortedSet.ofList fileMatch.rowGroups)) := by
  induction fileMatches generalizing pruned with
  | nil => rfl
  | cons fileMatch rest ih =>
      rw [List.foldl_cons, ih]
      rfl

/-- A path the loop has recorded is that of a match with that hash. -/
theorem hashToPath_of_foldl (fileMatches : List FileMatches) {pruned : Pruned} {fileHash : Str}
    {path : Path}
    (found : (fileMatches.foldl (recordMatch calculateFileHash) pruned).hashToPath.lookup
      fileHash = some path) :
    pruned.hashToPath.lookup fileHash = some path ∨
      calculateFileHash path = fileHash ∧ ∃ fileMatch ∈ fileMatches, fileMatch.filePath = path := by
  induction fileMatches generalizing pruned with
  | nil => exact Or.inl found
  | cons fileMatch rest ih =>
      rcases ih found with earlier | ⟨named, later, member, same⟩
      · by_cases here : fileHash = calculateFileHash fileMatch.filePath
        · subst here
          simp only [recordMatch, AList.lookup_insert, Option.some.injEq] at earlier
          subst earlier
          exact Or.inr ⟨rfl, fileMatch, List.mem_cons_self, rfl⟩
        · simp only [recordMatch, AList.lookup_insert_ne here] at earlier
          exact Or.inl earlier
      · exact Or.inr ⟨named, later, List.mem_cons_of_mem _ member, same⟩

/-- Every match leaves a path for its hash. -/
theorem hashToPath_isSome (fileMatches : List FileMatches) {pruned : Pruned} {fileHash : Str}
    (named : (pruned.hashToPath.lookup fileHash).isSome = true ∨
      ∃ fileMatch ∈ fileMatches, calculateFileHash fileMatch.filePath = fileHash) :
    ((fileMatches.foldl (recordMatch calculateFileHash) pruned).hashToPath.lookup
      fileHash).isSome = true := by
  induction fileMatches generalizing pruned with
  | nil => simpa using named
  | cons fileMatch rest ih =>
      refine ih ?_
      by_cases here : fileHash = calculateFileHash fileMatch.filePath
      · subst here
        exact Or.inl (by simp [recordMatch])
      · rcases named with earlier | ⟨later, member, same⟩
        · exact Or.inl (by simpa [recordMatch, AList.lookup_insert_ne here] using earlier)
        · rcases List.mem_cons.mp member with rfl | member
          · exact absurd same.symm here
          · exact Or.inr ⟨later, member, same⟩

/-- What the pruning leaves under a hash, from the matches of all filters. -/
theorem pruned_meets (engine : IndexQueryEngine) (filters : List Expr) (fileHash : Str) :
    FiniteMap.Meets
      ((filters.flatMap (filterMatches root engine)).map fun fileMatch =>
        (calculateFileHash fileMatch.filePath, SortedSet.ofList fileMatch.rowGroups))
      fileHash
      ((pruneWithFstIndex calculateFileHash root engine filters).1.fileRowGroups.lookup
        fileHash) := by
  rw [(pruneWithFstIndex_spec calculateFileHash root engine filters).1, foldl_recordMatch]
  exact FiniteMap.lookup_intersectAll _ fileHash

theorem pruned_hashToPath {engine : IndexQueryEngine} {filters : List Expr} {fileHash : Str}
    {path : Path}
    (found : (pruneWithFstIndex calculateFileHash root engine filters).1.hashToPath.lookup
      fileHash = some path) :
    calculateFileHash path = fileHash ∧
      ∃ fileMatch ∈ filters.flatMap (filterMatches root engine), fileMatch.filePath = path := by
  rw [(pruneWithFstIndex_spec calculateFileHash root engine filters).1] at found
  rcases hashToPath_of_foldl _ found with earlier | recorded
  · simp at earlier
  · exact recorded

/-- A row group is left under a hash that some match names, when every match that
names it has the row group. -/
theorem pruned_mem {engine : IndexQueryEngine} {filters : List Expr} {fileHash : Str} {g : Nat}
    (named : ∃ filter ∈ filters, ∃ fileMatch ∈ filterMatches root engine filter,
      calculateFileHash fileMatch.filePath = fileHash)
    (all : ∀ filter ∈ filters, ∀ fileMatch ∈ filterMatches root engine filter,
      calculateFileHash fileMatch.filePath = fileHash → g ∈ fileMatch.rowGroups) :
    ∃ rowGroups, (pruneWithFstIndex calculateFileHash root engine filters).1.fileRowGroups.lookup
      fileHash = some rowGroups ∧ g ∈ rowGroups := by
  have meets : FiniteMap.Meets _ fileHash
      ((pruneWithFstIndex calculateFileHash root engine filters).1.fileRowGroups.lookup fileHash) :=
    pruned_meets engine filters fileHash
  apply (meets.mem_iff g).mpr
  constructor
  · obtain ⟨filter, member, fileMatch, inMatches, same⟩ := named
    exact ⟨_, List.mem_map.mpr
      ⟨fileMatch, List.mem_flatMap.mpr ⟨filter, member, inMatches⟩, rfl⟩, same⟩
  · intro answer inAnswers same
    obtain ⟨fileMatch, matched, rfl⟩ := List.mem_map.mp inAnswers
    obtain ⟨filter, member, inMatches⟩ := List.mem_flatMap.mp matched
    exact SortedSet.mem_ofList.mpr (all filter member fileMatch inMatches same)

/-- A row group that is left under a hash is in every match that names it. -/
theorem mem_match_of_pruned {engine : IndexQueryEngine} {filters : List Expr} {fileHash : Str}
    {rowGroups : SortedSet Nat}
    (left : (pruneWithFstIndex calculateFileHash root engine filters).1.fileRowGroups.lookup
      fileHash = some rowGroups) {g : Nat} (kept : g ∈ rowGroups) {filter : Expr}
    (member : filter ∈ filters) {fileMatch : FileMatches}
    (inMatches : fileMatch ∈ filterMatches root engine filter)
    (same : calculateFileHash fileMatch.filePath = fileHash) : g ∈ fileMatch.rowGroups := by
  have meets : FiniteMap.Meets _ fileHash
      ((pruneWithFstIndex calculateFileHash root engine filters).1.fileRowGroups.lookup fileHash) :=
    pruned_meets engine filters fileHash
  rw [left] at meets
  have inAnswers := List.mem_flatMap.mpr ⟨filter, member, inMatches⟩
  exact SortedSet.mem_ofList.mp
    ((meets.2 g).mp kept _ (List.mem_map.mpr ⟨fileMatch, inAnswers, rfl⟩) same)

/-- The file map is keyed by the hashes of its paths. -/
def NamesPaths (calculateFileHash : Path → Str) (engine : IndexQueryEngine) : Prop :=
  ∀ fileHash path, engine.fileMap.lookup fileHash = some path → calculateFileHash path = fileHash

/-- What is left under a hash comes from the file map's file of that hash: its
path is on record, and its row groups are among those of one lookup. -/
theorem pruned_sound {engine : IndexQueryEngine} {filters : List Expr}
    (names : NamesPaths calculateFileHash engine) {fileHash : Str} {rowGroups : SortedSet Nat}
    (left : (pruneWithFstIndex calculateFileHash root engine filters).1.fileRowGroups.lookup
      fileHash = some rowGroups) :
    (∃ path, engine.fileMap.lookup fileHash = some path ∧
      (pruneWithFstIndex calculateFileHash root engine filters).1.hashToPath.lookup fileHash =
        some path) ∧
    ∃ column value answer,
      engine.fileAnswer root column (fun set => searchSet set value) fileHash = .ok answer ∧
        ∀ g ∈ rowGroups, g ∈ answer := by
  have meets : FiniteMap.Meets _ fileHash
      ((pruneWithFstIndex calculateFileHash root engine filters).1.fileRowGroups.lookup fileHash) :=
    pruned_meets engine filters fileHash
  rw [left] at meets
  obtain ⟨⟨_, inAnswers, same⟩, allowed⟩ := meets
  obtain ⟨fileMatch, matched, rfl⟩ := List.mem_map.mp inAnswers
  obtain ⟨filter, -, inMatches⟩ := List.mem_flatMap.mp matched
  obtain ⟨column, value, -, -, fileHash', mapped, answered, -⟩ :=
    mem_filterMatches_iff.mp inMatches
  have key : fileHash' = fileHash := (names fileHash' _ mapped).symm.trans same
  subst key
  refine ⟨⟨fileMatch.filePath, mapped, ?_⟩, column, value, fileMatch.rowGroups, answered,
    fun g member => SortedSet.mem_ofList.mp ((allowed g).mp member _ inAnswers same)⟩
  -- The path on record is that of some match of this hash, and the file map has one.
  have recorded : ((pruneWithFstIndex calculateFileHash root engine
      filters).1.hashToPath.lookup fileHash').isSome = true := by
    rw [(pruneWithFstIndex_spec calculateFileHash root engine filters).1]
    exact hashToPath_isSome _ (Or.inr ⟨fileMatch, matched, same⟩)
  obtain ⟨path, found⟩ := Option.isSome_iff_exists.mp recorded
  obtain ⟨named, other, otherMatched, rfl⟩ := pruned_hashToPath found
  obtain ⟨otherFilter, -, inOther⟩ := List.mem_flatMap.mp otherMatched
  obtain ⟨-, -, -, -, otherHash, otherMapped, -⟩ := mem_filterMatches_iff.mp inOther
  have otherKey : otherHash = fileHash' := (names otherHash _ otherMapped).symm.trans named
  rw [otherKey, mapped] at otherMapped
  rw [found, Option.some.inj otherMapped]

/-- When no filter has a match, nothing is left. -/
theorem pruned_of_no_match {engine : IndexQueryEngine} {filters : List Expr}
    (none : ∀ filter ∈ filters, filterMatches root engine filter = []) :
    (pruneWithFstIndex calculateFileHash root engine filters).1 = ⟨∅, ∅⟩ := by
  rw [(pruneWithFstIndex_spec calculateFileHash root engine filters).1,
    List.flatMap_eq_nil_iff.mpr none]
  rfl

end PruneSpecification

/-! ## What a plan holds -/

namespace ParquetAccessPlan

theorem length_foldl_scan (totalRgs : Nat) (l : List Nat) (plan : ParquetAccessPlan) :
    (l.foldl (fun plan rg => if rg < totalRgs then scan plan rg else plan) plan).length =
      plan.length := by
  induction l generalizing plan with
  | nil => rfl
  | cons rg l ih =>
      rw [List.foldl_cons, ih]
      split <;> simp [scan]

theorem getElem?_foldl_scan {totalRgs : Nat} {plan : ParquetAccessPlan} {g : Nat}
    (length : plan.length = totalRgs) (l : List Nat) :
    (l.foldl (fun plan rg => if rg < totalRgs then scan plan rg else plan) plan)[g]? =
        some .scan ↔
      plan[g]? = some .scan ∨ g < totalRgs ∧ g ∈ l := by
  induction l generalizing plan with
  | nil => simp
  | cons rg l ih =>
      rw [List.foldl_cons]
      by_cases exists_ : rg < totalRgs
      · rw [if_pos exists_, ih (by simp [scan, length])]
        by_cases same : rg = g
        · subst same
          simp [scan, length, exists_]
        · simp [scan, List.getElem?_set_ne same, Ne.symm same]
      · rw [if_neg exists_, ih length]
        have other : g < totalRgs → g ≠ rg := by
          rintro below rfl
          exact exists_ below
        simp only [List.mem_cons]
        constructor
        · rintro (selected | ⟨below, member⟩)
          · exact Or.inl selected
          · exact Or.inr ⟨below, Or.inr member⟩
        · rintro (selected | ⟨below, rfl | member⟩)
          · exact Or.inl selected
          · exact absurd rfl (other below)
          · exact Or.inr ⟨below, member⟩

theorem length_ofRowGroups (totalRgs : Nat) (rowGroups : List Nat) :
    (ofRowGroups totalRgs rowGroups).length = totalRgs := by
  rw [ofRowGroups, length_foldl_scan, newNone, List.length_replicate]

/-- **A plan reads the row groups listed that exist**, in increasing order. -/
theorem rowGroupIndexes_ofRowGroups (totalRgs : Nat) (rowGroups : List Nat) :
    rowGroupIndexes (ofRowGroups totalRgs rowGroups) =
      (List.range totalRgs).filter fun g => decide (g ∈ rowGroups) := by
  rw [rowGroupIndexes, length_ofRowGroups]
  refine List.filter_congr fun g member => ?_
  have below := List.mem_range.mp member
  rw [decide_eq_decide, ofRowGroups,
    getElem?_foldl_scan (by rw [newNone, List.length_replicate]) rowGroups]
  simp [newNone, below]

/-- When all row groups listed exist, the plan reads exactly those. -/
theorem rowGroupIndexes_of_lt {totalRgs : Nat} {rowGroups : SortedSet Nat}
    (exist : ∀ g ∈ rowGroups, g < totalRgs) :
    rowGroupIndexes (ofRowGroups totalRgs rowGroups.toList) = rowGroups.toList := by
  rw [rowGroupIndexes_ofRowGroups]
  have increasing : ((List.range totalRgs).filter fun g =>
      decide (g ∈ rowGroups.toList)).SortedLT :=
    (List.pairwise_lt_range.filter _).sortedLT
  refine increasing.eq_of_mem_iff rowGroups.sorted fun g => ?_
  rw [List.mem_filter, List.mem_range, decide_eq_true_eq]
  exact ⟨And.right, fun member => ⟨exist g member, member⟩⟩

end ParquetAccessPlan

section PlanSpecification

variable {tree : FileTree} {engine : IndexQueryEngine} {hashToPath : FiniteMap Str Path}

/-- The file an entry adds to the plan. -/
def plannedFile (tree : FileTree) (engine : IndexQueryEngine) (hashToPath : FiniteMap Str Path)
    (entry : Sigma fun _ : Str => SortedSet Nat) : Option PartitionedFile :=
  match planFile tree engine hashToPath entry.1 entry.2 with
  | .ok file => file
  | .error _ => none

/-- The files of a plan are those its entries add. -/
theorem planFiles_eq {entries : List (Sigma fun _ : Str => SortedSet Nat)}
    {files : List PartitionedFile} (ok : planFiles tree engine hashToPath entries = .ok files) :
    files = entries.filterMap (plannedFile tree engine hashToPath) := by
  induction entries generalizing files with
  | nil =>
      cases ok
      rfl
  | cons entry rest ih =>
      obtain ⟨file, here, ok⟩ := bind_eq_ok_iff.mp ok
      obtain ⟨later, others, ok⟩ := bind_eq_ok_iff.mp ok
      cases ok
      have planned : plannedFile tree engine hashToPath entry = file := by
        simp [plannedFile, here]
      rw [List.filterMap_cons, planned, ih others]
      cases file <;> rfl

theorem planFiles_of_ok {entries : List (Sigma fun _ : Str => SortedSet Nat)}
    (all : ∀ entry ∈ entries, ∃ file,
      planFile tree engine hashToPath entry.1 entry.2 = .ok file) :
    planFiles tree engine hashToPath entries =
      .ok (entries.filterMap (plannedFile tree engine hashToPath)) := by
  induction entries with
  | nil => rfl
  | cons entry rest ih =>
      obtain ⟨file, here⟩ := all entry List.mem_cons_self
      have others := ih fun other member => all other (List.mem_cons_of_mem _ member)
      have planned : plannedFile tree engine hashToPath entry = file := by
        simp [plannedFile, here]
      simp only [planFiles, here, others, bind, Except.bind, List.filterMap_cons, planned]
      cases file <;> rfl

/-- **When an entry adds a file to the plan**, and which. -/
theorem plannedFile_eq_some_iff {entry : Sigma fun _ : Str => SortedSet Nat}
    {file : PartitionedFile} :
    plannedFile tree engine hashToPath entry = some file ↔
      ∃ filePath canonicalPath totalRgs, hashToPath.lookup entry.1 = some filePath ∧
        tree.canonicalize filePath = some canonicalPath ∧
        rowGroupCount tree engine entry.1 canonicalPath = .ok totalRgs ∧
        (ParquetAccessPlan.ofRowGroups totalRgs entry.2.toList).rowGroupIndexes ≠ [] ∧
        tree.objectStoreAccepts canonicalPath = true ∧
        file = ⟨canonicalPath, ((tree.resolve canonicalPath).map FileNode.len).getD 0,
          ParquetAccessPlan.ofRowGroups totalRgs entry.2.toList⟩ := by
  have nonempty : ∀ totalRgs,
      (ParquetAccessPlan.ofRowGroups totalRgs entry.2.toList).rowGroupIndexes ≠ [] →
      entry.2.isEmpty = false := by
    intro totalRgs reads
    rw [← Bool.not_eq_true, SortedSet.isEmpty_iff]
    intro none
    refine reads ?_
    rw [ParquetAccessPlan.rowGroupIndexes_ofRowGroups, List.filter_eq_nil_iff]
    intro g _
    simpa using none g
  constructor
  · intro planned
    simp only [plannedFile, planFile] at planned
    split at planned
    · rename_i added planning
      subst planned
      split at planning
      · cases planning
      · cases lead : hashToPath.lookup entry.1 with
        | none => simp [lead] at planning
        | some filePath =>
            cases resolved : tree.canonicalize filePath with
            | none => simp [lead, resolved] at planning
            | some canonicalPath =>
                simp only [lead, resolved] at planning
                obtain ⟨totalRgs, counted, rest⟩ := bind_eq_ok_iff.mp planning
                refine ⟨filePath, canonicalPath, totalRgs, rfl, resolved, counted, ?_⟩
                split at rest
                · cases rest
                · rename_i reads
                  split at rest
                  · rename_i accepted
                    cases rest
                    exact ⟨by simpa using reads, accepted, rfl⟩
                  · cases rest
    · cases planned
  · rintro ⟨filePath, canonicalPath, totalRgs, lead, resolved, counted, reads, accepted, rfl⟩
    have notEmpty : (ParquetAccessPlan.ofRowGroups totalRgs
        entry.2.toList).rowGroupIndexes.isEmpty = false := by
      simpa using reads
    simp [plannedFile, planFile, nonempty totalRgs reads, lead, resolved, counted, notEmpty,
      accepted, bind, Except.bind, pure, Except.pure]

end PlanSpecification

/-! ## What a scan returns -/

section ScanSpecification

variable {calculateFileHash : Path → Str} {session : Session} {tree : FileTree}
  {root : IndexRoot} {engine : IndexQueryEngine} {filters : List Expr}

theorem planFile_of_counts {engine' : IndexQueryEngine}
    (counts : engine'.rowGroupCounts = engine.rowGroupCounts) :
    planFile tree engine' = planFile tree engine := by
  funext hashToPath fileHash rowGroups
  simp only [planFile, rowGroupCount, IndexQueryEngine.numRowGroups, counts]

/-- A file whose row-group count is on record is planned without an error. -/
theorem planFile_returns {hashToPath : FiniteMap Str Path} {fileHash : Str}
    {count : Nat} (counted : engine.numRowGroups fileHash = some count)
    (rowGroups : SortedSet Nat) :
    ∃ file, planFile tree engine hashToPath fileHash rowGroups = .ok file := by
  unfold planFile
  simp only [rowGroupCount, counted, bind, Except.bind, pure, Except.pure]
  split
  · exact ⟨_, rfl⟩
  · split
    · exact ⟨_, rfl⟩
    · split
      · exact ⟨_, rfl⟩
      · split
        · exact ⟨_, rfl⟩
        · split <;> exact ⟨_, rfl⟩

/-- **The files of a scan** are those its pruned entries add. -/
theorem scan_files {plan : ScanPlan}
    (ok : (scan calculateFileHash session tree root engine filters).1 = .ok plan) :
    plan.files = (pruneWithFstIndex calculateFileHash root engine filters).1.fileRowGroups.entries.filterMap
      (plannedFile tree engine
        (pruneWithFstIndex calculateFileHash root engine filters).1.hashToPath) := by
  have counts := (pruneWithFstIndex_spec calculateFileHash root engine filters).2.counts
  simp only [scan] at ok
  split at ok
  · rename_i none
    cases ok
    rw [List.isEmpty_iff.mp none]
    rfl
  · obtain ⟨-, -, ok⟩ := bind_eq_ok_iff.mp ok
    obtain ⟨files, planned, ok⟩ := bind_eq_ok_iff.mp ok
    cases ok
    rw [planFiles_eq planned]
    unfold plannedFile
    rw [planFile_of_counts counts]

/-- A scan that plans a file has had its filters planned. -/
theorem accepts_of_planned {plan : ScanPlan} {file : PartitionedFile}
    (ok : (scan calculateFileHash session tree root engine filters).1 = .ok plan)
    (planned : file ∈ plan.files) : session.createPhysicalExpr filters = .ok () := by
  simp only [scan] at ok
  split at ok
  · cases ok
    cases planned
  · obtain ⟨_, accepted, -⟩ := bind_eq_ok_iff.mp ok
    exact accepted

/-- **Every planned file is the one a path of the file map resolves to**, and that
path has the hash of its entry. -/
theorem planned_origin {tree' : FileTree} {entry : Sigma fun _ : Str => SortedSet Nat}
    {file : PartitionedFile}
    (planned : plannedFile tree' engine
      (pruneWithFstIndex calculateFileHash root engine filters).1.hashToPath entry = some file) :
    ∃ fileHash path, engine.fileMap.lookup fileHash = some path ∧
      calculateFileHash path = entry.1 ∧ tree'.canonicalize path = some file.path := by
  obtain ⟨path, canonicalPath, -, lead, resolved, -, -, -, rfl⟩ :=
    plannedFile_eq_some_iff.mp planned
  obtain ⟨named, fileMatch, member, rfl⟩ := pruned_hashToPath lead
  obtain ⟨filter, -, inMatches⟩ := List.mem_flatMap.mp member
  obtain ⟨-, -, -, -, fileHash, leads, -⟩ := mem_filterMatches_iff.mp inMatches
  exact ⟨fileHash, fileMatch.filePath, leads, named, resolved⟩

/-- A scan returns when DataFusion plans the filters and the count of every file
of the file map is on record. -/
theorem scan_returns (accepts : session.createPhysicalExpr filters = .ok ())
    (counted : ∀ entry ∈ (pruneWithFstIndex calculateFileHash root engine
      filters).1.fileRowGroups.entries, ∃ count, engine.numRowGroups entry.1 = some count) :
    ∃ plan, (scan calculateFileHash session tree root engine filters).1 = .ok plan := by
  have counts := (pruneWithFstIndex_spec calculateFileHash root engine filters).2.counts
  simp only [scan]
  split
  · exact ⟨_, rfl⟩
  · have each : ∀ entry ∈ (pruneWithFstIndex calculateFileHash root engine
        filters).1.fileRowGroups.entries,
        ∃ file, planFile tree (pruneWithFstIndex calculateFileHash root engine filters).2
          (pruneWithFstIndex calculateFileHash root engine filters).1.hashToPath entry.1 entry.2 =
            .ok file := by
      intro entry member
      obtain ⟨count, known⟩ := counted entry member
      rw [planFile_of_counts counts]
      exact planFile_returns known entry.2
    rw [accepts, planFiles_of_ok each]
    exact ⟨_, rfl⟩

/-- A scan of which no filter has a match returns the empty plan. -/
theorem scan_of_no_match
    (none : ∀ filter ∈ filters, filterMatches root engine filter = []) :
    (scan calculateFileHash session tree root engine filters).1 = .ok .empty := by
  have nothing : (pruneWithFstIndex calculateFileHash root engine filters).1 = ⟨∅, ∅⟩ :=
    pruned_of_no_match none
  simp [scan, nothing, pure, Except.pure]

end ScanSpecification

/-- The filter `name = …` of the sample column. -/
def nameIs (name : Str) : Expr :=
  .binaryExpr (.column sampleColumn) .eq (.literal (.string .utf8 (some name)))

end Pdq
