/- Pdq.Provider.Unanswered -- scans the index has no answer for.

A filter the index was not asked about, one it knows nothing about and one whose
lookup failed all contribute no match, and so does a filter that matches nothing.
When no filter contributes one, `scan` returns the empty plan
(`scan_of_no_match`), so such a scan is right exactly when there is no row to be
found (`unanswerable_scan_iff`, `failed_scan_iff`). -/
import Pdq.Provider.Scan

namespace Pdq

open Theory

set_option autoImplicit false

/-! ## What a plan must cover -/

/-- The plan reads row group `g` of the file at `path`. -/
def ScanPlan.Covers (plan : ScanPlan) (tree : FileTree) (path : Path) (g : Nat) : Prop :=
  ∃ file ∈ plan.files, tree.canonicalize path = some file.path ∧
    g ∈ file.accessPlan.rowGroupIndexes

section Rows

variable (holds : Expr → Row → Bool) (tree : FileTree) (dataDir : Path) (filters : List Expr)

/-- Row group `g` of the Parquet file at `path`, under `dataDir`, has a row that
satisfies all filters. -/
def Satisfying (path : Path) (g : Nat) : Prop :=
  path ∈ tree.parquetEntries dataDir ∧ ∃ file, tree.openParquet path = .ok file ∧
    ∃ rowGroup, file.rowGroups[g]? = some rowGroup ∧
      ∃ row ∈ RowGroup.rows rowGroup, ∀ filter ∈ filters, holds filter row = true

/-- The plan covers every row that satisfies all filters; in particular it is the
empty one only when there is none. -/
def DropsNoRow (plan : ScanPlan) : Prop :=
  (∀ path g, Satisfying holds tree dataDir filters path g → plan.Covers tree path g) ∧
    (plan = .empty → ∀ path g, ¬ Satisfying holds tree dataDir filters path g)

theorem dropsNoRow_empty_iff :
    DropsNoRow holds tree dataDir filters .empty ↔
      ∀ path g, ¬ Satisfying holds tree dataDir filters path g := by
  constructor
  · exact fun complete => complete.2 rfl
  · intro none
    exact ⟨fun path g row => absurd row (none path g), fun _ => none⟩

end Rows

/-! ## Filters the index answers -/

/-- The index can answer the filter: it is an equality on a column for which some
file of the file map has an FST that is not known to be empty. -/
def Answerable (root : IndexRoot) (engine : IndexQueryEngine) (filter : Expr) : Prop :=
  ∃ column value, extractEqualityFilter filter = some (column, value) ∧
    ∃ fileHash ∈ engine.fileMap, ∃ fst, engine.fstFor root fileHash column = some fst ∧
      fst ≠ .valid SortedSet.empty

/-- The lookup of the filter fails. -/
def LookupFails (root : IndexRoot) (engine : IndexQueryEngine) (filter : Expr) : Prop :=
  ∃ column value, extractEqualityFilter filter = some (column, value) ∧
    ∃ e, (engine.exactSearch root column value).1 = .error e

def cityIs (city : Str) : Expr :=
  .binaryExpr (.column "city".toList) .eq (.literal (.string .utf8 (some city)))

section Unanswered

variable {calculateFileHash : Path → Str} {session : Session} {tree : FileTree}
  {root : IndexRoot} {engine : IndexQueryEngine} {filters : List Expr} {filter : Expr}

theorem filterMatches_of_fails (fails : LookupFails root engine filter) :
    filterMatches root engine filter = [] := by
  obtain ⟨column, value, extracted, e, failed⟩ := fails
  simp only [filterMatches, extracted, failed]

theorem filterMatches_of_unanswerable (unanswerable : ¬ Answerable root engine filter) :
    filterMatches root engine filter = [] := by
  refine List.eq_nil_iff_forall_not_mem.mpr fun fileMatch member => unanswerable ?_
  obtain ⟨column, value, extracted, -, fileHash, mapped, answered, nonempty⟩ :=
    mem_filterMatches_iff.mp member
  obtain ⟨set, seen, searched⟩ := IndexQueryEngine.fst_of_fileAnswer answered nonempty
  refine ⟨column, value, extracted, fileHash, FiniteMap.mem_of_lookup mapped, _, seen, ?_⟩
  intro empty
  cases empty
  exact nonempty (Except.ok.inj ((searchSet_empty value).symm.trans searched)).symm

/-- **A scan without an answerable filter is right exactly when no row satisfies
the filters.** -/
theorem unanswerable_scan_iff (holds : Expr → Row → Bool) (dataDir : Path)
    (unanswerable : ∀ filter ∈ filters, ¬ Answerable root engine filter) :
    (∃ plan, (scan calculateFileHash session tree root engine filters).1 = .ok plan ∧
        DropsNoRow holds tree dataDir filters plan) ↔
      ∀ path g, ¬ Satisfying holds tree dataDir filters path g := by
  have returned : (scan calculateFileHash session tree root engine filters).1 = .ok .empty :=
    scan_of_no_match fun filter member =>
      filterMatches_of_unanswerable (unanswerable filter member)
  rw [returned, ← dropsNoRow_empty_iff]
  constructor
  · rintro ⟨plan, same, complete⟩
    cases same
    exact complete
  · exact fun complete => ⟨.empty, rfl, complete⟩

/-- A filter no row of the sample file satisfies. -/
theorem not_satisfying_sample {filter : Expr}
    (none : ∀ rowGroup ∈ sampleFile.content.rowGroups, ∀ row ∈ RowGroup.rows rowGroup,
      evaluateEqualities filter row = false) (path : Path) (g : Nat) :
    ¬ Satisfying equalitySemantics.holds (singleTree samplePath sampleFile) sampleDir [filter]
      path g := by
  rintro ⟨inWalk, file, opened, rowGroup, position, row, member, all⟩
  cases List.mem_singleton.mp inWalk
  cases opened
  have fails := none rowGroup (List.mem_of_getElem? position) row member
  exact Bool.false_ne_true (fails.symm.trans (all _ (List.mem_singleton.mpr rfl)))

theorem unanswerable_sample :
    ∃ plan, (scan sampleHash ⟨fun _ => .ok ()⟩ (singleTree samplePath sampleFile)
        (singleRoot samplePath sampleFile sampleColumn)
        (.new (singleRoot samplePath sampleFile sampleColumn)) [cityIs "rome".toList]).1 =
          .ok plan ∧
      DropsNoRow equalitySemantics.holds (singleTree samplePath sampleFile) sampleDir
        [cityIs "rome".toList] plan := by
  refine (unanswerable_scan_iff _ _ ?_).mpr (not_satisfying_sample (by decide))
  intro filter member
  rw [List.mem_singleton.mp member]
  rintro ⟨column, value, extracted, fileHash, -, fst, seen, -⟩
  cases extracted
  rw [IndexQueryEngine.new_fstFor, singleRoot_fst_ne (by decide)] at seen
  cases seen

/-- An empty filter list reads nothing, though every row satisfies it. -/
theorem unfiltered_scan_refuted :
    (scan sampleHash ⟨fun _ => .ok ()⟩ (singleTree samplePath sampleFile)
        (singleRoot samplePath sampleFile sampleColumn)
        (.new (singleRoot samplePath sampleFile sampleColumn)) []).1 = .ok .empty ∧
      ¬ DropsNoRow equalitySemantics.holds (singleTree samplePath sampleFile) sampleDir []
        .empty := by
  refine ⟨rfl, fun complete => complete.2 rfl samplePath 0 ?_⟩
  exact ⟨List.mem_singleton.mpr rfl, sampleFile.content, rfl, _, rfl, _, List.mem_singleton.mpr rfl,
    fun _ member => nomatch member⟩

/-- A scan reports its failure, or covers every row that satisfies the filters. -/
def FailsOrDropsNoRow (holds : Expr → Row → Bool) (tree : FileTree) (dataDir : Path)
    (filters : List Expr) : Except PlanError ScanPlan → Prop
  | .error _ => True
  | .ok plan => DropsNoRow holds tree dataDir filters plan

/-- **A scan whose answerable filters all fail is right exactly when no row
satisfies the filters.** -/
theorem failed_scan_iff (holds : Expr → Row → Bool) (dataDir : Path)
    (failed : ∀ filter ∈ filters, Answerable root engine filter →
      LookupFails root engine filter) :
    FailsOrDropsNoRow holds tree dataDir filters
        (scan calculateFileHash session tree root engine filters).1 ↔
      ∀ path g, ¬ Satisfying holds tree dataDir filters path g := by
  have returned : (scan calculateFileHash session tree root engine filters).1 = .ok .empty := by
    refine scan_of_no_match fun filter member => ?_
    by_cases answerable : Answerable root engine filter
    · exact filterMatches_of_fails (failed filter member answerable)
    · exact filterMatches_of_unanswerable answerable
  rw [returned, ← dropsNoRow_empty_iff]
  exact Iff.rfl

/-- The index of the sample file, with an FST that does not open. -/
def brokenRoot : IndexRoot :=
  AList.insert (sampleHash samplePath)
    ((IndexDir.empty.indexed samplePath sampleFile sampleColumn).withFst sampleColumn .invalid) ∅

theorem failed_sample :
    FailsOrDropsNoRow equalitySemantics.holds (singleTree samplePath sampleFile) sampleDir
      [nameIs "bob".toList]
      (scan sampleHash ⟨fun _ => .ok ()⟩ (singleTree samplePath sampleFile) brokenRoot
        (.new brokenRoot) [nameIs "bob".toList]).1 := by
  refine (failed_scan_iff _ _ ?_).mpr (not_satisfying_sample (by decide))
  intro filter member _
  rw [List.mem_singleton.mp member]
  exact ⟨sampleColumn, "bob".toList, rfl, .invalidFst, rfl⟩

/-- The only lookup fails, and the scan reads nothing, though there is a row. -/
theorem failed_lookup_refuted :
    LookupFails brokenRoot (.new brokenRoot) (nameIs "alice".toList) ∧
      ¬ FailsOrDropsNoRow equalitySemantics.holds (singleTree samplePath sampleFile) sampleDir
        [nameIs "alice".toList]
        (scan sampleHash ⟨fun _ => .ok ()⟩ (singleTree samplePath sampleFile) brokenRoot
          (.new brokenRoot) [nameIs "alice".toList]).1 := by
  refine ⟨⟨sampleColumn, "alice".toList, rfl, .invalidFst, rfl⟩, ?_⟩
  have returned : (scan sampleHash ⟨fun _ => .ok ()⟩ (singleTree samplePath sampleFile) brokenRoot
      (.new brokenRoot) [nameIs "alice".toList]).1 = .ok .empty := rfl
  rw [returned]
  refine fun complete => complete.2 rfl samplePath 0 ?_
  refine ⟨List.mem_singleton.mpr rfl, sampleFile.content, rfl, _, rfl, _,
    List.mem_singleton.mpr rfl, fun filter member => ?_⟩
  rw [List.mem_singleton.mp member]
  decide

end Unanswered

end Pdq
