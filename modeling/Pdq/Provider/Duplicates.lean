/- Pdq.Provider.Duplicates -- how often a scan reads one file.

While indexing and matching, a file is its path as the walk spells it; a scan
resolves the path only when it plans the file.  So a plan holds a canonical file
once for every spelling of it that was indexed and matches: at most once when no
two indexed spellings resolve to it (`planned_once`), twice when it was indexed
under two (`two_spellings_refuted`). -/
import Pdq.Provider.Scan
import Pdq.Query.ReadBack

namespace Pdq

open Theory

set_option autoImplicit false

section Planned

variable {calculateFileHash : Path → Str} {history : Path → Set FileTree.DataFile}
  {paths : Set Path} {allowed : World → Path → Column → Prop} {world : World}

/-- **A scan plans each canonical file at most once** when no two of the indexed
paths resolve to the same file. -/
theorem planned_once (reached : Reached calculateFileHash history paths allowed world)
    (noFeed : ∀ path ∈ paths, ¬ '\n' ∈ path) {session : Session} {tree : FileTree}
    {root : IndexRoot} {engine : IndexQueryEngine} {filters : List Expr} {plan : ScanPlan}
    (mapped : engine.fileMap = (IndexQueryEngine.new world.root).fileMap)
    (oneSpelling : ∀ path ∈ paths, ∀ path' ∈ paths, ∀ canonicalPath,
      tree.canonicalize path = some canonicalPath → tree.canonicalize path' = some canonicalPath →
        path = path')
    (ok : (scan calculateFileHash session tree root engine filters).1 = .ok plan) :
    (plan.files.map PartitionedFile.path).Nodup := by
  -- Every planned file comes from a walked path whose hash is the key of its entry.
  have origin : ∀ (entry : Sigma fun _ : Str => SortedSet Nat) (file : PartitionedFile),
      plannedFile tree engine
        (pruneWithFstIndex calculateFileHash root engine filters).1.hashToPath entry = some file →
      ∃ path ∈ paths, calculateFileHash path = entry.1 ∧
        tree.canonicalize path = some file.path := by
    intro entry file planned
    obtain ⟨fileHash, path, leads, named, resolved⟩ := planned_origin planned
    rw [mapped] at leads
    exact ⟨path, (fileMap_of_reached reached noFeed leads).1, named, resolved⟩
  rw [scan_files ok, List.map_filterMap, List.Nodup, List.pairwise_filterMap]
  refine (List.nodupKeys_iff_pairwise.mp (AList.nodupKeys _)).imp ?_
  intro entry entry' keys canonicalPath found canonicalPath' found'
  obtain ⟨file, planned, rfl⟩ := Option.map_eq_some_iff.mp found
  obtain ⟨file', planned', rfl⟩ := Option.map_eq_some_iff.mp found'
  obtain ⟨path, member, named, resolved⟩ := origin entry file planned
  obtain ⟨path', member', named', resolved'⟩ := origin entry' file' planned'
  intro same
  rw [← same] at resolved'
  have spelled := oneSpelling path member path' member' file.path resolved resolved'
  exact keys (by rw [← named, ← named', spelled])

end Planned

/-! ## One file, spelled once and twice -/

def canonicalSample : Path := "/w/d/a.parquet".toList

def relativeSample : Path := "d/a.parquet".toList

def dottedSample : Path := "./d/a.parquet".toList

/-- A working directory with one file, as it is reached with and without a
leading dot. -/
def dottedTree : FileTree :=
  .ofSpellings [(relativeSample, canonicalSample), (dottedSample, canonicalSample),
    (canonicalSample, canonicalSample)] [(canonicalSample, sampleFile)]

def relativeRoot : IndexRoot := .indexed ∅ relativeSample sampleFile sampleColumn

def bothRoot : IndexRoot := relativeRoot.indexed dottedSample sampleFile sampleColumn

theorem build_relative :
    buildIndexExt sampleHash dottedTree ∅ "d".toList sampleColumn false = .ok relativeRoot := by
  have single : dottedTree.parquetEntries "d".toList = [relativeSample] := by decide
  rw [buildIndex_of_single single]
  exact indexEntry_of_needed rfl named_sampleColumn rfl

theorem build_dotted :
    buildIndexExt sampleHash dottedTree relativeRoot "./d".toList sampleColumn false =
      .ok bothRoot := by
  have single : dottedTree.parquetEntries "./d".toList = [dottedSample] := by decide
  rw [buildIndex_of_single single]
  exact indexEntry_of_needed rfl named_sampleColumn rfl

theorem known_of_univ (tree : FileTree) : Known (fun _ => Set.univ) tree :=
  fun _ _ _ => Set.mem_univ _

theorem reached_relative :
    Reached sampleHash (fun _ => Set.univ) {relativeSample} (fun _ _ _ => True)
      ⟨dottedTree, relativeRoot⟩ := by
  have start : Reached sampleHash (fun _ => Set.univ) {relativeSample} (fun _ _ _ => True)
      ⟨dottedTree, ∅⟩ := .start _ (known_of_univ _)
  have visited : ∀ path ∈ dottedTree.parquetEntries "d".toList,
      path ∈ ({relativeSample} : Set Path) := by
    have single : dottedTree.parquetEntries "d".toList = [relativeSample] := by decide
    rw [single]
    exact fun path member => List.mem_singleton.mp member
  exact .build start visited trivial build_relative

theorem planned_once_sample :
    ∃ plan, (scan sampleHash ⟨fun _ => .ok ()⟩ dottedTree relativeRoot (.new relativeRoot)
        [nameIs "alice".toList]).1 = .ok plan ∧
      plan.files ≠ [] ∧ (plan.files.map PartitionedFile.path).Nodup := by
  have returned : (scan sampleHash ⟨fun _ => .ok ()⟩ dottedTree relativeRoot (.new relativeRoot)
      [nameIs "alice".toList]).1 = .ok _ := rfl
  have noFeed : ∀ path ∈ ({relativeSample} : Set Path), ¬ '\n' ∈ path := by
    rintro path rfl
    decide
  refine ⟨_, returned, by decide, planned_once reached_relative noFeed rfl ?_ returned⟩
  rintro path rfl path' rfl canonicalPath _ _
  rfl

/-- Indexed under `d` and under `./d`, the one file is planned twice. -/
theorem two_spellings_refuted :
    ∃ world paths, Reached sampleHash (fun _ => Set.univ) paths (fun _ _ _ => True) world ∧
      ∃ plan, (scan sampleHash ⟨fun _ => .ok ()⟩ world.tree world.root (.new world.root)
          [nameIs "alice".toList]).1 = .ok plan ∧
        plan.files.map PartitionedFile.path = [canonicalSample, canonicalSample] ∧
        ¬ (plan.files.map PartitionedFile.path).Nodup := by
  have start : Reached sampleHash (fun _ => Set.univ) Set.univ (fun _ _ _ => True)
      ⟨dottedTree, ∅⟩ := .start _ (known_of_univ _)
  have relative := Reached.build start (fun path _ => Set.mem_univ path) trivial build_relative
  have both := Reached.build relative (fun path _ => Set.mem_univ path) trivial build_dotted
  exact ⟨_, _, both, _, rfl, by decide, by decide⟩

end Pdq
