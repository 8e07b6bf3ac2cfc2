/- Pdq.Query.Batch -- a list of terms looked up in one pass.

`exact_search_multi` asks of each file and term only whether the byte range of
the term holds any key; `exact_search` decodes the keys of that range.  Every key
index_file writes decodes, so the range is empty exactly when the lookup finds no
row group (`setHasTerm_columnKeys`), and the count of the batch is the number of
matches of the single lookups (`exactSearchMulti_eq`). -/
import Mathlib.Algebra.BigOperators.Group.Multiset.Basic
import Pdq.Query.Written

namespace Pdq

open Theory KeyFormat

set_option autoImplicit false

/-- `IndexQueryEngine::set_has_term` -/
def setHasTerm (set : FstSet) (term : Str) : Bool :=
  (set.range (startKey term) (endKey term)).head?.isSome

/-- The hits of a list of terms in one FST. -/
def termHits (set : FstSet) (terms : List Str) : Nat :=
  terms.foldl (fun hits term => if setHasTerm set term then hits + 1 else hits) 0

/-- What the batch counts in a file, from what loading its FST returned. -/
def fileHits (terms : List Str) : Except QueryError (Option FstSet) → Except QueryError Nat
  | .error e => .error e
  | .ok none => .ok 0
  | .ok (some set) => .ok (termHits set terms)

namespace IndexQueryEngine

/-- The parallel map of `exact_search_multi`. -/
def countFiles (root : IndexRoot) (column : Column) (terms : List Str) :
    List Str → IndexQueryEngine → Except QueryError (List Nat) × IndexQueryEngine
  | [], engine => (.ok [], engine)
  | fileHash :: rest, engine =>
      let (loaded, engine) := getOrLoadSet root engine fileHash column
      let (later, engine) := countFiles root column terms rest engine
      let counts := do
        let hits ← fileHits terms loaded
        let later ← later
        return hits :: later
      (counts, engine)

/-- `IndexQueryEngine::exact_search_multi` -/
def exactSearchMulti (root : IndexRoot) (engine : IndexQueryEngine) (column : Column)
    (terms : List Str) : Except QueryError Nat × IndexQueryEngine :=
  let counted := countFiles root column terms engine.fileMap.keys engine
  (counted.1.map List.sum, counted.2)

end IndexQueryEngine

/-! ## One file -/

/-- The values whose keys a lookup of `term` reads. -/
def matchesTerm (term v : Str) : Bool :=
  decide (v = term) || (term ++ [valueRgSeparator]).isPrefixOf v

theorem matchesTerm_iff {term v : Str} :
    matchesTerm term v = true ↔ v = term ∨ term ++ [valueRgSeparator] <+: v := by
  rw [matchesTerm, Bool.or_eq_true, decide_eq_true_eq, List.isPrefixOf_iff_prefix]

theorem searchSet_eq_rowGroupsHolding (file : ParquetFile) (column : Column) (term : Str) :
    searchSet (columnKeys file column) term =
      .ok (rowGroupsHolding file column (matchesTerm term)) := by
  obtain ⟨rowGroups, returned, sorted, members⟩ := searchSet_columnKeys file column term
  have listed : rowGroups = rowGroupsHolding file column (matchesTerm term) :=
    eq_rowGroupsHolding sorted fun g => by simp only [members, matchesTerm_iff]
  rw [returned, listed]

/-- **The range of a term is empty exactly when the lookup of the term is**: every
key in it decodes. -/
theorem setHasTerm_columnKeys (file : ParquetFile) (column : Column) (term : Str) :
    setHasTerm (columnKeys file column) term =
      !(rowGroupsHolding file column (matchesTerm term)).isEmpty := by
  cases rows : rowGroupsHolding file column (matchesTerm term) with
  | nil =>
      have nothing : (columnKeys file column).range (startKey term) (endKey term) = [] := by
        rw [List.eq_nil_iff_forall_not_mem]
        intro key member
        obtain ⟨known, inRange⟩ := SortedSet.mem_range.mp member
        obtain ⟨g, v, holds, rfl⟩ := mem_columnKeys.mp known
        have matched := matchesTerm_iff.mpr ((range_key_iff term v g).mp inRange)
        rw [rowGroupsHolding_eq_nil.mp rows g v holds] at matched
        cases matched
      simp [setHasTerm, nothing]
  | cons g rest =>
      obtain ⟨v, holds, matched⟩ := mem_rowGroupsHolding.mp (rows ▸ List.mem_cons_self)
      have inRange := (range_key_iff term v g).mpr (matchesTerm_iff.mp matched)
      have member : keyBytes v g ∈ (columnKeys file column).range (startKey term) (endKey term) :=
        SortedSet.mem_range.mpr ⟨mem_columnKeys.mpr ⟨g, v, holds, rfl⟩, inRange⟩
      obtain ⟨first, later, read⟩ := List.exists_cons_of_ne_nil (List.ne_nil_of_mem member)
      rw [setHasTerm, read]
      rfl

theorem termHits_eq (set : FstSet) (terms : List Str) :
    termHits set terms = (terms.map fun term => if setHasTerm set term then 1 else 0).sum := by
  have loop : ∀ hits, terms.foldl (fun hits term => if setHasTerm set term then hits + 1 else hits)
      hits = hits + (terms.map fun term => if setHasTerm set term then 1 else 0).sum := by
    induction terms with
    | nil => exact fun hits => rfl
    | cons term terms ih =>
        intro hits
        rw [List.foldl_cons, ih, List.map_cons, List.sum_cons]
        split <;> omega
  rw [termHits, loop, Nat.zero_add]

/-! ## All files -/

/-- The number of matches in a report: the files with some row group. -/
theorem length_reported (fileMap : FiniteMap Str Path) (answer : Str → List Nat) :
    (reported fileMap answer).length =
      (fileMap.keys.map fun fileHash => if (answer fileHash).isEmpty then 0 else 1).sum := by
  rw [reported, AList.keys, List.keys, List.map_map]
  induction fileMap.entries with
  | nil => rfl
  | cons entry rest ih =>
      rw [List.filterMap_cons, List.map_cons, List.sum_cons, ← ih, Function.comp]
      cases answer entry.1 <;> simp [Nat.add_comm]

namespace IndexQueryEngine

section Batch

variable {root : IndexRoot} {engine : IndexQueryEngine} {content : IndexedContent}
  {column : Column}

/-- The row groups of a file that a lookup of `term` reports. -/
def termAnswer (content : IndexedContent) (column : Column) (term : Str) : Str → List Nat :=
  contentAnswer content column fun file => rowGroupsHolding file column (matchesTerm term)

/-- The hits the batch counts in one file: the terms the file is reported for. -/
theorem fileHits_written (written : WrittenFrom root content) (opens : Opens column)
    (loads : Loads root (new root) engine) (terms : List Str) (fileHash : Str) :
    fileHits terms (getOrLoadSet root engine fileHash column).1 = .ok (terms.map fun term =>
      if (termAnswer content column term fileHash).isEmpty then 0 else 1).sum := by
  rw [getOrLoadSet_result, fstFor_written written loads]
  unfold termAnswer contentAnswer
  cases content fileHash column with
  | none => simp [loadFst, opens, fileHits]
  | some file =>
      refine congrArg Except.ok ((termHits_eq _ terms).trans ?_)
      refine congrArg List.sum (List.map_congr_left fun term _ => ?_)
      rw [setHasTerm_columnKeys, Option.map_some, Option.getD_some]
      cases rowGroupsHolding file column (matchesTerm term) <;> rfl

theorem countFiles_written (written : WrittenFrom root content) (terms : List Str)
    (l : List Str) (opens : ∀ fileHash ∈ l, Opens column)
    (loads : Loads root (new root) engine) :
    (countFiles root column terms l engine).1 = .ok (l.map fun fileHash =>
      (terms.map fun term =>
        if (termAnswer content column term fileHash).isEmpty then 0 else 1).sum) := by
  induction l generalizing engine with
  | nil => rfl
  | cons fileHash l ih =>
      have rest := ih (fun other member => opens other (List.mem_cons_of_mem _ member))
        (loads.trans (getOrLoadSet_loads root engine fileHash column))
      have here := fileHits_written written (opens fileHash List.mem_cons_self) loads terms fileHash
      simp only [countFiles, here, rest]
      rfl

theorem exactSearch_written (written : WrittenFrom root content)
    (loads : Loads root (new root) engine) (opens : ∀ fileHash ∈ engine.fileMap, Opens column)
    (term : Str) :
    (engine.exactSearch root column term).1 =
      .ok (reported engine.fileMap (termAnswer content column term)) :=
  searchAll_written written loads opens fun _ file _ =>
    searchSet_eq_rowGroupsHolding file column term

/-- **The batch lookup counts what the single lookups find**, whatever either
engine has loaded before.  All FSTs load: each is as it was written, and the name of the
column opens. -/
theorem exactSearchMulti_eq (written : WrittenFrom root content) (opens : Opens column)
    (loads : Loads root (new root) engine) (terms : List Str) {single : IndexQueryEngine}
    (loadsSingle : Loads root (new root) single) :
    ∃ results, (terms.mapM fun term => (single.exactSearch root column term).1) = .ok results ∧
      (engine.exactSearchMulti root column terms).1 = .ok (results.map List.length).sum := by
  have each : (terms.mapM fun term => (single.exactSearch root column term).1) =
      .ok (terms.map fun term => reported (new root).fileMap (termAnswer content column term)) := by
    apply mapM_eq_ok
    intro term _
    rw [exactSearch_written written loadsSingle fun _ _ => opens, loadsSingle.fileMap]
  refine ⟨_, each, ?_⟩
  simp only [exactSearchMulti, countFiles_written written terms _ (fun _ _ => opens) loads,
    loads.fileMap]
  refine congrArg Except.ok ?_
  rw [List.map_map]
  have exchanged := Multiset.sum_map_sum_map (new root).fileMap.keys terms
    (f := fun fileHash term => if (termAnswer content column term fileHash).isEmpty then 0 else 1)
  simp only [Multiset.map_coe, Multiset.sum_coe] at exchanged
  rw [exchanged]
  refine congrArg List.sum (List.map_congr_left fun term _ => ?_)
  exact (length_reported _ _).symm

end Batch

/-- Two terms of the sample file and one that it does not hold. -/
theorem exactSearchMulti_sample :
    ∃ results, (["alice".toList, "bob".toList, "alice".toList].mapM fun term =>
        ((new (singleRoot samplePath sampleFile sampleColumn)).exactSearch
          (singleRoot samplePath sampleFile sampleColumn) sampleColumn term).1) = .ok results ∧
      ((new (singleRoot samplePath sampleFile sampleColumn)).exactSearchMulti
        (singleRoot samplePath sampleFile sampleColumn) sampleColumn
        ["alice".toList, "bob".toList, "alice".toList]).1 =
          .ok (results.map List.length).sum :=
  exactSearchMulti_eq (writtenFrom_single _ _ named_sampleColumn) (by decide) (.refl _ _) _
    (.refl _ _)

end IndexQueryEngine

end Pdq
