/- Pdq.Query.SearchRequest -- the three kinds of lookup, as one.

Exact, prefix and range search differ in the keys they read of an FST; the walk
over the files is the same.  `SearchRequest.selects` says which values a lookup is meant
to find.  On a column without NUL the FST answers with the row groups that hold
such a value (`SearchRequest.searchSet_columnKeys`), when the lookup is `Clean`: no NUL
in it, and no prefix that is empty or ends in U+10FFFF. -/
import Pdq.Query.Batch
import Pdq.Query.PrefixSearch
import Pdq.Query.CliRange

namespace Pdq

open Theory KeyFormat

set_option autoImplicit false

inductive SearchRequest where
  | exact (term : Str)
  | startsWith (pfx : Str)
  | range (start last : Str)
  deriving DecidableEq, Repr

namespace SearchRequest

/-- The lookup in one FST. -/
def searchSet (set : FstSet) : SearchRequest → Except QueryError (List Nat)
  | exact term => Pdq.searchSet set term
  | startsWith pfx => prefixSearchSet set pfx
  | range start last => rangeSearchSet set start last

/-- `exact_search`, `prefix_search` or `range_search` -/
def run (root : IndexRoot) (engine : IndexQueryEngine) (column : Column) :
    SearchRequest → Except QueryError (List FileMatches) × IndexQueryEngine
  | exact term => engine.exactSearch root column term
  | startsWith pfx => engine.prefixSearch root column pfx
  | range start last => engine.rangeSearch root column start last

/-- The lookup of `pdq search --type`; `none` for an unknown type. -/
def ofCli (searchType term : Str) : Option SearchRequest :=
  if searchType = ['e', 'x', 'a', 'c', 't'] then some (exact term)
  else if searchType = ['p', 'r', 'e', 'f', 'i', 'x'] then some (startsWith term)
  else if searchType = ['r', 'a', 'n', 'g', 'e'] then some (range term (endTerm term))
  else none

/-- The values it is meant to find. -/
def selects : SearchRequest → Str → Bool
  | exact term, v => decide (v = term)
  | startsWith pfx, v => pfx.isPrefixOf v
  | range start last, v => between start last v

/-- It can be answered exactly. -/
def Clean : SearchRequest → Prop
  | exact _ => True
  | startsWith pfx => pfx ≠ [] ∧ ¬ valueRgSeparator ∈ pfx ∧ pfx.getLast? ≠ some maxUnicodeChar
  | range start last => ¬ valueRgSeparator ∈ start ∧ ¬ valueRgSeparator ∈ last

theorem run_eq (root : IndexRoot) (engine : IndexQueryEngine) (column : Column)
    (request : SearchRequest) :
    request.run root engine column =
      engine.searchAll root column fun set => request.searchSet set := by
  cases request <;> rfl

end SearchRequest

/-- No value of the column has a NUL. -/
def NulFree (file : ParquetFile) (column : Column) : Prop :=
  ∀ g v, file.HoldsValue column g v → ¬ valueRgSeparator ∈ v

theorem rowGroupsHolding_congr {file : ParquetFile} {column : Column} {p q : Str → Bool}
    (same : ∀ g v, file.HoldsValue column g v → p v = q v) :
    rowGroupsHolding file column p = rowGroupsHolding file column q :=
  eq_rowGroupsHolding (rowGroupsHolding_sorted file column p) fun g => by
    rw [mem_rowGroupsHolding]
    exact exists_congr fun v => and_congr_right fun held => by rw [same g v held]

/-- Without NUL no value but the term itself is matched by the term. -/
theorem rowGroupsHolding_matchesTerm {file : ParquetFile} {column : Column}
    (nulFree : NulFree file column) (term : Str) :
    rowGroupsHolding file column (matchesTerm term) =
      rowGroupsHolding file column fun v => decide (v = term) := by
  refine rowGroupsHolding_congr fun g v held => ?_
  have ends : ¬ term ++ [valueRgSeparator] <+: v := fun starts =>
    nulFree g v held (starts.subset (by simp))
  rw [Bool.eq_iff_iff, matchesTerm_iff, decide_eq_true_eq, or_iff_left ends]

/-- **The answer of an index FST to a lookup**: the row groups that hold a value it
is meant to find. -/
theorem SearchRequest.searchSet_columnKeys {request : SearchRequest} (clean : request.Clean)
    {file : ParquetFile} {column : Column} (nulFree : NulFree file column) :
    request.searchSet (columnKeys file column) =
      .ok (rowGroupsHolding file column request.selects) := by
  cases request with
  | exact term =>
      rw [SearchRequest.searchSet, searchSet_eq_rowGroupsHolding,
        rowGroupsHolding_matchesTerm nulFree]
      rfl
  | startsWith pfx =>
      obtain ⟨nonempty, noNul, notLast⟩ := clean
      rw [SearchRequest.searchSet, prefixSearchSet_columnKeys]
      refine congrArg Except.ok (rowGroupsHolding_congr fun g v _ => ?_)
      rw [prefixFinds, if_neg nonempty, decide_eq_true ⟨noNul, notLast⟩, Bool.true_and]
      rfl
  | range start last => exact rangeSearchSet_columnKeys clean.1 clean.2 nulFree

/-! ## Over a whole index -/

/-- The files and row groups of a report, one by one. -/
theorem mem_reported {fileMap : FiniteMap Str Path} {answer : Str → List Nat} {path : Path}
    {g : Nat} :
    (∃ fileMatch ∈ reported fileMap answer, fileMatch.filePath = path ∧ g ∈ fileMatch.rowGroups) ↔
      ∃ fileHash, fileMap.lookup fileHash = some path ∧ g ∈ answer fileHash := by
  simp only [reported, List.mem_filterMap]
  constructor
  · rintro ⟨fileMatch, ⟨entry, member, made⟩, rfl, listed⟩
    split at made
    · cases made
    · cases made
      exact ⟨entry.1, FiniteMap.mem_entries_iff.mp member, listed⟩
  · rintro ⟨fileHash, mapped, listed⟩
    have some : (answer fileHash).isEmpty = false := by
      rw [List.isEmpty_eq_false_iff]
      exact List.ne_nil_of_mem listed
    exact ⟨⟨path, answer fileHash⟩, ⟨⟨fileHash, path⟩, FiniteMap.mem_entries_iff.mpr mapped,
      by simp [some]⟩, rfl, listed⟩

/-- **A lookup with an engine that has read an index of NUL-free columns** is
answered file by file, from the content each FST was written from. -/
theorem SearchRequest.run_of_content {request : SearchRequest} (clean : request.Clean)
    {root : IndexRoot} {column : Column} (opens : Opens column)
    {content : Str → Option ParquetFile}
    (written : ∀ fileHash, (root.dir fileHash).fst column =
      (content fileHash).map fun file => .valid (columnKeys file column))
    (nulFree : ∀ fileHash file, content fileHash = some file → NulFree file column) :
    ∃ results, (request.run root (.new root) column).1 = .ok results ∧
      ∀ path g, (∃ fileMatch ∈ results, fileMatch.filePath = path ∧ g ∈ fileMatch.rowGroups) ↔
        ∃ fileHash, (IndexQueryEngine.new root).fileMap.lookup fileHash = some path ∧
          ∃ file, content fileHash = some file ∧
            g ∈ rowGroupsHolding file column request.selects := by
  have result : (request.run root (.new root) column).1 =
      .ok (reported (IndexQueryEngine.new root).fileMap fun fileHash =>
        ((content fileHash).map fun file =>
          rowGroupsHolding file column request.selects).getD []) := by
    rw [SearchRequest.run_eq]
    refine IndexQueryEngine.searchAll_of_answers fun fileHash _ => ?_
    rw [IndexQueryEngine.fileAnswer, IndexQueryEngine.new_fstFor, written]
    cases held : content fileHash with
    | none => exact if_pos opens
    | some file => exact SearchRequest.searchSet_columnKeys clean (nulFree fileHash file held)
  refine ⟨_, result, fun path g => mem_reported.trans ?_⟩
  refine exists_congr fun fileHash => and_congr_right fun _ => ?_
  cases content fileHash <;> simp

end Pdq
