/- Pdq.Provider.Intersection -- what the pruning keeps of several equality
filters.

The pruning loop meets the answers of the filters that match a file and passes
over the others: a search reports no file without matching row groups, so the
loop never sees the empty answer.  `retains_iff` says what is kept; it is the
intersection of all answers exactly when no file is matched by some of the
filters only, with a row group in all their answers (`prune_intersects_iff`). -/
import Pdq.Index.Incremental
import Pdq.Provider.Unanswered
import Pdq.Query.Batch
import Pdq.Query.ExactSearch

namespace Pdq

open Theory

set_option autoImplicit false

/-! ## Meeting the answers that are there -/

/-- Meeting only the answers that hold something is meeting all of them exactly when
an empty answer never stands beside others with a common member. -/
theorem meet_nonempty_answers_iff {F G : Type} {filters : List F} (nonempty : filters ≠ [])
    (found : F → G → Prop) :
    (∀ g, ((∃ filter ∈ filters, ∃ g', found filter g') ∧
        ∀ filter ∈ filters, (∃ g', found filter g') → found filter g) ↔
      ∀ filter ∈ filters, found filter g) ↔
    ∀ missing ∈ filters, (∀ g', ¬ found missing g') →
      (∃ filter ∈ filters, ∃ g', found filter g') →
        ∀ g, ∃ filter ∈ filters, (∃ g', found filter g') ∧ ¬ found filter g := by
  constructor
  · intro same missing member nowhere some g
    by_contra all
    push Not at all
    exact nowhere g ((same g).mp ⟨some, all⟩ missing member)
  · intro apart g
    constructor
    · rintro ⟨some, all⟩ filter member
      by_cases somewhere : ∃ g', found filter g'
      · exact all filter member somewhere
      · push Not at somewhere
        obtain ⟨other, inFilters, matched, absent⟩ := apart filter member somewhere some g
        exact absurd (all other inFilters matched) absent
    · intro all
      obtain ⟨filter, member⟩ := List.exists_mem_of_ne_nil filters nonempty
      exact ⟨⟨filter, member, g, all filter member⟩, fun other inFilters _ => all other inFilters⟩

/-! ## What is kept and what is reported -/

section Answers

variable (calculateFileHash : Path → Str) (tree : FileTree) (root : IndexRoot)
  (engine : IndexQueryEngine)

/-- The pruning keeps row group `g` under the hash. -/
def Retains (filters : List Expr) (fileHash : Str) (g : Nat) : Prop :=
  ∃ rowGroups, (pruneWithFstIndex calculateFileHash root engine filters).1.fileRowGroups.lookup
    fileHash = some rowGroups ∧ g ∈ rowGroups

/-- The search of the filter reports row group `g` for the file that is listed under
this hash. -/
def ReportedBy (filter : Expr) (fileHash : Str) (g : Nat) : Prop :=
  ∃ column text, extractEqualityFilter filter = some (column, text) ∧
    ∃ path, engine.fileMap.lookup fileHash = some path ∧ Reports root engine column text path g

/-- Every listed path has that hash, and the file there an FST of the column that is up
to date. -/
def UpToDateFsts (column : Column) : Prop :=
  ∀ fileHash path, engine.fileMap.lookup fileHash = some path →
    calculateFileHash path = fileHash ∧ ∃ file, tree.dataFile? path = some file ∧
      (root.dir fileHash).fst column = some (.valid (columnKeys file.content column))

/-- The pruning is the intersection of the answers of all filters. -/
structure IntersectsAnswers (filters : List Expr) : Prop where
  retained : ∀ fileHash g, Retains calculateFileHash root engine filters fileHash g ↔
    ∀ filter ∈ filters, ReportedBy root engine filter fileHash g
  /-- A file that some filter does not match keeps nothing. -/
  unmatched : ∀ fileHash, (∃ filter ∈ filters, ∀ g, ¬ ReportedBy root engine filter fileHash g) →
    ∀ g, ¬ Retains calculateFileHash root engine filters fileHash g

end Answers

/-- Row group `g` holds a value that the lookup of the filter's text finds. -/
def Expr.FoundIn (filter : Expr) (file : ParquetFile) (g : Nat) : Prop :=
  ∃ column text, extractEqualityFilter filter = some (column, text) ∧
    ∃ v, file.HoldsValue column g v ∧ matchesTerm text v = true

def Expr.Matches (filter : Expr) (file : ParquetFile) : Prop := ∃ g, filter.FoundIn file g

/-- Where some filter does not match the file and others do, no row group is found
by all those that do. -/
def MatchApart (filters : List Expr) (file : ParquetFile) : Prop :=
  ∀ missing ∈ filters, ¬ missing.Matches file → (∃ filter ∈ filters, filter.Matches file) →
    ∀ g, ∃ filter ∈ filters, filter.Matches file ∧ ¬ filter.FoundIn file g

section Intersection

variable {calculateFileHash : Path → Str} {tree : FileTree} {root : IndexRoot}
  {engine : IndexQueryEngine} {column : Column} {text : Str} {filter : Expr}
  {filters : List Expr}

/-- The answer of an up-to-date FST. -/
theorem fileAnswer_upToDate (loads : IndexQueryEngine.Loads root (.new root) engine)
    (upToDate : UpToDateFsts calculateFileHash tree root engine column) {fileHash : Str}
    {path : Path} (mapped : engine.fileMap.lookup fileHash = some path)
    {file : FileTree.DataFile} (found : tree.dataFile? path = some file) (text : Str) :
    engine.fileAnswer root column (fun set => searchSet set text) fileHash =
      .ok (rowGroupsHolding file.content column (matchesTerm text)) := by
  obtain ⟨-, file', found', onDisk⟩ := upToDate fileHash path mapped
  rw [found] at found'
  cases found'
  rw [IndexQueryEngine.fileAnswer, loads.fstFor, IndexQueryEngine.new_fstFor, onDisk]
  exact searchSet_eq_rowGroupsHolding file.content column text

theorem exactSearch_upToDate (loads : IndexQueryEngine.Loads root (.new root) engine)
    (upToDate : UpToDateFsts calculateFileHash tree root engine column) (text : Str) :
    ∃ results, (engine.exactSearch root column text).1 = .ok results := by
  cases searched : (engine.exactSearch root column text).1 with
  | ok results => exact ⟨results, rfl⟩
  | error e =>
      obtain ⟨fileHash, member, e', failed⟩ :=
        IndexQueryEngine.exactSearch_error_iff.mp ⟨e, searched⟩
      obtain ⟨path, mapped⟩ := FiniteMap.mem_iff_lookup.mp member
      obtain ⟨-, file, found, -⟩ := upToDate fileHash path mapped
      rw [fileAnswer_upToDate loads upToDate mapped found] at failed
      cases failed

theorem foundIn_iff (extracted : extractEqualityFilter filter = some (column, text))
    {file : ParquetFile} {g : Nat} :
    filter.FoundIn file g ↔ g ∈ rowGroupsHolding file column (matchesTerm text) := by
  rw [mem_rowGroupsHolding]
  constructor
  · rintro ⟨column', text', extracted', held⟩
    rw [extracted] at extracted'
    cases extracted'
    exact held
  · intro held
    exact ⟨column, text, extracted, held⟩

/-- **What a filter reports of a file** are the row groups it is found in. -/
theorem reportedBy_iff (loads : IndexQueryEngine.Loads root (.new root) engine)
    (extracted : extractEqualityFilter filter = some (column, text))
    (upToDate : UpToDateFsts calculateFileHash tree root engine column) {fileHash : Str}
    {path : Path} (mapped : engine.fileMap.lookup fileHash = some path)
    {file : FileTree.DataFile} (found : tree.dataFile? path = some file) (g : Nat) :
    ReportedBy root engine filter fileHash g ↔ filter.FoundIn file.content g := by
  have answered := fileAnswer_upToDate loads upToDate mapped found text
  have reports := reports_iff (exactSearch_upToDate loads upToDate text) path g
  rw [foundIn_iff extracted]
  constructor
  · rintro ⟨column', text', extracted', path', mapped', reported⟩
    rw [extracted] at extracted'
    cases extracted'
    rw [mapped] at mapped'
    cases mapped'
    obtain ⟨other, listed, rowGroups, answered', member⟩ := reports.mp reported
    -- No other entry is listed under the path: its hash is that of the path.
    obtain rfl : other = fileHash :=
      (upToDate other path listed).1.symm.trans (upToDate fileHash path mapped).1
    rw [answered] at answered'
    rwa [Except.ok.inj answered']
  · intro member
    exact ⟨column, text, extracted, path, mapped,
      reports.mpr ⟨fileHash, mapped, _, answered, member⟩⟩

/-- The match a filter contributes under the hash of a file, if any, lists the row
groups it is found in. -/
theorem filterMatches_of_hash (loads : IndexQueryEngine.Loads root (.new root) engine)
    (extracted : extractEqualityFilter filter = some (column, text))
    (upToDate : UpToDateFsts calculateFileHash tree root engine column) {fileHash : Str}
    {path : Path} (mapped : engine.fileMap.lookup fileHash = some path)
    {file : FileTree.DataFile} (found : tree.dataFile? path = some file)
    {fileMatch : FileMatches} :
    fileMatch ∈ filterMatches root engine filter ∧
        calculateFileHash fileMatch.filePath = fileHash ↔
      fileMatch = ⟨path, rowGroupsHolding file.content column (matchesTerm text)⟩ ∧
        filter.Matches file.content := by
  have answered := fileAnswer_upToDate loads upToDate mapped found text
  have nonempty : rowGroupsHolding file.content column (matchesTerm text) ≠ [] ↔
      filter.Matches file.content := by
    simp only [Expr.Matches, foundIn_iff extracted, ne_eq, List.eq_nil_iff_forall_not_mem,
      not_forall, not_not]
  rw [mem_filterMatches_iff]
  constructor
  · rintro ⟨⟨column', text', extracted', -, fileHash', mapped', answered', some⟩, named⟩
    rw [extracted] at extracted'
    cases extracted'
    have same : fileHash' = fileHash := (upToDate fileHash' _ mapped').1.symm.trans named
    subst same
    obtain ⟨filePath, rowGroups⟩ := fileMatch
    rw [mapped] at mapped'
    rw [answered] at answered'
    obtain rfl := Option.some.inj mapped'
    obtain rfl := Except.ok.inj answered'
    exact ⟨rfl, nonempty.mp some⟩
  · rintro ⟨rfl, matched⟩
    exact ⟨⟨column, text, extracted, exactSearch_upToDate loads upToDate text, fileHash, mapped,
      answered, nonempty.mpr matched⟩, (upToDate fileHash path mapped).1⟩

/-- Nothing is kept under a hash that the file map does not have. -/
theorem not_retains_of_not_mem (names : NamesPaths calculateFileHash engine) {fileHash : Str}
    (absent : engine.fileMap.lookup fileHash = none) (g : Nat) :
    ¬ Retains calculateFileHash root engine filters fileHash g := by
  rintro ⟨rowGroups, left, -⟩
  obtain ⟨⟨path, mapped, -⟩, -⟩ := pruned_sound names left
  rw [absent] at mapped
  cases mapped

/-- **What is kept of a file**: the row groups found by all the filters that match
it, when there are any. -/
theorem retains_iff (loads : IndexQueryEngine.Loads root (.new root) engine)
    (indexed : ∀ filter ∈ filters, ∃ column value, filter.IsEquality column value ∧
      UpToDateFsts calculateFileHash tree root engine column)
    {fileHash : Str} {path : Path} (mapped : engine.fileMap.lookup fileHash = some path)
    {file : FileTree.DataFile} (found : tree.dataFile? path = some file) (g : Nat) :
    Retains calculateFileHash root engine filters fileHash g ↔
      (∃ filter ∈ filters, filter.Matches file.content) ∧
        ∀ filter ∈ filters, filter.Matches file.content → filter.FoundIn file.content g := by
  have meets : FiniteMap.Meets _ fileHash
      ((pruneWithFstIndex calculateFileHash root engine filters).1.fileRowGroups.lookup fileHash) :=
    pruned_meets engine filters fileHash
  have matches_ : ∀ filter ∈ filters, ∃ column text,
      extractEqualityFilter filter = some (column, text) ∧
      ∀ fileMatch, fileMatch ∈ filterMatches root engine filter ∧
          calculateFileHash fileMatch.filePath = fileHash ↔
        fileMatch = ⟨path, rowGroupsHolding file.content column (matchesTerm text)⟩ ∧
          filter.Matches file.content := by
    intro filter member
    obtain ⟨column, value, equality, upToDate⟩ := indexed filter member
    have extracted := extractEqualityFilter_iff.mpr ⟨value, equality, rfl⟩
    exact ⟨column, value.display, extracted,
      fun _ => filterMatches_of_hash loads extracted upToDate mapped found⟩
  rw [Retains, meets.mem_iff g]
  simp only [List.mem_map, List.mem_flatMap]
  constructor
  · rintro ⟨⟨_, ⟨fileMatch, ⟨filter, member, matched⟩, rfl⟩, named⟩, all⟩
    obtain ⟨_, _, _, here⟩ := matches_ filter member
    refine ⟨⟨filter, member, ((here fileMatch).mp ⟨matched, named⟩).2⟩, ?_⟩
    intro other inFilters otherMatches
    obtain ⟨column, text, extracted, there⟩ := matches_ other inFilters
    obtain ⟨contributed, same⟩ := (there _).mpr ⟨rfl, otherMatches⟩
    rw [foundIn_iff extracted, ← SortedSet.mem_ofList]
    exact all _ ⟨_, ⟨other, inFilters, contributed⟩, rfl⟩ same
  · rintro ⟨⟨filter, member, matched⟩, all⟩
    obtain ⟨_, _, _, here⟩ := matches_ filter member
    obtain ⟨contributed, same⟩ := (here _).mpr ⟨rfl, matched⟩
    refine ⟨⟨_, ⟨_, ⟨filter, member, contributed⟩, rfl⟩, same⟩, ?_⟩
    rintro _ ⟨fileMatch, ⟨other, inFilters, inMatches⟩, rfl⟩ named
    obtain ⟨column, text, extracted, there⟩ := matches_ other inFilters
    obtain ⟨rfl, otherMatches⟩ := (there fileMatch).mp ⟨inMatches, named⟩
    rw [SortedSet.mem_ofList, ← foundIn_iff extracted]
    exact all other inFilters otherMatches

/-- Of one listed file, what is kept is what all the filters report exactly when the
filters match it apart. -/
theorem retained_iff_matchApart (loads : IndexQueryEngine.Loads root (.new root) engine)
    (nonempty : filters ≠ [])
    (indexed : ∀ filter ∈ filters, ∃ column value, filter.IsEquality column value ∧
      UpToDateFsts calculateFileHash tree root engine column)
    {fileHash : Str} {path : Path} (mapped : engine.fileMap.lookup fileHash = some path)
    {file : FileTree.DataFile} (found : tree.dataFile? path = some file) :
    (∀ g, Retains calculateFileHash root engine filters fileHash g ↔
        ∀ filter ∈ filters, ReportedBy root engine filter fileHash g) ↔
      MatchApart filters file.content := by
  have reported : ∀ g, ∀ filter ∈ filters,
      (ReportedBy root engine filter fileHash g ↔ filter.FoundIn file.content g) := by
    intro g filter member
    obtain ⟨column, value, equality, upToDate⟩ := indexed filter member
    exact reportedBy_iff loads (extractEqualityFilter_iff.mpr ⟨value, equality, rfl⟩) upToDate
      mapped found g
  have answers : ∀ g, (∀ filter ∈ filters, ReportedBy root engine filter fileHash g) ↔
      ∀ filter ∈ filters, filter.FoundIn file.content g :=
    fun g => forall₂_congr (reported g)
  simp only [retains_iff loads indexed mapped found, answers]
  unfold MatchApart Expr.Matches
  simp only [not_exists]
  exact meet_nonempty_answers_iff nonempty fun filter => filter.FoundIn file.content

/-- **The pruning is the intersection of all answers exactly when** every file is
matched apart. -/
theorem prune_intersects_iff (loads : IndexQueryEngine.Loads root (.new root) engine)
    (nonempty : filters ≠ [])
    (indexed : ∀ filter ∈ filters, ∃ column value, filter.IsEquality column value ∧
      UpToDateFsts calculateFileHash tree root engine column) :
    IntersectsAnswers calculateFileHash root engine filters ↔
      ∀ fileHash path file, engine.fileMap.lookup fileHash = some path →
        tree.dataFile? path = some file → MatchApart filters file.content := by
  obtain ⟨some, inFilters⟩ := List.exists_mem_of_ne_nil filters nonempty
  obtain ⟨column, value, -, upToDate⟩ := indexed some inFilters
  constructor
  · intro intersects fileHash path file mapped found
    exact (retained_iff_matchApart loads nonempty indexed mapped found).mp
      (intersects.retained fileHash)
  · intro apart
    have retained : ∀ fileHash g, Retains calculateFileHash root engine filters fileHash g ↔
        ∀ filter ∈ filters, ReportedBy root engine filter fileHash g := by
      intro fileHash
      cases mapped : engine.fileMap.lookup fileHash with
      | some path =>
          obtain ⟨-, file, found, -⟩ := upToDate fileHash path mapped
          exact (retained_iff_matchApart loads nonempty indexed mapped found).mpr
            (apart fileHash path file mapped found)
      | none =>
          have names : NamesPaths calculateFileHash engine :=
            fun fileHash path mapped => (upToDate fileHash path mapped).1
          intro g
          refine iff_of_false (not_retains_of_not_mem names mapped g) fun all => ?_
          obtain ⟨-, -, -, path, mapped', -⟩ := all some inFilters
          rw [mapped] at mapped'
          cases mapped'
    refine ⟨retained, fun fileHash ⟨filter, member, unreported⟩ g kept => ?_⟩
    exact unreported g ((retained fileHash g).mp kept filter member)

end Intersection

/-! ## Two filters on one file -/

/-- The file of Alice in Paris, indexed by name and by city. -/
def twoColumnRoot : IndexRoot :=
  .indexed (.indexed ∅ samplePath alice sampleColumn) samplePath alice cityColumn

theorem fileMap_twoColumn {fileHash : Str} {path : Path}
    (mapped : (IndexQueryEngine.new twoColumnRoot).fileMap.lookup fileHash = some path) :
    fileHash = sampleHash samplePath ∧ path = samplePath := by
  have listed := FiniteMap.mem_entries_iff.mpr mapped
  have entries : (IndexQueryEngine.new twoColumnRoot).fileMap.entries =
      [⟨sampleHash samplePath, samplePath⟩] := by decide
  rw [entries, List.mem_singleton] at listed
  cases listed
  exact ⟨rfl, rfl⟩

theorem upToDate_twoColumn {column : Column} (known : column = sampleColumn ∨ column = cityColumn) :
    UpToDateFsts sampleHash (singleTree samplePath alice) twoColumnRoot (.new twoColumnRoot)
      column := by
  intro fileHash path mapped
  obtain ⟨rfl, rfl⟩ := fileMap_twoColumn mapped
  refine ⟨rfl, alice, dataFile_singleTree _ _, ?_⟩
  rcases known with rfl | rfl <;> decide

theorem indexed_twoColumn (name city : Str) :
    ∀ filter ∈ [nameIs name, cityIs city], ∃ column value, filter.IsEquality column value ∧
      UpToDateFsts sampleHash (singleTree samplePath alice) twoColumnRoot (.new twoColumnRoot)
        column := by
  intro filter member
  simp only [List.mem_cons, List.not_mem_nil, or_false] at member
  rcases member with rfl | rfl
  · exact ⟨sampleColumn, _, Or.inl rfl, upToDate_twoColumn (Or.inl rfl)⟩
  · exact ⟨cityColumn, _, Or.inl rfl, upToDate_twoColumn (Or.inr rfl)⟩

/-- Both filters match the file. -/
theorem prune_intersects_sample :
    IntersectsAnswers sampleHash twoColumnRoot (.new twoColumnRoot)
      [nameIs "alice".toList, cityIs "paris".toList] := by
  have both : ∀ filter ∈ [nameIs "alice".toList, cityIs "paris".toList],
      filter.Matches alice.content := by
    intro filter member
    simp only [List.mem_cons, List.not_mem_nil, or_false] at member
    rcases member with rfl | rfl
    · exact ⟨0, (foundIn_iff rfl).mpr (by decide)⟩
    · exact ⟨0, (foundIn_iff rfl).mpr (by decide)⟩
  refine (prune_intersects_iff (.refl _ _) (by simp) (indexed_twoColumn _ _)).mpr ?_
  intro fileHash path file mapped found missing member unmatched
  obtain ⟨-, rfl⟩ := fileMap_twoColumn mapped
  rw [dataFile_singleTree] at found
  cases found
  exact absurd (both missing member) unmatched

/-- Alice is in Paris; asked for Alice in Rome, the file keeps its row group. -/
theorem unmatched_filter_refuted :
    (∀ filter ∈ [nameIs "alice".toList, cityIs "rome".toList], ∃ column value,
        filter.IsEquality column value ∧
        UpToDateFsts sampleHash (singleTree samplePath alice) twoColumnRoot (.new twoColumnRoot)
          column) ∧
      (∀ g, ¬ ReportedBy twoColumnRoot (.new twoColumnRoot) (cityIs "rome".toList)
        (sampleHash samplePath) g) ∧
      Retains sampleHash twoColumnRoot (.new twoColumnRoot)
        [nameIs "alice".toList, cityIs "rome".toList] (sampleHash samplePath) 0 ∧
      ¬ IntersectsAnswers sampleHash twoColumnRoot (.new twoColumnRoot)
        [nameIs "alice".toList, cityIs "rome".toList] := by
  have kept : Retains sampleHash twoColumnRoot (.new twoColumnRoot)
      [nameIs "alice".toList, cityIs "rome".toList] (sampleHash samplePath) 0 :=
    ⟨SortedSet.ofList [0], by decide, by decide⟩
  have unreported : ∀ g, ¬ ReportedBy twoColumnRoot (.new twoColumnRoot) (cityIs "rome".toList)
      (sampleHash samplePath) g := by
    intro g reported
    have mapped : (IndexQueryEngine.new twoColumnRoot).fileMap.lookup (sampleHash samplePath) =
        some samplePath := by decide
    have found := (reportedBy_iff (.refl _ _) rfl (upToDate_twoColumn (Or.inr rfl)) mapped
      (dataFile_singleTree _ _) g).mp reported
    have extracted : extractEqualityFilter (cityIs "rome".toList) =
        some (cityColumn, "rome".toList) := rfl
    have nowhere : rowGroupsHolding alice.content cityColumn (matchesTerm "rome".toList) = [] := by
      decide
    rw [foundIn_iff extracted, nowhere] at found
    exact absurd found List.not_mem_nil
  exact ⟨indexed_twoColumn _ _, unreported, kept, fun intersects =>
    intersects.unmatched _ ⟨_, by simp, unreported⟩ 0 kept⟩

end Pdq
