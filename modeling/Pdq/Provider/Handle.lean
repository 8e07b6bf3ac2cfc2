/- Pdq.Provider.Handle -- a query over an index that has grown since.

A table provider is made once and asked again and again, by a filter that compares a
column with a string.  What its engine knows decides the answer: the rows that satisfy
the filter, of the files on record when it was made that are indexed by the column now
(`Knows.scan`).  A file indexed since is not read, and neither is one that is indexed
by other columns only. -/
import Pdq.Provider.Execute
import Pdq.Query.Handle

namespace Pdq

open Theory

set_option autoImplicit false

/-- The rows of the file at a path. -/
def rowsAt (tree : FileTree) (path : Path) : List Row :=
  match tree.openParquet path with
  | .ok file => file.rows
  | .error _ => []

section Knows

variable {calculateFileHash : Path → Str} {tree : FileTree} {known : Set Path}
  {columns : Set Column} {visited : Path → Column → Prop} {root : IndexRoot}
  {engine : IndexQueryEngine} {column : Column} {filter : Expr} {type : StringType} {term : Str}
  {semantics : FilterSemantics}

theorem Knows.names (knows : Knows calculateFileHash tree columns visited known root engine) :
    NamesPaths calculateFileHash engine := fun fileHash path mapped =>
  ((knows.mapped fileHash path).mp mapped).2

theorem Knows.unique (knows : Knows calculateFileHash tree columns visited known root engine)
    {path path' : Path} (member : path ∈ known) (member' : path' ∈ known)
    (same : calculateFileHash path = calculateFileHash path') : path = path' := by
  have mapped := (knows.mapped _ _).mpr ⟨member, rfl⟩
  rw [same, (knows.mapped _ _).mpr ⟨member', rfl⟩] at mapped
  exact (Option.some.inj mapped).symm

/-- **The matches of the filter**: the known files that are indexed by the column. -/
theorem Knows.mem_filterMatches
    (knows : Knows calculateFileHash tree columns visited known root engine)
    (inColumns : column ∈ columns)
    (equality : filter.IsEquality column (.string type (some term))) {fileMatch : FileMatches} :
    fileMatch ∈ filterMatches root engine filter ↔
      fileMatch.filePath ∈ known ∧ visited fileMatch.filePath column ∧
        ∃ file, tree.dataFile? fileMatch.filePath = some file ∧
          fileMatch.rowGroups = rowGroupsHolding file.content column (matchesTerm term) ∧
          fileMatch.rowGroups ≠ [] := by
  have extracted : extractEqualityFilter filter = some (column, term) :=
    extractEqualityFilter_iff.mpr ⟨_, equality, rfl⟩
  have returns : Opens column →
      ∃ results, (engine.exactSearch root column term).1 = .ok results := by
    intro opens
    cases searched : (engine.exactSearch root column term).1 with
    | ok results => exact ⟨results, rfl⟩
    | error e =>
        obtain ⟨fileHash, inMap, e', failed⟩ :=
          IndexQueryEngine.exactSearch_error_iff.mp ⟨e, searched⟩
        obtain ⟨path, mapped⟩ := FiniteMap.mem_iff_lookup.mp inMap
        obtain ⟨member, rfl⟩ := (knows.mapped fileHash path).mp mapped
        obtain ⟨file, found, -⟩ := knows.described path member
        by_cases visit : visited path column
        · rw [knows.fileAnswer_visited member inColumns visit found,
            searchSet_eq_rowGroupsHolding] at failed
          cases failed
        · rw [knows.fileAnswer_unvisited member inColumns opens visit] at failed
          cases failed
  rw [mem_filterMatches_iff, extracted]
  constructor
  · rintro ⟨_, _, same, -, fileHash, mapped, answered, nonempty⟩
    cases same
    obtain ⟨member, rfl⟩ := (knows.mapped fileHash _).mp mapped
    obtain ⟨file, found, -⟩ := knows.described _ member
    have visit := knows.visited_of_answer member inColumns answered nonempty
    rw [knows.fileAnswer_visited member inColumns visit found,
      searchSet_eq_rowGroupsHolding] at answered
    exact ⟨member, visit, file, found, (Except.ok.inj answered).symm, nonempty⟩
  · rintro ⟨member, visit, file, found, listed, nonempty⟩
    refine ⟨column, term, rfl, returns (knows.opens _ _ visit), _,
      (knows.mapped _ _).mpr ⟨member, rfl⟩, ?_, nonempty⟩
    rw [knows.fileAnswer_visited member inColumns visit found, searchSet_eq_rowGroupsHolding,
      listed]

/-- What the pruning leaves is of a known file that is indexed by the column. -/
theorem Knows.of_left (knows : Knows calculateFileHash tree columns visited known root engine)
    (inColumns : column ∈ columns)
    (equality : filter.IsEquality column (.string type (some term))) {fileHash : Str}
    {rowGroups : SortedSet Nat}
    (left : (pruneWithFstIndex calculateFileHash root engine [filter]).1.fileRowGroups.lookup
      fileHash = some rowGroups) :
    ∃ path ∈ known, visited path column ∧ calculateFileHash path = fileHash ∧
      (pruneWithFstIndex calculateFileHash root engine [filter]).1.hashToPath.lookup fileHash =
        some path := by
  obtain ⟨⟨path, mapped, lead⟩, -⟩ := pruned_sound knows.names left
  obtain ⟨member, hashed⟩ := (knows.mapped fileHash path).mp mapped
  have meets : FiniteMap.Meets _ fileHash
      ((pruneWithFstIndex calculateFileHash root engine [filter]).1.fileRowGroups.lookup
        fileHash) := pruned_meets engine [filter] fileHash
  rw [left] at meets
  obtain ⟨⟨_, inAnswers, same⟩, -⟩ := meets
  obtain ⟨fileMatch, matched, rfl⟩ := List.mem_map.mp inAnswers
  rw [List.flatMap_singleton] at matched
  obtain ⟨member', visit, -⟩ := (knows.mem_filterMatches inColumns equality).mp matched
  have spelled := knows.unique member' member (same.trans hashed.symm)
  exact ⟨path, member, spelled ▸ visit, hashed, lead⟩

/-- The pruning keeps every row group with a row that satisfies the filter. -/
theorem Knows.kept (knows : Knows calculateFileHash tree columns visited known root engine)
    (inColumns : column ∈ columns)
    (equality : filter.IsEquality column (.string type (some term))) {path : Path}
    (member : path ∈ known) (visit : visited path column) {file : FileTree.DataFile}
    (found : tree.dataFile? path = some file) (typed : file.content.Utf8Column column) {g : Nat}
    {row : Row} (inGroup : row ∈ file.content.rowsOf g)
    (satisfied : semantics.holds filter row = true) :
    ∃ rowGroups, (pruneWithFstIndex calculateFileHash root engine [filter]).1.fileRowGroups.lookup
      (calculateFileHash path) = some rowGroups ∧ g ∈ rowGroups := by
  obtain ⟨text, same, holds⟩ := holdsValue_of_equality typed equality inGroup satisfied
  cases same
  have listed : g ∈ rowGroupsHolding file.content column (matchesTerm term) :=
    mem_rowGroupsHolding.mpr ⟨term, holds, matchesTerm_iff.mpr (Or.inl rfl)⟩
  refine pruned_mem ⟨filter, List.mem_singleton.mpr rfl, ⟨path, _⟩,
    (knows.mem_filterMatches inColumns equality).mpr ⟨member, visit, file, found, rfl,
      List.ne_nil_of_mem listed⟩, rfl⟩ ?_
  intro other inFilters fileMatch inMatches hashed
  rw [List.mem_singleton.mp inFilters] at inMatches
  obtain ⟨member', -, file', found', same, -⟩ :=
    (knows.mem_filterMatches inColumns equality).mp inMatches
  rw [knows.unique member' member hashed, found] at found'
  cases found'
  rwa [same]

/-- **Per file**, the rows that are read have all that satisfy the filter. -/
theorem Knows.readEntry_eq (knows : Knows calculateFileHash tree columns visited known root engine)
    (inColumns : column ∈ columns)
    (equality : filter.IsEquality column (.string type (some term))) {path : Path}
    (member : path ∈ known) (visit : visited path column)
    (stored : ∀ canonicalPath, tree.canonicalize path = some canonicalPath →
      tree.objectStoreAccepts canonicalPath = true)
    (typed : ∀ file, tree.dataFile? path = some file → file.content.Utf8Column column) :
    (((pruneWithFstIndex calculateFileHash root engine [filter]).1.fileRowGroups.lookup
        (calculateFileHash path)).map fun rowGroups =>
          (readEntry tree engine
            (pruneWithFstIndex calculateFileHash root engine [filter]).1.hashToPath
            (calculateFileHash path) rowGroups).filter (semantics.holds filter)).getD [] =
      (rowsAt tree path).filter (semantics.holds filter) := by
  obtain ⟨file, found, counted, -⟩ := knows.described path member
  rw [rowsAt, FileTree.openParquet_of_dataFile found]
  refine filtered_of_kept (fun rowGroups left => ?_) fun g row inGroup satisfied =>
    knows.kept inColumns equality member visit found (typed file found) inGroup satisfied
  obtain ⟨path', member', -, hashed, lead⟩ := knows.of_left inColumns equality left
  obtain rfl : path' = path := knows.unique member' member hashed
  exact readEntry_of_dataFile lead found counted stored rowGroups

/-- The known files that are indexed by a column can be listed. -/
theorem Knows.exists_files (knows : Knows calculateFileHash tree columns visited known root engine)
    (column : Column) : ∃ files : List Path, files.Nodup ∧
      ∀ path, path ∈ files ↔ path ∈ known ∧ visited path column := by
  classical
  have paths : (engine.fileMap.entries.map Sigma.snd).Nodup :=
    nodup_paths fun fileHash fileHash' path mapped mapped' =>
      (knows.names _ _ mapped).symm.trans (knows.names _ _ mapped')
  refine ⟨(engine.fileMap.entries.map Sigma.snd).filter fun path => decide (visited path column),
    paths.filter _, fun path => ?_⟩
  rw [List.mem_filter, decide_eq_true_eq, List.mem_map]
  refine and_congr_left fun _ => ⟨?_, fun member => ?_⟩
  · rintro ⟨entry, inMap, rfl⟩
    exact ((knows.mapped _ _).mp (FiniteMap.mem_entries_iff.mp inMap)).1
  · exact ⟨⟨calculateFileHash path, path⟩,
      FiniteMap.mem_entries_iff.mpr ((knows.mapped _ _).mpr ⟨member, rfl⟩), rfl⟩

/-- Every file of a plan is a known one, planned as it is. -/
theorem Knows.planned (knows : Knows calculateFileHash tree columns visited known root engine)
    (inColumns : column ∈ columns)
    (equality : filter.IsEquality column (.string type (some term)))
    (stores : ∀ path ∈ known, tree.Stores path) {session : Session} {plan : ScanPlan}
    (returned : (Pdq.scan calculateFileHash session tree root engine [filter]).1 = .ok plan)
    {planned : PartitionedFile} (member : planned ∈ plan.files) :
    ∃ path file, PlannedFrom tree planned path file := by
  rw [scan_files returned] at member
  obtain ⟨entry, inEntries, adds⟩ := List.mem_filterMap.mp member
  obtain ⟨filePath, canonicalPath, totalRgs, lead', resolved, counted, -, -, rfl⟩ :=
    plannedFile_eq_some_iff.mp adds
  obtain ⟨path, inKnown, -, hashed, lead⟩ :=
    knows.of_left inColumns equality (FiniteMap.mem_entries_iff.mp inEntries)
  obtain rfl : path = filePath := Option.some.inj (lead.symm.trans lead')
  obtain ⟨file, found, numbered, -⟩ := knows.described path inKnown
  refine ⟨path, file, found, resolved, ?_, stores path inKnown⟩
  rw [rowGroupCount, ← hashed, numbered] at counted
  cases counted
  exact ParquetAccessPlan.length_ofRowGroups _ _

/-- **A query with what an engine knows** returns the rows that satisfy its filter, of
the files it knows that are indexed by the column now. -/
theorem Knows.scan (knows : Knows calculateFileHash tree columns visited known root engine)
    (inColumns : column ∈ columns)
    (equality : filter.IsEquality column (.string type (some term)))
    (stores : ∀ path ∈ known, tree.Stores path)
    (typed : ∀ path ∈ known, visited path column → ∀ file, tree.dataFile? path = some file →
      file.content.Utf8Column column) {session : Session}
    (accepts : session.createPhysicalExpr [filter] = .ok ()) (semantics : FilterSemantics) :
    ∃ plan rows, (Pdq.scan calculateFileHash session tree root engine [filter]).1 = .ok plan ∧
      collect tree plan = .ok rows ∧ ∃ files : List Path, files.Nodup ∧
        (∀ path, path ∈ files ↔ path ∈ known ∧ visited path column) ∧
        (rows.filter (semantics.holds filter)).Perm
          ((files.flatMap (rowsAt tree)).filter (semantics.holds filter)) := by
  obtain ⟨plan, returned⟩ :
      ∃ plan, (Pdq.scan calculateFileHash session tree root engine [filter]).1 = .ok plan := by
    refine scan_returns accepts fun entry left => ?_
    obtain ⟨path, member, -, hashed, -⟩ :=
      knows.of_left inColumns equality (FiniteMap.mem_entries_iff.mp left)
    obtain ⟨file, -, counted, -⟩ := knows.described path member
    exact ⟨_, hashed ▸ counted⟩
  obtain ⟨files, nodup, members⟩ := knows.exists_files column
  have read := collect_eq fun planned member =>
    knows.planned inColumns equality stores returned member
  refine ⟨plan, _, returned, read, files, nodup, members, ?_⟩
  have hashes : (files.map calculateFileHash).Nodup :=
    nodup.map_on fun path inFiles path' inFiles' same =>
      knows.unique ((members path).mp inFiles).1 ((members path').mp inFiles').1 same
  rw [plannedRows_eq (scan_files returned), List.filter_flatMap, List.filter_flatMap]
  refine (FiniteMap.perm_flatMap_entries _ (fun fileHash rowGroups =>
    (readEntry tree engine (pruneWithFstIndex calculateFileHash root engine [filter]).1.hashToPath
      fileHash rowGroups).filter (semantics.holds filter)) hashes ?_).trans ?_
  · intro fileHash inLeft
    obtain ⟨rowGroups, left⟩ := FiniteMap.mem_iff_lookup.mp inLeft
    obtain ⟨path, member, visit, hashed, -⟩ := knows.of_left inColumns equality left
    exact List.mem_map.mpr ⟨path, (members path).mpr ⟨member, visit⟩, hashed⟩
  · rw [List.flatMap_map]
    refine List.Perm.of_eq (List.flatMap_congr fun path inFiles => ?_)
    obtain ⟨member, visit⟩ := (members path).mp inFiles
    exact knows.readEntry_eq inColumns equality member visit
      (fun canonicalPath resolved => (stores path member canonicalPath resolved).1)
      (typed path member visit)

end Knows

end Pdq
