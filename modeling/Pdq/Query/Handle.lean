/- Pdq.Query.Handle -- an engine over an index that has grown since it was made.

An engine lists the index directory once, and loads an FST when a lookup first
needs it.  While files and FSTs are only added, it `Knows` the files on record when
it was made, and of each of them every column indexed by now (`Knows.later`).  A
search with it reports those and no more, each row group once (`Knows.search`).  The
columns have FST files of their own. -/
import Pdq.Index.Convergence
import Pdq.Query.SearchRequest

namespace Pdq

open Theory KeyFormat

set_option autoImplicit false

/-! ## What a search reports, row by row -/

/-- The files and row groups of a report, in order. -/
def matchRows (results : List FileMatches) : List (Path × Nat) :=
  results.flatMap fun fileMatch => fileMatch.rowGroups.map fun g => (fileMatch.filePath, g)

theorem mem_matchRows {results : List FileMatches} {path : Path} {g : Nat} :
    (path, g) ∈ matchRows results ↔
      ∃ fileMatch ∈ results, fileMatch.filePath = path ∧ g ∈ fileMatch.rowGroups := by
  simp only [matchRows, List.mem_flatMap, List.mem_map, Prod.mk.injEq]
  constructor
  · rintro ⟨fileMatch, member, _, listed, rfl, rfl⟩
    exact ⟨fileMatch, member, rfl, listed⟩
  · rintro ⟨fileMatch, member, rfl, listed⟩
    exact ⟨fileMatch, member, g, listed, rfl, rfl⟩

theorem matchRows_reported (fileMap : FiniteMap Str Path) (answer : Str → List Nat) :
    matchRows (reported fileMap answer) =
      fileMap.entries.flatMap fun entry => (answer entry.1).map fun g => (entry.2, g) := by
  rw [matchRows, reported, List.filterMap_eq_flatMap_toList, List.flatMap_assoc]
  refine List.flatMap_congr fun entry _ => ?_
  cases answer entry.1 <;> simp

/-- No path is twice in a map that leads to it from one hash only. -/
theorem nodup_paths {fileMap : FiniteMap Str Path}
    (distinct : ∀ fileHash fileHash' path, fileMap.lookup fileHash = some path →
      fileMap.lookup fileHash' = some path → fileHash = fileHash') :
    (fileMap.entries.map Sigma.snd).Nodup := by
  have entries : fileMap.entries.Nodup := .of_map _ fileMap.nodupKeys
  refine entries.map_on fun entry member entry' member' same => ?_
  have mapped := FiniteMap.mem_entries_iff.mp member
  have mapped' := FiniteMap.mem_entries_iff.mp member'
  rw [← same] at mapped'
  exact Sigma.ext (distinct _ _ _ mapped mapped') (heq_of_eq same)

/-- No row is reported twice either. -/
theorem nodup_matchRows {fileMap : FiniteMap Str Path} {answer : Str → List Nat}
    (once : ∀ fileHash, (answer fileHash).Nodup)
    (distinct : ∀ fileHash fileHash' path, fileMap.lookup fileHash = some path →
      fileMap.lookup fileHash' = some path → fileHash = fileHash') :
    (matchRows (reported fileMap answer)).Nodup := by
  rw [matchRows_reported, List.nodup_flatMap]
  constructor
  · exact fun entry _ => (once entry.1).map fun _ _ same => congrArg Prod.snd same
  · refine (List.pairwise_map.mp (nodup_paths distinct)).imp fun {entry entry'} ne => ?_
    rintro ⟨path, g⟩ here there
    obtain ⟨_, _, same⟩ := List.mem_map.mp here
    obtain ⟨_, _, same'⟩ := List.mem_map.mp there
    exact ne ((congrArg Prod.fst same).trans (congrArg Prod.fst same').symm)

/-! ## What an engine knows -/

section Knows

variable {calculateFileHash : Path → Str} {tree tree' : FileTree} {paths known : Set Path}
  {columns : Set Column} {visited visited' : Path → Column → Prop} {root root' : IndexRoot}
  {engine : IndexQueryEngine}

/-- The engine knows the files on record when it was made, and by which of the columns
each is indexed now. -/
structure Knows (calculateFileHash : Path → Str) (tree : FileTree) (columns : Set Column)
    (visited : Path → Column → Prop) (known : Set Path) (root : IndexRoot)
    (engine : IndexQueryEngine) : Prop where
  mapped : ∀ fileHash path, engine.fileMap.lookup fileHash = some path ↔
    path ∈ known ∧ calculateFileHash path = fileHash
  described : ∀ path ∈ known, ∃ file, tree.dataFile? path = some file ∧
    engine.numRowGroups (calculateFileHash path) = some file.content.numRowGroups ∧
    ∀ column ∈ columns, ∀ fst, engine.fstFor root (calculateFileHash path) column = some fst ↔
      visited path column ∧ fst = .valid (columnKeys file.content column)
  opens : ∀ path column, visited path column → Opens column

/-- The FSTs of a path, from what it was visited for. -/
theorem Leaves.fst_iff (own : OwnFiles columns)
    (leaves : Leaves calculateFileHash tree paths visited root)
    (within : ∀ path column, visited path column → column ∈ columns) {path : Path}
    (member : path ∈ paths) {file : FileTree.DataFile} (found : tree.dataFile? path = some file)
    {column : Column} (inColumns : column ∈ columns) (fst : FstFile) :
    (root.dir (calculateFileHash path)).fst column = some fst ↔
      visited path column ∧ fst = .valid (columnKeys file.content column) := by
  by_cases visit : visited path column
  · obtain ⟨file', found', -, keys⟩ := leaves.covered path column visit
    cases found.symm.trans found'
    rw [keys, Option.some.injEq, and_iff_right visit, eq_comm]
  · refine iff_of_false (fun held => visit ?_) fun both => visit both.1
    have named : fstFile column ≠ none := IndexDir.named_of_fst (by rw [held]; exact nofun)
    have other : ∃ other, visited path other ∧ fstFile other = fstFile column := by
      by_contra apart
      rw [leaves.noOther path member column fun other visit same => apart ⟨other, visit, same⟩]
        at held
      cases held
    obtain ⟨other, visited', same⟩ := other
    obtain rfl := own.apart column inColumns other (within path other visited') same named
    exact visited'

theorem Leaves.opens (leaves : Leaves calculateFileHash tree paths visited root) {path : Path}
    {column : Column} (visit : visited path column) : Opens column := by
  obtain ⟨_, -, -, keys⟩ := leaves.covered path column visit
  exact IndexDir.opens_of_fst keys

/-- **A new engine knows every file that is indexed by some column.** -/
theorem knows_new (own : OwnFiles columns) (oneLine : ∀ path ∈ paths, OneLine path)
    (leaves : Leaves calculateFileHash tree paths visited root)
    (within : ∀ path column, visited path column → column ∈ columns) :
    Knows calculateFileHash tree columns visited {path | ∃ column, visited path column} root
      (.new root) := by
  -- A visited path has a record, from which the engine takes path and count.
  have recorded : ∀ path column, visited path column → ∃ file indexDir,
      tree.dataFile? path = some file ∧
      root.lookup (calculateFileHash path) = some indexDir ∧
      indexDir.mapEntry (calculateFileHash path) = (path, some file.content.numRowGroups) := by
    intro path column visit
    obtain ⟨file, found, metadata, keys⟩ := leaves.covered path column visit
    obtain ⟨indexDir, present, -⟩ := IndexRoot.lookup_of_fst keys
    rw [IndexRoot.dir_of_lookup present] at metadata
    refine ⟨file, indexDir, found, present, ?_⟩
    rw [IndexDir.mapEntry_recorded (oneLine path (leaves.inside path column visit)) metadata,
      parseUnsigned_decimal (n := file.content.numRowGroups) file.content.fits]
  constructor
  · intro fileHash path
    rw [IndexQueryEngine.new_fileMap]
    constructor
    · intro mapped
      obtain ⟨indexDir, present, named⟩ := Option.map_eq_some_iff.mp mapped
      obtain ⟨path', column, visit, rfl⟩ := leaves.present fileHash indexDir present
      obtain ⟨_, indexDir', -, present', entry⟩ := recorded path' column visit
      cases present.symm.trans present'
      rw [entry] at named
      cases named
      exact ⟨⟨column, visit⟩, rfl⟩
    · rintro ⟨⟨column, visit⟩, rfl⟩
      obtain ⟨_, indexDir, -, present, entry⟩ := recorded path column visit
      rw [present, Option.map_some, entry]
  · rintro path ⟨column, visit⟩
    obtain ⟨file, indexDir, found, present, entry⟩ := recorded path column visit
    refine ⟨file, found, ?_, fun other inColumns fst => ?_⟩
    · rw [IndexQueryEngine.new_numRowGroups, present, Option.bind_some, entry]
    · rw [IndexQueryEngine.new_fstFor]
      exact leaves.fst_iff own within (leaves.inside path column visit) found inColumns fst
  · exact fun path column visit => leaves.opens visit

theorem Knows.loads (knows : Knows calculateFileHash tree columns visited known root engine)
    {engine' : IndexQueryEngine} (loads : IndexQueryEngine.Loads root engine engine') :
    Knows calculateFileHash tree columns visited known root engine' where
  mapped := by
    rw [loads.fileMap]
    exact knows.mapped
  described path member := by
    obtain ⟨file, found, counted, fsts⟩ := knows.described path member
    refine ⟨file, found, ?_, fun column inColumns fst => ?_⟩
    · rwa [IndexQueryEngine.numRowGroups, loads.counts]
    · rw [loads.fstFor]
      exact fsts column inColumns fst
  opens := knows.opens

/-- **What an engine knows, later**: files and FSTs were added meanwhile. -/
theorem Knows.later (own : OwnFiles columns)
    (knows : Knows calculateFileHash tree columns visited known root engine)
    (inside : known ⊆ paths)
    (stays : ∀ path ∈ known, ∀ file, tree.dataFile? path = some file →
      tree'.dataFile? path = some file)
    (more : ∀ path column, visited path column → visited' path column)
    (leaves : Leaves calculateFileHash tree' paths visited' root')
    (within : ∀ path column, visited' path column → column ∈ columns) :
    Knows calculateFileHash tree' columns visited' known root' engine where
  mapped := knows.mapped
  described path member := by
    obtain ⟨file, found, counted, fsts⟩ := knows.described path member
    have found' := stays path member file found
    refine ⟨file, found', counted, fun column inColumns fst => ?_⟩
    have earlier := fsts column inColumns
    unfold IndexQueryEngine.fstFor at earlier ⊢
    cases resident : engine.fstCache.lookup (calculateFileHash path, column) with
    | some set =>
        -- A resident FST was visited before, and is the same.
        simp only [resident] at earlier ⊢
        obtain ⟨visit, same⟩ := (earlier (.valid set)).mp rfl
        rw [Option.some.injEq, and_iff_right (more path column visit), same, eq_comm]
    | none => exact leaves.fst_iff own within (inside member) found' inColumns fst
  opens _ _ visit := leaves.opens visit

/-! ## Searches -/

/-- What a search finds in a known file that is indexed by the column. -/
theorem Knows.fileAnswer_visited
    (knows : Knows calculateFileHash tree columns visited known root engine)
    {path : Path} (member : path ∈ known) {column : Column} (inColumns : column ∈ columns)
    (visit : visited path column) {file : FileTree.DataFile}
    (found : tree.dataFile? path = some file)
    (search : FstSet → Except QueryError (List Nat)) :
    engine.fileAnswer root column search (calculateFileHash path) =
      search (columnKeys file.content column) := by
  obtain ⟨file', found', -, fsts⟩ := knows.described path member
  cases found.symm.trans found'
  rw [IndexQueryEngine.fileAnswer, (fsts column inColumns _).mpr ⟨visit, rfl⟩]

/-- An answer that is not empty is that of a file indexed by the column. -/
theorem Knows.visited_of_answer
    (knows : Knows calculateFileHash tree columns visited known root engine) {path : Path}
    (member : path ∈ known) {column : Column} (inColumns : column ∈ columns)
    {search : FstSet → Except QueryError (List Nat)} {rowGroups : List Nat}
    (answered : engine.fileAnswer root column search (calculateFileHash path) = .ok rowGroups)
    (nonempty : rowGroups ≠ []) : visited path column := by
  obtain ⟨_, -, -, fsts⟩ := knows.described path member
  obtain ⟨set, held, -⟩ := IndexQueryEngine.fst_of_fileAnswer answered nonempty
  exact ((fsts column inColumns _).mp held).1

theorem Knows.fileAnswer_unvisited
    (knows : Knows calculateFileHash tree columns visited known root engine) {path : Path}
    (member : path ∈ known) {column : Column} (inColumns : column ∈ columns)
    (opens : Opens column) (unvisited : ¬ visited path column)
    (search : FstSet → Except QueryError (List Nat)) :
    engine.fileAnswer root column search (calculateFileHash path) = .ok [] := by
  obtain ⟨_, -, -, fsts⟩ := knows.described path member
  have absent : engine.fstFor root (calculateFileHash path) column = none :=
    Option.eq_none_iff_forall_ne_some.mpr fun fst held =>
      unvisited ((fsts column inColumns fst).mp held).1
  simp only [IndexQueryEngine.fileAnswer, absent, opens, if_true]

theorem SearchRequest.run_loads (root : IndexRoot) (engine : IndexQueryEngine) (column : Column)
    (request : SearchRequest) :
    IndexQueryEngine.Loads root engine (request.run root engine column).2 := by
  rw [SearchRequest.run_eq]
  exact IndexQueryEngine.searchFiles_loads root column _ _ engine

/-- **A search with what an engine knows** finds the row groups of the files it knows
that are indexed by the column now, each once. -/
theorem Knows.search (knows : Knows calculateFileHash tree columns visited known root engine)
    {column : Column} (inColumns : column ∈ columns) (opens : Opens column)
    (nulFree : ∀ path ∈ known, visited path column → ∀ file,
      tree.dataFile? path = some file → NulFree file.content column) {request : SearchRequest}
    (clean : request.Clean) :
    ∃ results, (request.run root engine column).1 = .ok results ∧ (matchRows results).Nodup ∧
      ∀ path g, (path, g) ∈ matchRows results ↔ path ∈ known ∧ visited path column ∧
        ∃ file, tree.dataFile? path = some file ∧
          ∃ v, file.content.HoldsValue column g v ∧ request.selects v = true := by
  have answers : ∀ fileHash, ∃ rowGroups : List Nat, rowGroups.Nodup ∧
      ∀ path, engine.fileMap.lookup fileHash = some path →
        engine.fileAnswer root column (fun set => request.searchSet set) fileHash = .ok rowGroups ∧
        ∀ g, g ∈ rowGroups ↔ visited path column ∧ ∃ file, tree.dataFile? path = some file ∧
          ∃ v, file.content.HoldsValue column g v ∧ request.selects v = true := by
    intro fileHash
    cases mapped : engine.fileMap.lookup fileHash with
    | none => exact ⟨[], .nil, fun _ held => nomatch held⟩
    | some path =>
        obtain ⟨member, rfl⟩ := (knows.mapped fileHash path).mp mapped
        obtain ⟨file, found, -⟩ := knows.described path member
        by_cases visit : visited path column
        · refine ⟨rowGroupsHolding file.content column request.selects,
            (rowGroupsHolding_sorted _ _ _).nodup, fun path' same => ?_⟩
          cases same
          rw [knows.fileAnswer_visited member inColumns visit found]
          refine ⟨SearchRequest.searchSet_columnKeys clean (nulFree path member visit file found),
            fun g => ?_⟩
          simp [mem_rowGroupsHolding, visit, found]
        · refine ⟨[], .nil, fun path' same => ?_⟩
          cases same
          exact ⟨knows.fileAnswer_unvisited member inColumns opens visit _,
            fun g => by simp [visit]⟩
  choose rowGroups once answered using answers
  have result : (request.run root engine column).1 = .ok (reported engine.fileMap rowGroups) := by
    rw [SearchRequest.run_eq]
    refine IndexQueryEngine.searchAll_of_answers fun fileHash member => ?_
    obtain ⟨path, mapped⟩ := FiniteMap.mem_iff_lookup.mp member
    exact (answered fileHash path mapped).1
  refine ⟨_, result, nodup_matchRows once fun fileHash fileHash' path mapped mapped' => ?_,
    fun path g => mem_matchRows.trans (mem_reported.trans ?_)⟩
  · exact ((knows.mapped _ _).mp mapped).2.symm.trans ((knows.mapped _ _).mp mapped').2
  · constructor
    · rintro ⟨fileHash, mapped, listed⟩
      exact ⟨((knows.mapped _ _).mp mapped).1, ((answered _ _ mapped).2 g).mp listed⟩
    · rintro ⟨member, visit, holds⟩
      have mapped := (knows.mapped _ _).mpr ⟨member, rfl⟩
      exact ⟨_, mapped, ((answered _ _ mapped).2 g).mpr ⟨visit, holds⟩⟩

end Knows

end Pdq
