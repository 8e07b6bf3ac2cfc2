/- Pdq.Query.Maintained -- searches over a maintained index.

An engine that is made over the index directory of a catalogue maps the hash of
each indexed path to the path, and the FSTs it reads were written from the content
the catalogue has (`Maintains.fst_content`).  So a search answers as the catalogue
does (`search_of_maintains`). -/
import Pdq.Index.Convergence
import Pdq.Index.Maintenance
import Pdq.Query.Handle

namespace Pdq

open Theory KeyFormat

set_option autoImplicit false

/-- The files and row groups a report names. -/
def namedPairs (results : List FileMatches) : Set (Path × Nat) :=
  {pair | ∃ fileMatch ∈ results, fileMatch.filePath = pair.1 ∧ pair.2 ∈ fileMatch.rowGroups}

/-- Read all that is indexed by the column. -/
def Catalogue.finds (catalogue : Catalogue) (column : Column) (request : SearchRequest) :
    Set (Path × Nat) :=
  {pair | ∃ file, catalogue.snapshot pair.1 column = some file ∧
    ∃ v, file.HoldsValue column pair.2 v ∧ request.selects v = true}

/-! ## A search over a maintained index -/

section Maintained

variable {calculateFileHash : Path → Str} {history : Path → Set FileTree.DataFile}
  {paths : Set Path} {columns : Set Column} {world : World} {catalogue : Catalogue}
  {column : Column}

/-- What a new engine takes from a sub-directory. -/
theorem Maintains.mapEntry
    (maintains : Maintains calculateFileHash history paths columns world catalogue)
    (noFeed : ∀ path ∈ paths, ¬ '\n' ∈ path) {fileHash : Str} {indexDir : IndexDir}
    (present : world.root.lookup fileHash = some indexDir) :
    ∃ path ∈ paths, calculateFileHash path = fileHash ∧
      ∃ count, indexDir.mapEntry fileHash = (path, some count) := by
  obtain ⟨path, member, hashed, selected, file, -, written⟩ :=
    maintains.versions fileHash indexDir present
  have one : OneLine path := oneLine_of_hasParquetExtension selected (noFeed path member)
  refine ⟨path, member, hashed, file.content.numRowGroups, ?_⟩
  rw [IndexDir.mapEntry_recorded one written,
    parseUnsigned_decimal (n := file.content.numRowGroups) file.content.fits]

/-- The engine maps the hash of an indexed path to the path. -/
theorem fileMap_of_maintains (distinct : Set.InjOn calculateFileHash paths)
    (noFeed : ∀ path ∈ paths, ¬ '\n' ∈ path)
    (maintains : Maintains calculateFileHash history paths columns world catalogue) {path : Path}
    (inColumns : column ∈ columns) {file : ParquetFile}
    (held : catalogue.snapshot path column = some file) :
    (IndexQueryEngine.new world.root).fileMap.lookup (calculateFileHash path) = some path := by
  obtain ⟨member, -⟩ := maintains.inside path column file held
  have fst := maintains.fst path member column inColumns
  rw [held, Option.map_some] at fst
  obtain ⟨indexDir, present, -⟩ := IndexRoot.lookup_of_fst fst
  obtain ⟨path', member', hashed, count, entry⟩ := maintains.mapEntry noFeed present
  obtain rfl := distinct member' member hashed
  rw [IndexQueryEngine.new_fileMap, present, Option.map_some, entry]

open Classical in
/-- The content each FST was written from. -/
noncomputable def Catalogue.content (calculateFileHash : Path → Str) (paths : Set Path)
    (catalogue : Catalogue) : IndexedContent := fun fileHash column =>
  if ∃ path ∈ paths, calculateFileHash path = fileHash then
    catalogue.snapshot (Function.invFunOn calculateFileHash paths fileHash) column
  else none

theorem content_hash (distinct : Set.InjOn calculateFileHash paths) {path : Path}
    (member : path ∈ paths) (column : Column) :
    catalogue.content calculateFileHash paths (calculateFileHash path) column =
      catalogue.snapshot path column := by
  rw [Catalogue.content, if_pos ⟨path, member, rfl⟩, distinct.leftInvOn_invFunOn member]

theorem exists_of_content {column : Column} {fileHash : Str} {file : ParquetFile}
    (held : catalogue.content calculateFileHash paths fileHash column = some file) :
    ∃ path ∈ paths, calculateFileHash path = fileHash := by
  by_contra unknown
  rw [Catalogue.content, if_neg unknown] at held
  cases held

/-- No FST is under the hash of a path that was not walked. -/
theorem Maintains.fst_unknown
    (maintains : Maintains calculateFileHash history paths columns world catalogue)
    {fileHash : Str} (unknown : ¬ ∃ path ∈ paths, calculateFileHash path = fileHash)
    (column : Column) : (world.root.dir fileHash).fst column = none := by
  rw [IndexRoot.dir]
  cases present : world.root.lookup fileHash with
  | none => exact IndexDir.fst_empty column
  | some indexDir =>
      obtain ⟨path, member, hashed, -⟩ := maintains.records fileHash indexDir present
      exact absurd ⟨path, member, hashed⟩ unknown

/-- **The FSTs of a maintained index directory are written from what the catalogue
knows.** -/
theorem Maintains.fst_content (distinct : Set.InjOn calculateFileHash paths)
    (maintains : Maintains calculateFileHash history paths columns world catalogue)
    (inColumns : column ∈ columns) (fileHash : Str) :
    (world.root.dir fileHash).fst column =
      (catalogue.content calculateFileHash paths fileHash column).map
        fun file => .valid (columnKeys file column) := by
  by_cases known : ∃ path ∈ paths, calculateFileHash path = fileHash
  · obtain ⟨path, member, rfl⟩ := known
    rw [content_hash distinct member, maintains.fst path member column inColumns]
  · rw [Catalogue.content, if_neg known, maintains.fst_unknown known column, Option.map_none]

/-- Under whatever column an FST is read, it was written from some content. -/
theorem Maintains.written
    (maintains : Maintains calculateFileHash history paths columns world catalogue) :
    ∃ content, WrittenFrom world.root content := by
  have each : ∀ fileHash column, ∃ content : Option ParquetFile,
      (world.root.dir fileHash).fst column =
        content.map fun file => .valid (columnKeys file column) := by
    intro fileHash column
    by_cases known : ∃ path ∈ paths, calculateFileHash path = fileHash
    · obtain ⟨path, member, rfl⟩ := known
      by_cases shared : ∃ other ∈ columns, fstFile other = fstFile column
      · obtain ⟨other, inColumns, same⟩ := shared
        refine ⟨(catalogue.snapshot path other).map fun file => file.columnAs other column, ?_⟩
        rw [← IndexDir.fst_congr _ same, maintains.fst path member other inColumns,
          Option.map_map]
        simp only [Function.comp_def, columnKeys_columnAs]
      · refine ⟨none, maintains.noOther path member column fun other inColumns same => ?_⟩
        exact shared ⟨other, inColumns, same.symm⟩
    · exact ⟨none, maintains.fst_unknown known column⟩
  choose content written using each
  exact ⟨content, written⟩

/-- **A search over a maintained index answers as the catalogue does.** -/
theorem search_of_maintains (distinct : Set.InjOn calculateFileHash paths)
    (noFeed : ∀ path ∈ paths, ¬ '\n' ∈ path)
    (nulFree : ∀ path, ∀ file ∈ history path, NulFree file.content column)
    (maintains : Maintains calculateFileHash history paths columns world catalogue)
    (inColumns : column ∈ columns) (opens : Opens column) {request : SearchRequest}
    (clean : request.Clean) :
    (request.run world.root (.new world.root) column).1.map namedPairs =
      .ok (catalogue.finds column request) := by
  obtain ⟨results, ok, members⟩ := SearchRequest.run_of_content clean opens
    (maintains.fst_content distinct inColumns)
    (fun fileHash file held => by
      obtain ⟨path, member, rfl⟩ := exists_of_content held
      rw [content_hash distinct member] at held
      obtain ⟨-, data, inHistory, rfl⟩ := maintains.inside path column file held
      exact nulFree path data inHistory)
  rw [ok]
  refine congrArg Except.ok (Set.ext fun pair => ?_)
  obtain ⟨path, g⟩ := pair
  refine (members path g).trans ?_
  simp only [Catalogue.finds, Set.mem_ofPred_eq, mem_rowGroupsHolding]
  constructor
  · rintro ⟨fileHash, mapped, file, held, holds⟩
    obtain ⟨path', member, rfl⟩ := exists_of_content held
    rw [content_hash distinct member] at held
    rw [fileMap_of_maintains distinct noFeed maintains inColumns held] at mapped
    cases mapped
    exact ⟨file, held, holds⟩
  · rintro ⟨file, held, holds⟩
    refine ⟨calculateFileHash path, fileMap_of_maintains distinct noFeed maintains inColumns held,
      file, ?_,
      holds⟩
    rw [content_hash distinct (maintains.inside path column file held).1, held]

end Maintained

/-! ## A search over an index of files that stay -/

section Leaves

variable {calculateFileHash : Path → Str} {tree : FileTree} {paths : Set Path}
  {columns : Set Column} {visited : Path → Column → Prop} {root : IndexRoot} {column : Column}

/-- The content an FST was written from, when it was visited. -/
theorem Leaves.content (own : OwnFiles columns)
    (leaves : Leaves calculateFileHash tree paths visited root)
    (within : ∀ path column, visited path column → column ∈ columns)
    (distinct : Set.InjOn calculateFileHash paths) (inColumns : column ∈ columns)
    (fileHash : Str) :
    ∃ content : Option ParquetFile,
      (root.dir fileHash).fst column = content.map (fun file => .valid (columnKeys file column)) ∧
      ∀ path ∈ paths, calculateFileHash path = fileHash → ∀ file, content = some file ↔
        visited path column ∧ ∃ data, tree.dataFile? path = some data ∧ data.content = file := by
  by_cases known : ∃ path, visited path column ∧ calculateFileHash path = fileHash
  · obtain ⟨path, visit, rfl⟩ := known
    obtain ⟨data, found, -, keys⟩ := leaves.covered path column visit
    refine ⟨some data.content, keys, fun path' member hashed file => ?_⟩
    obtain rfl := distinct member (leaves.inside path column visit) hashed
    simp only [visit, true_and, found, Option.some.injEq, exists_eq_left']
  · refine ⟨none, ?_, fun path _ hashed file => ?_⟩
    · by_cases other : ∃ path column', visited path column' ∧ calculateFileHash path = fileHash
      · obtain ⟨path, column', visit, rfl⟩ := other
        refine Option.eq_none_iff_forall_ne_some.mpr fun fst held => known ⟨path, ?_, rfl⟩
        obtain ⟨data, found, -⟩ := leaves.covered path column' visit
        exact ((leaves.fst_iff own within (leaves.inside path column' visit) found inColumns
          fst).mp held).1
      · rw [IndexRoot.dir, leaves.absent other]
        exact IndexDir.fst_empty column
    · constructor
      · intro held
        cases held
      · rintro ⟨visit, -⟩
        exact absurd ⟨path, visit, hashed⟩ known

/-- Whatever was indexed by several calls was written from something. -/
theorem writtenFrom_of_buildAll {calls : List BuildCall}
    (ok : buildAll calculateFileHash tree ∅ calls = .ok root) :
    ∃ content, WrittenFrom root content :=
  foldlM_ok_invariant (fun now => ∃ content, WrittenFrom now content)
    (fun _ _ _ _ held build => by
      obtain ⟨content, written⟩ := held
      exact written.buildIndexExt build)
    ⟨_, writtenFrom_empty⟩ ok

/-- **A search over an index of files that stay** reads all that was indexed. -/
theorem search_of_leaves (own : OwnFiles columns) (oneLine : ∀ path ∈ paths, OneLine path)
    (nulFree : ∀ path ∈ paths, ∀ file, tree.dataFile? path = some file →
      NulFree file.content column)
    (leaves : Leaves calculateFileHash tree paths visited root)
    (within : ∀ path column, visited path column → column ∈ columns)
    (inColumns : column ∈ columns) (opens : Opens column) {request : SearchRequest}
    (clean : request.Clean) :
    (request.run root (.new root) column).1.map namedPairs =
      .ok {pair | visited pair.1 column ∧ ∃ file, tree.dataFile? pair.1 = some file ∧
        ∃ v, file.content.HoldsValue column pair.2 v ∧ request.selects v = true} := by
  obtain ⟨results, found, -, members⟩ := (knows_new own oneLine leaves within).search
    inColumns opens (fun path _ visit file => nulFree path (leaves.inside path column visit) file)
    clean
  rw [found]
  refine congrArg Except.ok (Set.ext fun pair => mem_matchRows.symm.trans ?_)
  refine (members pair.1 pair.2).trans ⟨And.right, fun both => ⟨⟨column, both.1⟩, both⟩⟩

end Leaves

end Pdq
