/- Pdq.Provider.BruteForce -- a pruned query reads what a full read would.

An index built from nothing over files that do not change mirrors them: every
sub-directory describes one file as it is (`mirrors_of_builtOver`).  A row that
satisfies the filters satisfies the equality on the indexed column, so its row
group is among the matches of that equality, and of every other equality that has
a match in its file; so the pruning keeps it (`pruned_of_satisfying`).  Per file,
the rows of the planned row groups that satisfy the filters are then those of the
file (`readEntry_eq`), and over all files the same rows are read
(`scan_perm_bruteForce`). -/
import Pdq.Provider.Scan
import Pdq.Index.Rebuild

namespace Pdq

open Theory

set_option autoImplicit false

/-! ## Index directories that mirror the files -/

section Mirror

variable (calculateFileHash : Path → Str) (tree : FileTree) (columns : Set Column)

/-- Every sub-directory describes the file of one path as the tree has it, in the columns
given. -/
def Mirrors (paths : List Path) (root : IndexRoot) : Prop :=
  ∀ fileHash indexDir, root.lookup fileHash = some indexDir → ∃ path ∈ paths, ∃ file,
    calculateFileHash path = fileHash ∧ tree.dataFile? path = some file ∧
      indexDir.metadata = some (.text
        (metadataContent path file.mtime file.size file.content.numRowGroups)) ∧
      ∀ column ∈ columns, ∀ fst, indexDir.fst column = some fst →
        fst = .valid (columnKeys file.content column)

/-- The column of the file at `path` is indexed. -/
def Covers (column : Column) (root : IndexRoot) (path : Path) : Prop :=
  ∃ file, tree.dataFile? path = some file ∧
    (root.dir (calculateFileHash path)).fst column = some (.valid (columnKeys file.content column))

/-- Index directories made from nothing by a run over `column`, and then by any
runs over the same files, all by some of the columns. -/
inductive BuiltOver (dataDir : Path) (column : Column) : IndexRoot → Prop
  | first {root : IndexRoot} (inColumns : column ∈ columns)
      (ok : buildIndex calculateFileHash tree ∅ dataDir column = .ok root) :
      BuiltOver dataDir column root
  | further {root root' : IndexRoot} (built : BuiltOver dataDir column root)
      {otherDir : Path} {other : Column} (inColumns : other ∈ columns)
      (inside : ∀ path ∈ tree.parquetEntries otherDir, path ∈ tree.parquetEntries dataDir)
      (ok : buildIndex calculateFileHash tree root otherDir other = .ok root') :
      BuiltOver dataDir column root'

end Mirror

section MirrorLemmas

variable {calculateFileHash : Path → Str} {tree : FileTree} {columns : Set Column}
  {paths : List Path} {root root' : IndexRoot} {path : Path} {column : Column}
  {file : FileTree.DataFile}

theorem BuiltOver.inColumns {dataDir : Path}
    (built : BuiltOver calculateFileHash tree columns dataDir column root) : column ∈ columns := by
  induction built with
  | first inColumns _ => exact inColumns
  | further _ _ _ _ ih => exact ih

/-- What a mirror holds under the hash of a path it could be of. -/
theorem Mirrors.dir (mirrors : Mirrors calculateFileHash tree columns paths root)
    (distinct : Set.InjOn calculateFileHash {path | path ∈ paths}) (member : path ∈ paths)
    (found : tree.dataFile? path = some file) {column : Column} (inColumns : column ∈ columns)
    {fst : FstFile} (held : (root.dir (calculateFileHash path)).fst column = some fst) :
    fst = .valid (columnKeys file.content column) := by
  obtain ⟨indexDir, present, onDisk⟩ := IndexRoot.lookup_of_fst held
  obtain ⟨path', member', file', same, found', -, keys⟩ := mirrors _ _ present
  obtain rfl : path' = path := distinct member' member same
  rw [found] at found'
  cases found'
  exact keys column inColumns fst onDisk

/-- Indexing a file keeps the mirror. -/
theorem mirrors_insert (own : OwnFiles columns)
    (distinct : Set.InjOn calculateFileHash {path | path ∈ paths})
    (member : path ∈ paths) (found : tree.dataFile? path = some file)
    (inColumns : column ∈ columns) (named : fstFile column ≠ none)
    (mirrors : Mirrors calculateFileHash tree columns paths root) :
    Mirrors calculateFileHash tree columns paths (root.insert (calculateFileHash path)
      ((root.dir (calculateFileHash path)).indexed path file column)) := by
  refine FiniteMap.forall_lookup_insert ?_ fun fileHash indexDir _ present =>
    mirrors fileHash indexDir present
  refine ⟨path, member, file, rfl, found, IndexDir.indexed_metadata _ _ _ _,
    fun other inColumns' fst held => ?_⟩
  by_cases here : other = column
  · subst here
    rw [IndexDir.indexed_fst_self _ _ _ named] at held
    exact (Option.some.inj held).symm
  · rw [IndexDir.indexed_fst_ne _ _ _ (own.ne inColumns inColumns' named here)] at held
    exact mirrors.dir distinct member found inColumns' held

/-- Indexing a file keeps what is indexed of every file. -/
theorem covers_insert (own : OwnFiles columns)
    (distinct : Set.InjOn calculateFileHash {path | path ∈ paths})
    (member : path ∈ paths) (found : tree.dataFile? path = some file) {other : Column}
    (inColumns : other ∈ columns) (inColumns' : column ∈ columns) (named : fstFile other ≠ none)
    {path' : Path} (member' : path' ∈ paths)
    (covers : Covers calculateFileHash tree column root path') :
    Covers calculateFileHash tree column (root.insert (calculateFileHash path)
      ((root.dir (calculateFileHash path)).indexed path file other)) path' := by
  obtain ⟨file', found', held⟩ := covers
  refine ⟨file', found', ?_⟩
  by_cases same : calculateFileHash path' = calculateFileHash path
  · have spelled : path' = path := distinct member' member same
    subst spelled
    rw [found] at found'
    cases found'
    by_cases here : column = other
    · subst here
      exact IndexRoot.fst_insert_indexed _ _ _ _ _ named
    · rwa [IndexRoot.fst_insert_indexed_ne _ _ _
        (Or.inr (own.ne inColumns inColumns' named here))]
  · rwa [IndexRoot.fst_insert_indexed_ne _ _ _ (Or.inl same)]

/-- A visit keeps the mirror and covers its path. -/
theorem covers_indexEntry (distinct : Set.InjOn calculateFileHash {path | path ∈ paths})
    (member : path ∈ paths) (inColumns : column ∈ columns)
    (mirrors : Mirrors calculateFileHash tree columns paths root)
    (ok : indexEntry calculateFileHash tree column false root path = .ok root') :
    Covers calculateFileHash tree column root' path := by
  rcases indexEntry_cases ok with ⟨rfl, -, decided⟩ | ⟨named, file, found, rfl, -⟩
  · -- Skipped: there is an FST, so the sub-directory exists and mirrors the file.
    cases held : (root'.dir (calculateFileHash path)).fst column with
    | none =>
        simp only [needsIndexing, held] at decided
        cases decided
    | some fst =>
        obtain ⟨indexDir, present, -⟩ := IndexRoot.lookup_of_fst held
        obtain ⟨path', member', file, same, found, -, -⟩ := mirrors _ _ present
        obtain rfl : path' = path := distinct member' member same
        exact ⟨file, found, by rw [held, mirrors.dir distinct member found inColumns held]⟩
  · exact ⟨file, found, IndexRoot.fst_insert_indexed _ _ _ _ _ named⟩

/-- The first run covers every entry of the walk. -/
theorem covers_of_buildIndex {dataDir : Path} (own : OwnFiles columns)
    (distinct : Set.InjOn calculateFileHash {path | path ∈ tree.parquetEntries dataDir})
    (inColumns : column ∈ columns)
    (start : Mirrors calculateFileHash tree columns (tree.parquetEntries dataDir) root)
    (ok : buildIndex calculateFileHash tree root dataDir column = .ok root') :
    Mirrors calculateFileHash tree columns (tree.parquetEntries dataDir) root' ∧
      ∀ path ∈ tree.parquetEntries dataDir, Covers calculateFileHash tree column root' path := by
  -- The invariant: a mirror that covers the entries visited so far.
  have invariant := foldlM_ok_induction
    (fun (visited : List Path) (now : IndexRoot) =>
      (∀ path ∈ visited, path ∈ tree.parquetEntries dataDir) →
      Mirrors calculateFileHash tree columns (tree.parquetEntries dataDir) now ∧
        ∀ path ∈ visited, Covers calculateFileHash tree column now path)
    (fun visited entry now next held visit inside => by
      have earlier : ∀ path ∈ visited, path ∈ tree.parquetEntries dataDir := fun path member =>
        inside path (List.mem_append_left _ member)
      have member : entry ∈ tree.parquetEntries dataDir := inside entry (by simp)
      obtain ⟨mirrors, covered⟩ := held earlier
      have here := covers_indexEntry distinct member inColumns mirrors visit
      have both : Mirrors calculateFileHash tree columns (tree.parquetEntries dataDir) next ∧
          ∀ path ∈ visited, Covers calculateFileHash tree column next path := by
        rcases indexEntry_eq visit with rfl | ⟨named, file, found, rfl⟩
        · exact ⟨mirrors, covered⟩
        · exact ⟨mirrors_insert own distinct member found inColumns named mirrors,
            fun path before => covers_insert own distinct member found inColumns inColumns named
              (earlier path before) (covered path before)⟩
      refine ⟨both.1, fun path inVisited => ?_⟩
      rcases List.mem_append.mp inVisited with before | last
      · exact both.2 path before
      · rwa [List.mem_singleton.mp last])
    (tree.parquetEntries dataDir) [] root root' (fun _ => ⟨start, by simp⟩) ok
  simpa using invariant (by simp)

/-- **An index built over files that do not change mirrors them**, and covers its
column. -/
theorem mirrors_of_builtOver {dataDir : Path} (own : OwnFiles columns)
    (distinct : Set.InjOn calculateFileHash {path | path ∈ tree.parquetEntries dataDir})
    (built : BuiltOver calculateFileHash tree columns dataDir column root) :
    Mirrors calculateFileHash tree columns (tree.parquetEntries dataDir) root ∧
      ∀ path ∈ tree.parquetEntries dataDir, Covers calculateFileHash tree column root path := by
  have inColumns := built.inColumns
  induction built with
  | first _ ok =>
      exact covers_of_buildIndex own distinct inColumns FiniteMap.forall_lookup_empty ok
  | further built inOther inside ok ih =>
      refine buildIndexExt_invariant
        (fun now => Mirrors calculateFileHash tree columns (tree.parquetEntries dataDir) now ∧
          ∀ path ∈ tree.parquetEntries dataDir, Covers calculateFileHash tree column now path)
        ?_ ih ok
      intro path inWalk file found named now held
      have member := inside path inWalk
      exact ⟨mirrors_insert own distinct member found inOther named held.1, fun path' member' =>
        covers_insert own distinct member found inOther inColumns named member'
          (held.2 path' member')⟩

end MirrorLemmas

/-! ## The two ways to read -/

/-- The rows of one row group. -/
def ParquetFile.rowsOf (file : ParquetFile) (g : Nat) : List Row :=
  ((file.rowGroups[g]?).map RowGroup.rows).getD []

/-- The rows of the row groups a plan selects in one file. -/
def readRowGroups (tree : FileTree) (planned : PartitionedFile) : List Row :=
  match (tree.node planned.path).bind FileNode.parquet with
  | some file => planned.accessPlan.rowGroupIndexes.flatMap file.rowsOf
  | none => []

/-- The rows of the row groups planned, whether or not the store finds the files. -/
def plannedRows (tree : FileTree) (plan : ScanPlan) : List Row :=
  plan.files.flatMap (readRowGroups tree)

/-- The rows of all Parquet files under a directory. -/
def allRows (tree : FileTree) (dataDir : Path) : List Row :=
  (tree.parquetEntries dataDir).flatMap fun path =>
    match tree.openParquet path with
    | .ok file => file.rows
    | .error _ => []

/-- The row satisfies all filters. -/
def satisfiesAll (holds : Expr → Row → Bool) (filters : List Expr) (row : Row) : Bool :=
  filters.all fun filter => holds filter row

theorem satisfiesAll_singleton (holds : Expr → Row → Bool) (filter : Expr) :
    satisfiesAll holds [filter] = holds filter := by
  funext row
  simp [satisfiesAll]

/-- How the indexed files are named. -/
structure WellNamed (calculateFileHash : Path → Str) (tree : FileTree) (dataDir : Path) : Prop where
  distinctHashes : Set.InjOn calculateFileHash {path | path ∈ tree.parquetEntries dataDir}
  distinctFiles : ((tree.parquetEntries dataDir).map tree.canonicalize).Nodup
  noFeed : ∀ path ∈ tree.parquetEntries dataDir, ¬ '\n' ∈ path
  /-- The object store has a path for each file. -/
  stored : ∀ path ∈ tree.parquetEntries dataDir, ∀ canonicalPath,
    tree.canonicalize path = some canonicalPath → tree.objectStoreAccepts canonicalPath = true

/-- What the filters compare: one is an equality of `column`, a Utf8 column, with
a string, and equalities on other columns that hold strings are with strings.  They compare
none but the columns given. -/
structure ComparesStrings (tree : FileTree) (dataDir : Path) (column : Column)
    (columns : Set Column) (filters : List Expr) : Prop where
  within : ∀ filter ∈ filters, ∀ other value, filter.IsEquality other value → other ∈ columns
  utf8 : ∀ path ∈ tree.parquetEntries dataDir, ∀ file, tree.dataFile? path = some file →
    file.content.Utf8Column column
  equality : ∃ filter ∈ filters, ∃ type literal, filter.IsEquality column (.string type literal)
  literals : ∀ filter ∈ filters, ∀ other value, filter.IsEquality other value →
    (∃ path ∈ tree.parquetEntries dataDir, ∃ file, tree.dataFile? path = some file ∧
      ∃ g v, file.content.HoldsValue other g v) →
    ∃ type literal, value = .string type literal

theorem rows_eq_flatMap (file : ParquetFile) :
    file.rows = (List.range file.numRowGroups).flatMap file.rowsOf := by
  have groups : file.rowGroups.map RowGroup.rows =
      (List.range file.numRowGroups).map file.rowsOf := by
    refine List.ext_getElem (by simp [ParquetFile.numRowGroups]) fun g bound _ => ?_
    rw [List.length_map] at bound
    simp [ParquetFile.rowsOf, bound]
  rw [ParquetFile.rows, List.flatMap_def, List.flatMap_def, groups]

/-! ## The engine over a mirror -/

section Query

variable {calculateFileHash : Path → Str} {tree : FileTree} {dataDir : Path} {column : Column}
  {columns : Set Column} {root : IndexRoot} {engine : IndexQueryEngine} {filters : List Expr}
  {semantics : FilterSemantics}

/-- The file map and the counts of an engine over a mirror. -/
theorem mirrors_maps (loads : IndexQueryEngine.Loads root (.new root) engine)
    (mirrors : Mirrors calculateFileHash tree columns (tree.parquetEntries dataDir) root)
    (noFeed : ∀ path ∈ tree.parquetEntries dataDir, ¬ '\n' ∈ path) {fileHash : Str}
    {indexDir : IndexDir} (present : root.lookup fileHash = some indexDir) :
    ∃ path ∈ tree.parquetEntries dataDir, ∃ file, calculateFileHash path = fileHash ∧
      tree.dataFile? path = some file ∧ engine.fileMap.lookup fileHash = some path ∧
        engine.numRowGroups fileHash = some file.content.numRowGroups := by
  obtain ⟨path, member, file, named, found, written, -⟩ := mirrors fileHash indexDir present
  have one := oneLine_of_hasParquetExtension (List.mem_filter.mp member).2 (noFeed path member)
  have entry := IndexDir.mapEntry_recorded one written fileHash
  rw [parseUnsigned_decimal (n := file.content.numRowGroups) file.content.fits] at entry
  refine ⟨path, member, file, named, found, ?_, ?_⟩
  · rw [loads.fileMap, IndexQueryEngine.new_fileMap, present, Option.map_some, entry]
  · have counted := IndexQueryEngine.new_numRowGroups root fileHash
    rwa [present, Option.bind_some, entry, IndexQueryEngine.numRowGroups, ← loads.counts] at counted

theorem mirrors_names (loads : IndexQueryEngine.Loads root (.new root) engine)
    (mirrors : Mirrors calculateFileHash tree columns (tree.parquetEntries dataDir) root)
    (noFeed : ∀ path ∈ tree.parquetEntries dataDir, ¬ '\n' ∈ path) :
    NamesPaths calculateFileHash engine := by
  intro fileHash path mapped
  have onDisk := mapped
  rw [loads.fileMap, IndexQueryEngine.new_fileMap] at onDisk
  obtain ⟨indexDir, present, -⟩ := Option.map_eq_some_iff.mp onDisk
  obtain ⟨path', -, -, named, -, mapped', -⟩ := mirrors_maps loads mirrors noFeed present
  rw [mapped] at mapped'
  rw [Option.some.inj mapped', named]

/-- Over a mirror no search by a column that opens fails. -/
theorem mirrors_search (loads : IndexQueryEngine.Loads root (.new root) engine)
    (mirrors : Mirrors calculateFileHash tree columns (tree.parquetEntries dataDir) root)
    {column : Column} (inColumns : column ∈ columns) (opens : Opens column) (value : Str) :
    ∃ results, (engine.exactSearch root column value).1 = .ok results := by
  cases searched : (engine.exactSearch root column value).1 with
  | ok results => exact ⟨results, rfl⟩
  | error e =>
      obtain ⟨fileHash, -, e', failed⟩ := IndexQueryEngine.exactSearch_error_iff.mp ⟨e, searched⟩
      unfold IndexQueryEngine.fileAnswer at failed
      rw [loads.fstFor, IndexQueryEngine.new_fstFor] at failed
      cases held : (root.dir fileHash).fst column with
      | none => simp [held, opens] at failed
      | some fst =>
          obtain ⟨indexDir, present, onDisk⟩ := IndexRoot.lookup_of_fst held
          obtain ⟨-, -, file, -, -, -, keys⟩ := mirrors fileHash indexDir present
          obtain ⟨rowGroups, answered, -⟩ := searchSet_columnKeys file.content column value
          simp [held, keys column inColumns fst onDisk, answered] at failed

/-- A row that satisfies an equality with a string, in a Utf8 column, holds it. -/
theorem holdsValue_of_equality {file : ParquetFile} {column : Column} {filter : Expr}
    {type : StringType} {literal : Option Str} {g : Nat} {row : Row}
    (typed : file.Utf8Column column) (equality : filter.IsEquality column (.string type literal))
    (member : row ∈ file.rowsOf g) (holds : semantics.holds filter row = true) :
    ∃ text, literal = some text ∧ file.HoldsValue column g text := by
  unfold ParquetFile.rowsOf at member
  cases position : file.rowGroups[g]? with
  | none => simp [position] at member
  | some rowGroup =>
      simp only [position, Option.map_some, Option.getD_some] at member
      have cell := cell_of_utf8Column (typed rowGroup (List.mem_of_getElem? position)) member
      obtain ⟨text, same, held⟩ := cell_of_equality equality cell holds
      exact ⟨text, same, rowGroup, position, row, member, held⟩

/-- Every answer about a value finds the row groups that hold it. -/
theorem mem_answer_of_holdsValue (loads : IndexQueryEngine.Loads root (.new root) engine)
    {fileHash : Str} {file : ParquetFile} {column : Column} {text : Str} {g : Nat}
    (held : (root.dir fileHash).fst column = some (.valid (columnKeys file column)))
    (holds : file.HoldsValue column g text) :
    ∃ rowGroups, engine.fileAnswer root column (fun set => searchSet set text) fileHash =
      .ok rowGroups ∧ g ∈ rowGroups := by
  obtain ⟨rowGroups, answered, -, members⟩ := searchSet_columnKeys file column text
  refine ⟨rowGroups, ?_, (members g).mpr ⟨text, holds, Or.inl rfl⟩⟩
  simp only [IndexQueryEngine.fileAnswer, loads.fstFor, IndexQueryEngine.new_fstFor, held, answered]

/-- An answer that is not empty is that of an FST, and some row group holds a
value of its column. -/
theorem holdsValue_of_answer (loads : IndexQueryEngine.Loads root (.new root) engine)
    (mirrors : Mirrors calculateFileHash tree columns (tree.parquetEntries dataDir) root)
    (distinct : Set.InjOn calculateFileHash {path | path ∈ tree.parquetEntries dataDir})
    {path : Path} (inWalk : path ∈ tree.parquetEntries dataDir) {file : FileTree.DataFile}
    (found : tree.dataFile? path = some file) {column : Column} (inColumns : column ∈ columns)
    {text : Str} {rowGroups : List Nat}
    (answered : engine.fileAnswer root column (fun set => searchSet set text)
      (calculateFileHash path) = .ok rowGroups) (nonempty : rowGroups ≠ []) :
    (root.dir (calculateFileHash path)).fst column =
        some (.valid (columnKeys file.content column)) ∧
      ∃ g v, file.content.HoldsValue column g v := by
  obtain ⟨set, held, searched⟩ := IndexQueryEngine.fst_of_fileAnswer answered nonempty
  rw [loads.fstFor, IndexQueryEngine.new_fstFor] at held
  cases mirrors.dir distinct inWalk found inColumns held
  obtain ⟨rowGroups', searched', -, members⟩ := searchSet_columnKeys file.content column text
  obtain rfl := Except.ok.inj (searched'.symm.trans searched)
  obtain ⟨g, member⟩ := List.exists_mem_of_ne_nil _ nonempty
  obtain ⟨v, holds, -⟩ := (members g).mp member
  exact ⟨held, g, v, holds⟩

/-- An equality with a string that an indexed file holds has a match in it. -/
theorem match_of_holdsValue (named : WellNamed calculateFileHash tree dataDir)
    (loads : IndexQueryEngine.Loads root (.new root) engine)
    (mirrors : Mirrors calculateFileHash tree columns (tree.parquetEntries dataDir) root)
    {path : Path} (inWalk : path ∈ tree.parquetEntries dataDir) {file : ParquetFile}
    {column : Column} (inColumns : column ∈ columns)
    (held : (root.dir (calculateFileHash path)).fst column = some (.valid (columnKeys file column)))
    {filter : Expr} {type : StringType} {text : Str}
    (equality : filter.IsEquality column (.string type (some text))) {g : Nat}
    (holds : file.HoldsValue column g text) :
    ∃ fileMatch ∈ filterMatches root engine filter, fileMatch.filePath = path := by
  obtain ⟨rowGroups, answered, reported⟩ := mem_answer_of_holdsValue loads held holds
  obtain ⟨indexDir, present, -⟩ := IndexRoot.lookup_of_fst held
  obtain ⟨path', member', -, same, -, mapped, -⟩ :=
    mirrors_maps loads mirrors named.noFeed present
  obtain rfl : path' = path := named.distinctHashes member' inWalk same
  refine ⟨⟨path', rowGroups⟩, mem_filterMatches_iff.mpr ?_, rfl⟩
  exact ⟨column, text, extractEqualityFilter_iff.mpr ⟨_, equality, rfl⟩,
    mirrors_search loads mirrors inColumns (IndexDir.opens_of_fst held) text, _, mapped, answered,
    List.ne_nil_of_mem reported⟩

/-- A match in a file has every row group with a row that satisfies its filter. -/
theorem mem_match_of_satisfying (named : WellNamed calculateFileHash tree dataDir)
    (compares : ComparesStrings tree dataDir column columns filters)
    (loads : IndexQueryEngine.Loads root (.new root) engine)
    (mirrors : Mirrors calculateFileHash tree columns (tree.parquetEntries dataDir) root)
    {path : Path} (inWalk : path ∈ tree.parquetEntries dataDir) {file : FileTree.DataFile}
    (found : tree.dataFile? path = some file) {g : Nat} {row : Row}
    (member : row ∈ file.content.rowsOf g) {filter : Expr} (inFilters : filter ∈ filters)
    (satisfied : semantics.holds filter row = true) {fileMatch : FileMatches}
    (inMatches : fileMatch ∈ filterMatches root engine filter)
    (same : calculateFileHash fileMatch.filePath = calculateFileHash path) :
    g ∈ fileMatch.rowGroups := by
  obtain ⟨other, text, extracted, -, fileHash, mapped, answered, nonempty⟩ :=
    mem_filterMatches_iff.mp inMatches
  obtain ⟨value, equality, rfl⟩ := extractEqualityFilter_iff.mp extracted
  have key : fileHash = calculateFileHash path :=
    (mirrors_names loads mirrors named.noFeed fileHash _ mapped).symm.trans same
  rw [key] at answered
  obtain ⟨held, g', v, holdsSome⟩ := holdsValue_of_answer loads mirrors named.distinctHashes
    inWalk found (compares.within filter inFilters other value equality) answered nonempty
  obtain ⟨type, literal, rfl⟩ := compares.literals filter inFilters other value equality
    ⟨path, inWalk, file, found, g', v, holdsSome⟩
  obtain ⟨text, rfl, holds⟩ := holdsValue_of_equality (utf8Column_of_holdsValue holdsSome)
    equality member satisfied
  obtain ⟨rowGroups, answered', reported⟩ := mem_answer_of_holdsValue loads held holds
  have sameAnswer : rowGroups = fileMatch.rowGroups :=
    Except.ok.inj (answered'.symm.trans answered)
  rwa [← sameAnswer]

/-- **The pruning keeps every row group with a row that satisfies the filters.** -/
theorem pruned_of_satisfying (named : WellNamed calculateFileHash tree dataDir)
    (compares : ComparesStrings tree dataDir column columns filters)
    (loads : IndexQueryEngine.Loads root (.new root) engine)
    (mirrors : Mirrors calculateFileHash tree columns (tree.parquetEntries dataDir) root)
    {path : Path} (inWalk : path ∈ tree.parquetEntries dataDir)
    (covers : Covers calculateFileHash tree column root path) {file : FileTree.DataFile}
    (found : tree.dataFile? path = some file) {g : Nat} {row : Row}
    (member : row ∈ file.content.rowsOf g)
    (all : satisfiesAll semantics.holds filters row = true) :
    ∃ rowGroups, (pruneWithFstIndex calculateFileHash root engine filters).1.fileRowGroups.lookup
      (calculateFileHash path) = some rowGroups ∧ g ∈ rowGroups := by
  have satisfied : ∀ filter ∈ filters, semantics.holds filter row = true :=
    List.all_eq_true.mp all
  refine pruned_mem ?_ ?_
  · obtain ⟨file', found', held⟩ := covers
    rw [found] at found'
    cases found'
    obtain ⟨filter, inFilters, type, literal, equality⟩ := compares.equality
    obtain ⟨text, rfl, holds⟩ := holdsValue_of_equality (compares.utf8 path inWalk file found)
      equality member (satisfied filter inFilters)
    obtain ⟨fileMatch, inMatches, same⟩ := match_of_holdsValue named loads mirrors inWalk
      (compares.within filter inFilters column _ equality) held equality holds
    exact ⟨filter, inFilters, fileMatch, inMatches, by rw [same]⟩
  · intro filter inFilters fileMatch inMatches same
    exact mem_match_of_satisfying named compares loads mirrors inWalk found member inFilters
      (satisfied filter inFilters) inMatches same

/-- Every pruned entry is of a file of the walk. -/
theorem pruned_file (named : WellNamed calculateFileHash tree dataDir)
    (loads : IndexQueryEngine.Loads root (.new root) engine)
    (mirrors : Mirrors calculateFileHash tree columns (tree.parquetEntries dataDir) root)
    {fileHash : Str} {rowGroups : SortedSet Nat}
    (left : (pruneWithFstIndex calculateFileHash root engine filters).1.fileRowGroups.lookup
      fileHash = some rowGroups) :
    ∃ path ∈ tree.parquetEntries dataDir, ∃ file, calculateFileHash path = fileHash ∧
      tree.dataFile? path = some file ∧
      (pruneWithFstIndex calculateFileHash root engine filters).1.hashToPath.lookup fileHash =
        some path ∧
      engine.numRowGroups fileHash = some file.content.numRowGroups := by
  obtain ⟨⟨path', mapped', lead⟩, -⟩ := pruned_sound (mirrors_names loads mirrors named.noFeed) left
  have onDisk := mapped'
  rw [loads.fileMap, IndexQueryEngine.new_fileMap] at onDisk
  obtain ⟨indexDir, present, -⟩ := Option.map_eq_some_iff.mp onDisk
  obtain ⟨path, inWalk, file, same, found, mapped, counted⟩ :=
    mirrors_maps loads mirrors named.noFeed present
  rw [mapped] at mapped'
  cases mapped'
  exact ⟨_, inWalk, file, same, found, lead, counted⟩

/-! ## Pruned and full reads -/

/-- The rows of what one pruned entry adds to the plan. -/
def readEntry (tree : FileTree) (engine : IndexQueryEngine) (hashToPath : FiniteMap Str Path)
    (fileHash : Str) (rowGroups : SortedSet Nat) : List Row :=
  ((plannedFile tree engine hashToPath ⟨fileHash, rowGroups⟩).map (readRowGroups tree)).getD []

theorem plannedRows_eq {entries : List (Sigma fun _ : Str => SortedSet Nat)}
    {hashToPath : FiniteMap Str Path} {plan : ScanPlan}
    (files : plan.files = entries.filterMap (plannedFile tree engine hashToPath)) :
    plannedRows tree plan =
      entries.flatMap fun entry => readEntry tree engine hashToPath entry.1 entry.2 := by
  rw [plannedRows, files, List.filterMap_eq_flatMap_toList, List.flatMap_assoc]
  refine List.flatMap_congr fun entry _ => ?_
  unfold readEntry
  cases plannedFile tree engine hashToPath entry <;> simp

theorem node_of_dataFile {path : Path} {file : FileTree.DataFile}
    (found : tree.dataFile? path = some file) :
    ∃ canonicalPath, tree.canonicalize path = some canonicalPath ∧
      (tree.node canonicalPath).bind FileNode.parquet = some file.content := by
  unfold FileTree.dataFile? FileTree.resolve at found
  cases resolved : tree.canonicalize path with
  | none => simp [resolved] at found
  | some canonicalPath =>
      rw [resolved, Option.bind_some] at found
      refine ⟨canonicalPath, rfl, ?_⟩
      cases at_path : tree.node canonicalPath with
      | none => simp [at_path] at found
      | some node =>
          simp only [at_path] at found
          split at found
          · rename_i parquet
            cases found
            rw [Option.bind_some, parquet]
          · cases found

/-- A file of the map gives the rows of the row groups left for it that exist. -/
theorem readEntry_of_dataFile {hashToPath : FiniteMap Str Path} {fileHash : Str} {path : Path}
    {file : FileTree.DataFile} (lead : hashToPath.lookup fileHash = some path)
    (found : tree.dataFile? path = some file)
    (counted : engine.numRowGroups fileHash = some file.content.numRowGroups)
    (stored : ∀ canonicalPath, tree.canonicalize path = some canonicalPath →
      tree.objectStoreAccepts canonicalPath = true) (rowGroups : SortedSet Nat) :
    readEntry tree engine hashToPath fileHash rowGroups =
      ((List.range file.content.numRowGroups).filter fun g => decide (g ∈ rowGroups)).flatMap
        file.content.rowsOf := by
  obtain ⟨canonicalPath, resolved, content⟩ := node_of_dataFile found
  have count : rowGroupCount tree engine fileHash canonicalPath =
      .ok file.content.numRowGroups := by
    simp [rowGroupCount, counted]
  have selected := ParquetAccessPlan.rowGroupIndexes_ofRowGroups file.content.numRowGroups
    rowGroups.toList
  simp only [SortedSet.mem_toList] at selected
  rw [← selected]
  by_cases reads : (ParquetAccessPlan.ofRowGroups file.content.numRowGroups
      rowGroups.toList).rowGroupIndexes = []
  · -- Nothing is left to read, and the file is not planned.
    cases planned : plannedFile tree engine hashToPath ⟨fileHash, rowGroups⟩ with
    | none => simp [readEntry, planned, reads]
    | some plannedAs =>
        obtain ⟨path', canonicalPath', totalRgs, lead', resolved', count', reads', -, -⟩ :=
          plannedFile_eq_some_iff.mp planned
        rw [lead] at lead'
        cases lead'
        rw [resolved] at resolved'
        cases resolved'
        rw [count] at count'
        cases count'
        exact absurd reads reads'
  · have planned : plannedFile tree engine hashToPath ⟨fileHash, rowGroups⟩ = some _ :=
      plannedFile_eq_some_iff.mpr ⟨path, canonicalPath, _, lead, resolved, count, reads,
        stored canonicalPath resolved, rfl⟩
    simp only [readEntry, planned, Option.map_some, Option.getD_some, readRowGroups, content]

/-- Reading the row groups that are left gives the rows that satisfy `p`, when every row
group with such a row is left. -/
theorem filtered_of_kept {file : ParquetFile} {p : Row → Bool} {left : Option (SortedSet Nat)}
    {read : SortedSet Nat → List Row}
    (reads : ∀ rowGroups, left = some rowGroups → read rowGroups =
      ((List.range file.numRowGroups).filter fun g => decide (g ∈ rowGroups)).flatMap file.rowsOf)
    (kept : ∀ g, ∀ row ∈ file.rowsOf g, p row = true →
      ∃ rowGroups, left = some rowGroups ∧ g ∈ rowGroups) :
    (left.map fun rowGroups => (read rowGroups).filter p).getD [] = file.rows.filter p := by
  rw [rows_eq_flatMap, List.filter_flatMap]
  cases left with
  | none =>
      refine (List.flatMap_eq_nil_iff.mpr fun g _ => List.filter_eq_nil_iff.mpr ?_).symm
      intro row member satisfied
      obtain ⟨rowGroups, found, -⟩ := kept g row member satisfied
      cases found
  | some rowGroups =>
      rw [Option.map_some, Option.getD_some, reads rowGroups rfl, List.filter_flatMap]
      -- The row groups that were pruned have no such row.
      refine FiniteMap.flatMap_filter_of_eq_nil fun g _ pruned => List.filter_eq_nil_iff.mpr ?_
      intro row member satisfied
      obtain ⟨rowGroups', found, reported⟩ := kept g row member satisfied
      cases found
      exact absurd reported (of_decide_eq_false pruned)

/-- **Per file, the planned row groups have all rows that satisfy the filters.** -/
theorem readEntry_eq (named : WellNamed calculateFileHash tree dataDir)
    (compares : ComparesStrings tree dataDir column columns filters)
    (loads : IndexQueryEngine.Loads root (.new root) engine)
    (mirrors : Mirrors calculateFileHash tree columns (tree.parquetEntries dataDir) root)
    {path : Path} (inWalk : path ∈ tree.parquetEntries dataDir)
    (covers : Covers calculateFileHash tree column root path) {file : FileTree.DataFile}
    (found : tree.dataFile? path = some file) :
    (((pruneWithFstIndex calculateFileHash root engine filters).1.fileRowGroups.lookup
        (calculateFileHash path)).map fun rowGroups =>
          (readEntry tree engine
            (pruneWithFstIndex calculateFileHash root engine filters).1.hashToPath
            (calculateFileHash path) rowGroups).filter (satisfiesAll semantics.holds filters)).getD
      [] = file.content.rows.filter (satisfiesAll semantics.holds filters) := by
  refine filtered_of_kept (fun rowGroups left => ?_) fun g row member all =>
    pruned_of_satisfying named compares loads mirrors inWalk covers found member all
  obtain ⟨path', member, file', same, found', lead, counted⟩ :=
    pruned_file named loads mirrors left
  obtain rfl : path' = path := named.distinctHashes member inWalk same
  rw [found] at found'
  cases found'
  exact readEntry_of_dataFile lead found counted (named.stored path' inWalk) rowGroups

/-- **A pruned query returns what a full read returns**: the rows that satisfy all
filters are, as a multiset, the same in the planned row groups and in all files. -/
theorem scan_perm_bruteForce {session : Session} (own : OwnFiles columns)
    (named : WellNamed calculateFileHash tree dataDir)
    (built : BuiltOver calculateFileHash tree columns dataDir column root)
    (loads : IndexQueryEngine.Loads root (.new root) engine)
    (compares : ComparesStrings tree dataDir column columns filters)
    (accepts : session.createPhysicalExpr filters = .ok ()) :
    ∃ plan, (scan calculateFileHash session tree root engine filters).1 = .ok plan ∧
      ((plannedRows tree plan).filter (satisfiesAll semantics.holds filters)).Perm
        ((allRows tree dataDir).filter (satisfiesAll semantics.holds filters)) := by
  obtain ⟨mirrors, covered⟩ := mirrors_of_builtOver own named.distinctHashes built
  obtain ⟨plan, returned⟩ :
      ∃ plan, (scan calculateFileHash session tree root engine filters).1 = .ok plan := by
    refine scan_returns accepts fun entry member => ?_
    obtain ⟨-, -, file, -, -, -, counted⟩ :=
      pruned_file named loads mirrors (FiniteMap.mem_entries_iff.mp member)
    exact ⟨_, counted⟩
  refine ⟨plan, returned, ?_⟩
  have hashes : ((tree.parquetEntries dataDir).map calculateFileHash).Nodup :=
    (List.Nodup.of_map _ named.distinctFiles).map_on fun path inWalk path' inWalk' same =>
      named.distinctHashes inWalk inWalk' same
  rw [plannedRows_eq (scan_files returned), List.filter_flatMap, allRows, List.filter_flatMap]
  refine (FiniteMap.perm_flatMap_entries _ (fun fileHash rowGroups =>
    (readEntry tree engine (pruneWithFstIndex calculateFileHash root engine filters).1.hashToPath
      fileHash rowGroups).filter (satisfiesAll semantics.holds filters)) hashes ?_).trans ?_
  · intro fileHash member
    obtain ⟨rowGroups, left⟩ := FiniteMap.mem_iff_lookup.mp member
    obtain ⟨path, inWalk, -, same, -⟩ := pruned_file named loads mirrors left
    exact List.mem_map.mpr ⟨path, inWalk, same⟩
  · rw [List.flatMap_map]
    refine List.Perm.of_eq (List.flatMap_congr fun path inWalk => ?_)
    obtain ⟨file, found, -⟩ := covered path inWalk
    rw [FileTree.openParquet_of_dataFile found]
    exact readEntry_eq named compares loads mirrors inWalk (covered path inWalk) found

end Query

/-! ## A sample query -/

theorem build_sample :
    buildIndex sampleHash (singleTree samplePath sampleFile) ∅ sampleDir sampleColumn =
      .ok (singleRoot samplePath sampleFile sampleColumn) :=
  buildIndex_single named_sampleColumn (parquetEntries_sample sampleFile) rfl

theorem wellNamed_sample :
    WellNamed sampleHash (singleTree samplePath sampleFile) sampleDir where
  distinctHashes := by simp [parquetEntries_sample]
  distinctFiles := by simp [parquetEntries_sample]
  noFeed := by
    intro path member
    rw [List.mem_singleton.mp member]
    decide
  stored := fun _ _ _ _ => rfl

theorem comparesStrings_sample (name : Str) :
    ComparesStrings (singleTree samplePath sampleFile) sampleDir sampleColumn {sampleColumn}
      [nameIs name] where
  within := by
    intro filter member other value equality
    rw [List.mem_singleton.mp member] at equality
    rcases equality with same | same
    · cases same
      rfl
    · cases same
  utf8 := by
    intro path member file found
    rw [List.mem_singleton.mp member, dataFile_singleTree] at found
    cases found
    have alice : sampleFile.content.HoldsValue sampleColumn 0 "alice".toList := by decide
    exact utf8Column_of_holdsValue alice
  equality := ⟨_, List.mem_singleton.mpr rfl, .utf8, some name, Or.inl rfl⟩
  literals := by
    intro filter member other value equality _
    rw [List.mem_singleton.mp member] at equality
    rcases equality with same | same
    · cases same
      exact ⟨.utf8, some name, rfl⟩
    · cases same

end Pdq
