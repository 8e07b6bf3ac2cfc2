/- Pdq.Provider.LongLived -- one engine over an index that is rebuilt under it.

An engine keeps the row-group counts it read when it was made, and maps every FST
at its first lookup; it never opens one again.  An index run writes an FST in
place, under the mapping too.  So the FSTs and the count an engine uses for a file
are of one version as long as every index run that rewrites an FST of the file
finds the file in the version that was on record at the start: then every lookup
sees that version, and what is mapped is what is on disk (`seesFile_of_served`,
`served_same_version`).  When one finds another version, the FST is new and the
count is old (`late_lookup_refuted`). -/
import Pdq.Provider.Scan
import Pdq.Query.ReadBack

namespace Pdq

open Theory Theory.SharedStamp

set_option autoImplicit false

/-! ## Runs with one engine -/

section Served

variable (calculateFileHash : Path → Str) (history : Path → Set FileTree.DataFile)
  (paths : Set Path) (columns : Set Column) (base : World)
  (allowed : IndexQueryEngine → World → Path → Column → Prop)

/-- The states reached from the moment an engine is made over `base`: files
change, index runs complete, and the engine serves lookups and whole scans. -/
inductive Served : World → IndexQueryEngine → Prop
  | start : Served base (.new base.root)
  | change {world : World} {engine : IndexQueryEngine} (served : Served world engine)
      (tree : FileTree) (known : Known history tree) : Served ⟨tree, world.root⟩ engine
  | build {world : World} {engine : IndexQueryEngine} (served : Served world engine)
      {dataDir : Path} {column : Column} {root : IndexRoot}
      (visited : ∀ path ∈ world.tree.parquetEntries dataDir, path ∈ paths)
      (may : allowed engine world dataDir column)
      (ok : buildIndex calculateFileHash world.tree world.root dataDir column = .ok root) :
      Served ⟨world.tree, root⟩ engine
  | load {world : World} {engine : IndexQueryEngine} (served : Served world engine)
      (fileHash : Str) (column : Column) :
      Served world (engine.getOrLoadSet world.root fileHash column).2
  | scan {world : World} {engine : IndexQueryEngine} (served : Served world engine)
      (session : Session) (filters : List Expr) :
      Served world (scan calculateFileHash session world.tree world.root engine filters).2

/-- The index run is by one of the columns, and re-indexes a file the engine knows only in
the version on record when the engine was made. -/
def KeepsLookups (engine : IndexQueryEngine) (world : World) (dataDir : Path)
    (column : Column) : Prop :=
  column ∈ columns ∧ ∀ path ∈ world.tree.parquetEntries dataDir,
    ∀ file, world.tree.dataFile? path = some file →
    calculateFileHash path ∈ engine.fileMap →
      (world.root.dir (calculateFileHash path)).UpToDate file column ∨
      (base.root.dir (calculateFileHash path)).recordedStamp =
        some (file.mtime.toNat, file.size.toNat)

end Served

section Invariant

variable {calculateFileHash : Path → Str} {history : Path → Set FileTree.DataFile}
  {paths : Set Path} {columns : Set Column} {base world : World} {engine : IndexQueryEngine}
  {allowed : IndexQueryEngine → World → Path → Column → Prop}

theorem mapEntry_count (indexDir : IndexDir) (fileHash : Str) :
    (indexDir.mapEntry fileHash).2 = indexDir.recordedCount := by
  unfold IndexDir.mapEntry IndexDir.recordedCount
  cases indexDir.metadata with
  | none => rfl
  | some textFile =>
      cases textFile with
      | invalidUtf8 => rfl
      | text contents => cases parsed : fileMapEntry contents <;> simp [parsed]

theorem scan_loads (calculateFileHash : Path → Str) (session : Session) (tree : FileTree)
    (root : IndexRoot) (engine : IndexQueryEngine) (filters : List Expr) :
    IndexQueryEngine.Loads root engine
      (scan calculateFileHash session tree root engine filters).2 :=
  (pruneWithFstIndex_spec calculateFileHash root engine filters).2

/-- The path map and the counts are those of the moment the engine was made. -/
theorem maps_of_served
    (served : Served calculateFileHash history paths base allowed world engine) :
    engine.fileMap = (IndexQueryEngine.new base.root).fileMap ∧
      engine.rowGroupCounts = (IndexQueryEngine.new base.root).rowGroupCounts := by
  induction served with
  | start => exact ⟨rfl, rfl⟩
  | change _ _ _ ih => exact ih
  | build _ _ _ _ ih => exact ih
  | @load world engine _ fileHash column ih =>
      have loads := IndexQueryEngine.getOrLoadSet_loads world.root engine fileHash column
      exact ⟨loads.fileMap.trans ih.1, loads.counts.trans ih.2⟩
  | @scan world engine _ session filters ih =>
      have loads := scan_loads calculateFileHash session world.tree world.root engine filters
      exact ⟨loads.fileMap.trans ih.1, loads.counts.trans ih.2⟩

theorem known_of_served (knownBase : Known history base.tree)
    (served : Served calculateFileHash history paths base allowed world engine) :
    Known history world.tree := by
  induction served with
  | start => exact knownBase
  | change _ _ known _ => exact known
  | build _ _ _ _ ih => exact ih
  | load _ _ _ ih => exact ih
  | scan _ _ _ ih => exact ih

/-! ## One version of each file -/

/-- Every FST that lookups under this hash see is of this file, and of the column that its
name leads to. -/
def SeesFile (columns : Set Column) (root : IndexRoot) (engine : IndexQueryEngine)
    (fileHash : Str) (file : ParquetFile) : Prop :=
  ∀ column fst, engine.fstFor root fileHash column = some fst →
    ∃ other ∈ columns, fstFile other = fstFile column ∧ fst = .valid (columnKeys file other)

/-- Every FST the engine has mapped under this hash is on disk as it was mapped. -/
def MappedAsIs (root : IndexRoot) (engine : IndexQueryEngine) (fileHash : Str) : Prop :=
  ∀ column set, engine.fstCache.lookup (fileHash, column) = some set →
    (root.dir fileHash).fst column = some (.valid set)

/-- What an index run that keeps the lookups of the engine does to an FST of the
file on record: nothing, or it writes the keys of that file. -/
theorem fst_build (differ : StampsDiffer history)
    (distinct : Set.InjOn calculateFileHash paths) {path : Path} (member : path ∈ paths)
    (known : Known history world.tree) {file : FileTree.DataFile} (inHistory : file ∈ history path)
    (describes : Describes ((base.root.dir (calculateFileHash path)).slot columns)
      (version columns file))
    {dataDir : Path} {column : Column} {root : IndexRoot}
    (visited : ∀ path ∈ world.tree.parquetEntries dataDir, path ∈ paths)
    (may : KeepsLookups calculateFileHash columns base engine world dataDir column)
    (ok : buildIndex calculateFileHash world.tree world.root dataDir column = .ok root)
    (inMap : calculateFileHash path ∈ engine.fileMap) (column' : Column) :
    (root.dir (calculateFileHash path)).fst column' =
        (world.root.dir (calculateFileHash path)).fst column' ∨
      ∃ other ∈ columns, fstFile other = fstFile column' ∧
        (root.dir (calculateFileHash path)).fst column' =
          some (.valid (columnKeys file.content other)) := by
  rcases buildIndex_fst (fun other inWalk => distinct (visited other inWalk) member) ok column'
    with kept | ⟨same, inWalk, file', found, stale, written⟩
  · exact Or.inl kept
  · -- The FST is rewritten, so the file is the one on record.
    have stamped := (may.2 path inWalk file' found inMap).resolve_left stale
    have recorded := slot_stamp columns (base.root.dir (calculateFileHash path))
    rw [describes.record, stamped] at recorded
    obtain ⟨mtime, size⟩ := Prod.mk.inj (Option.some.inj recorded)
    have version : file = file' :=
      eq_of_stamp differ inHistory (known path file' found) mtime size
    exact Or.inr ⟨column, may.1, same.symm, by rw [written, version]⟩

theorem seesFile_build {root root' : IndexRoot} {fileHash : Str} {file : ParquetFile}
    (fst : ∀ column, (root'.dir fileHash).fst column = (root.dir fileHash).fst column ∨
      ∃ other ∈ columns, fstFile other = fstFile column ∧
        (root'.dir fileHash).fst column = some (.valid (columnKeys file other)))
    (sees : SeesFile columns root engine fileHash file) :
    SeesFile columns root' engine fileHash file := by
  intro column found seen
  have earlier := sees column found
  unfold IndexQueryEngine.fstFor at seen earlier
  cases resident : engine.fstCache.lookup (fileHash, column) with
  | some set =>
      rw [resident] at seen earlier
      exact earlier seen
  | none =>
      rw [resident] at seen earlier
      rcases fst column with kept | ⟨other, member, same, written⟩
      · rw [kept] at seen
        exact earlier seen
      · rw [written] at seen
        exact ⟨other, member, same, (Option.some.inj seen).symm⟩

/-- What is rewritten under a mapping is what was there. -/
theorem mappedAsIs_build (own : OwnFiles columns) {root root' : IndexRoot} {fileHash : Str}
    {file : ParquetFile}
    (fst : ∀ column, (root'.dir fileHash).fst column = (root.dir fileHash).fst column ∨
      ∃ other ∈ columns, fstFile other = fstFile column ∧
        (root'.dir fileHash).fst column = some (.valid (columnKeys file other)))
    (sees : SeesFile columns root engine fileHash file) (mapped : MappedAsIs root engine fileHash) :
    MappedAsIs root' engine fileHash := by
  intro column set resident
  obtain ⟨seen, inColumns, leads, keys⟩ :=
    sees column (.valid set) (by rw [IndexQueryEngine.fstFor, resident])
  rcases fst column with kept | ⟨other, member, same, written⟩
  · rw [kept, mapped column set resident]
  · have named : fstFile other ≠ none := by
      rw [same]
      exact IndexDir.named_of_fst (by rw [written]; exact Option.some_ne_none _)
    obtain rfl := own.apart other member seen inColumns (leads.trans same.symm) named
    rw [written, keys]

theorem seesFile_loads {root : IndexRoot} {engine' : IndexQueryEngine} {fileHash : Str}
    {file : ParquetFile} (loads : IndexQueryEngine.Loads root engine engine')
    (sees : SeesFile columns root engine fileHash file) :
    SeesFile columns root engine' fileHash file := by
  intro column fst seen
  rw [loads.fstFor] at seen
  exact sees column fst seen

theorem mappedAsIs_loads {root : IndexRoot} {engine' : IndexQueryEngine} {fileHash : Str}
    (loads : IndexQueryEngine.Loads root engine engine')
    (mapped : MappedAsIs root engine fileHash) : MappedAsIs root engine' fileHash := by
  intro column set resident
  rcases loads.introduced _ set resident with earlier | disk
  · exact mapped column set earlier
  · exact disk

/-- **All lookups of a file see the version that was on record** when the engine
was made, and nothing else is on disk under its mappings. -/
theorem seesFile_of_served (differ : StampsDiffer history) (own : OwnFiles columns)
    (distinct : Set.InjOn calculateFileHash paths)
    (reached : Reached calculateFileHash history paths (MovesAlone calculateFileHash columns) base)
    (served : Served calculateFileHash history paths base (KeepsLookups calculateFileHash columns base)
      world engine) {path : Path} (member : path ∈ paths)
    (inMap : calculateFileHash path ∈ engine.fileMap) {file : FileTree.DataFile}
    (inHistory : file ∈ history path)
    (describes : Describes ((base.root.dir (calculateFileHash path)).slot columns)
      (version columns file)) :
    SeesFile columns world.root engine (calculateFileHash path) file.content ∧
      MappedAsIs world.root engine (calculateFileHash path) := by
  induction served with
  | start =>
      refine ⟨fun column fst seen => ?_, fun column set resident => ?_⟩
      · rw [IndexQueryEngine.new_fstFor] at seen
        obtain ⟨other, member, same⟩ := fst_of_reached (fun _ _ _ may => may.1) reached
          (by rw [seen]; exact nofun)
        refine ⟨other, member, same, describes.entry ⟨other, member⟩ fst ?_⟩
        exact (IndexDir.fst_congr _ same).trans seen
      · simp [IndexQueryEngine.new] at resident
  | change _ _ _ ih => exact ih inMap
  | build served visited may ok ih =>
      have known := known_of_served (known_of_reached reached) served
      have fst := fst_build differ distinct member known inHistory describes visited may ok inMap
      exact ⟨seesFile_build fst (ih inMap).1,
        mappedAsIs_build own fst (ih inMap).1 (ih inMap).2⟩
  | @load world engine _ fileHash column ih =>
      have loads := IndexQueryEngine.getOrLoadSet_loads world.root engine fileHash column
      have earlier := ih (by rwa [loads.fileMap] at inMap)
      exact ⟨seesFile_loads loads earlier.1, mappedAsIs_loads loads earlier.2⟩
  | @scan world engine _ session filters ih =>
      have loads := scan_loads calculateFileHash session world.tree world.root engine filters
      have earlier := ih (by rwa [loads.fileMap] at inMap)
      exact ⟨seesFile_loads loads earlier.1, mappedAsIs_loads loads earlier.2⟩

/-- All that scans use for a file hash is of one version of a file: the FSTs, also
when they are read through a mapping made earlier, the row-group count, and so
every row group a lookup finds. -/
structure OneVersion (columns : Set Column) (root : IndexRoot) (engine : IndexQueryEngine)
    (fileHash : Str) (file : ParquetFile) : Prop where
  keys : SeesFile columns root engine fileHash file
  mapped : MappedAsIs root engine fileHash
  count : engine.numRowGroups fileHash = some file.numRowGroups
  inRange : ∀ column term rowGroups,
    engine.fileAnswer root column (fun set => searchSet set term) fileHash = .ok rowGroups →
      ∀ g ∈ rowGroups, g < file.numRowGroups

theorem inRange_of_seesFile {root : IndexRoot} {fileHash : Str} {file : ParquetFile}
    (sees : SeesFile columns root engine fileHash file) {column : Column} {term : Str}
    {rowGroups : List Nat}
    (answered : engine.fileAnswer root column (fun set => searchSet set term) fileHash =
      .ok rowGroups) {g : Nat} (member : g ∈ rowGroups) : g < file.numRowGroups := by
  obtain ⟨set, seen, searched⟩ :=
    IndexQueryEngine.fst_of_fileAnswer answered (List.ne_nil_of_mem member)
  obtain ⟨other, -, -, keys⟩ := sees column _ seen
  cases keys
  obtain ⟨rowGroups', searched', -, members⟩ := searchSet_columnKeys file other term
  obtain rfl := Except.ok.inj (searched'.symm.trans searched)
  obtain ⟨v, holds, -⟩ := (members g).mp member
  exact rowGroup_lt_of_holdsValue holds

/-- The walked paths of such a run have no line feed. -/
theorem reached_noFeed {world : World}
    (reached : Reached calculateFileHash history paths (MovesAlone calculateFileHash columns) world) :
    Reached calculateFileHash history {path ∈ paths | ¬ '\n' ∈ path}
      (MovesAlone calculateFileHash columns) world := by
  induction reached with
  | start tree known => exact .start tree known
  | change _ tree known ih => exact .change ih tree known
  | build _ visited may ok ih =>
      exact .build ih (fun path inWalk => ⟨visited path inWalk, (may.2 path inWalk).1⟩) may ok

/-- Every hash the engine knows is of a walked path, on record in the base. -/
theorem recorded_of_served
    (reached : Reached calculateFileHash history paths (MovesAlone calculateFileHash columns) base)
    (served : Served calculateFileHash history paths base allowed world engine) {fileHash : Str}
    (inMap : fileHash ∈ engine.fileMap) :
    ∃ path ∈ paths, calculateFileHash path = fileHash ∧
      engine.fileMap.lookup fileHash = some path ∧
      ∃ indexDir, base.root.lookup fileHash = some indexDir := by
  obtain ⟨path, mapped⟩ := FiniteMap.mem_iff_lookup.mp inMap
  have inBase := mapped
  rw [(maps_of_served served).1] at inBase
  obtain ⟨member, named⟩ :=
    fileMap_of_reached (reached_noFeed reached) (fun _ walked => walked.2) inBase
  rw [IndexQueryEngine.new_fileMap] at inBase
  obtain ⟨indexDir, present, -⟩ := Option.map_eq_some_iff.mp inBase
  exact ⟨path, member.1, named, mapped, indexDir, present⟩

theorem oneVersion_of_served (differ : StampsDiffer history) (own : OwnFiles columns)
    (distinct : Set.InjOn calculateFileHash paths)
    (reached : Reached calculateFileHash history paths (MovesAlone calculateFileHash columns) base)
    (served : Served calculateFileHash history paths base (KeepsLookups calculateFileHash columns base)
      world engine) {fileHash : Str} (inMap : fileHash ∈ engine.fileMap) :
    ∃ path ∈ paths, calculateFileHash path = fileHash ∧
      ∃ file ∈ history path, OneVersion columns world.root engine fileHash file.content := by
  obtain ⟨path, member, rfl, -, indexDir, present⟩ := recorded_of_served reached served inMap
  have dir := IndexRoot.dir_of_lookup present
  have described : ∃ file ∈ history path,
      Describes ((base.root.dir (calculateFileHash path)).slot columns) (version columns file) := by
    rcases coherent_of_reached differ own distinct reached path member with
      empty | ⟨_, ⟨file, inHistory, rfl⟩, describes⟩
    · -- A sub-directory that is there has a record.
      obtain ⟨recorded, walked, -, selected, mtime, size, numRowGroups, written⟩ :=
        recordsPaths_of_reached (reached_noFeed reached) _ indexDir present
      have one := oneLine_of_hasParquetExtension selected walked.2
      have record := congrArg Slot.record empty
      simp [dir, IndexDir.slot, IndexDir.recordedStamp, written, storedStamp_content one,
        Slot.empty] at record
    · exact ⟨file, inHistory, describes⟩
  obtain ⟨file, inHistory, describes⟩ := described
  obtain ⟨sees, mapped⟩ := seesFile_of_served differ own distinct reached served member
    inMap inHistory describes
  refine ⟨path, member, rfl, file, inHistory, sees, mapped, ?_,
    fun _ _ _ answered _ found => inRange_of_seesFile sees answered found⟩
  have counted := IndexQueryEngine.new_numRowGroups base.root (calculateFileHash path)
  rw [present, Option.bind_some, mapEntry_count] at counted
  obtain ⟨stamp, -, same⟩ := Option.map_eq_some_iff.mp describes.record
  rw [dir] at same
  rw [IndexQueryEngine.numRowGroups, (maps_of_served served).2, ← IndexQueryEngine.numRowGroups,
    counted]
  exact (Prod.mk.inj same).2

/-- **A long-lived engine uses one version of each file**, in every state of a run
that keeps its lookups: the access plan of a scan has the length of that version
and reads every row group the pruning left. -/
theorem served_same_version (differ : StampsDiffer history) (own : OwnFiles columns)
    (distinct : Set.InjOn calculateFileHash paths)
    (reached : Reached calculateFileHash history paths (MovesAlone calculateFileHash columns) base)
    (served : Served calculateFileHash history paths base (KeepsLookups calculateFileHash columns base)
      world engine) :
    (∀ fileHash ∈ engine.fileMap, ∃ path ∈ paths, calculateFileHash path = fileHash ∧
      ∃ file ∈ history path, OneVersion columns world.root engine fileHash file.content) ∧
    ∀ session filters plan,
      (scan calculateFileHash session world.tree world.root engine filters).1 = .ok plan →
      ∀ planned ∈ plan.files, ∃ path ∈ paths, ∃ file ∈ history path,
        OneVersion columns world.root engine (calculateFileHash path) file.content ∧
        planned.accessPlan.length = file.content.numRowGroups ∧
        ∃ rowGroups, (pruneWithFstIndex calculateFileHash world.root engine
            filters).1.fileRowGroups.lookup (calculateFileHash path) = some rowGroups ∧
          planned.accessPlan.rowGroupIndexes = rowGroups.toList := by
  have oneVersion : ∀ fileHash ∈ engine.fileMap, ∃ path ∈ paths,
      calculateFileHash path = fileHash ∧
        ∃ file ∈ history path, OneVersion columns world.root engine fileHash file.content :=
    fun _ inMap => oneVersion_of_served differ own distinct reached served inMap
  refine ⟨oneVersion, fun session filters plan ok planned member => ?_⟩
  have names : NamesPaths calculateFileHash engine := by
    intro fileHash path mapped
    obtain ⟨path', -, named, mapped', -⟩ :=
      recorded_of_served reached served (FiniteMap.mem_of_lookup mapped)
    rw [mapped] at mapped'
    rw [Option.some.inj mapped', named]
  rw [scan_files ok] at member
  obtain ⟨⟨fileHash, rowGroups⟩, entry, adds⟩ := List.mem_filterMap.mp member
  have left := FiniteMap.mem_entries_iff.mp entry
  obtain ⟨⟨_, mapped, -⟩, column, value, answer, answered, among⟩ := pruned_sound names left
  obtain ⟨path, inPaths, rfl, file, inHistory, version⟩ :=
    oneVersion fileHash (FiniteMap.mem_of_lookup mapped)
  obtain ⟨-, canonicalPath, totalRgs, -, -, count, -, -, rfl⟩ := plannedFile_eq_some_iff.mp adds
  have total : file.content.numRowGroups = totalRgs := by
    simpa [rowGroupCount, version.count] using count
  subst total
  refine ⟨path, inPaths, file, inHistory, version,
    ParquetAccessPlan.length_ofRowGroups _ _, rowGroups, left, ?_⟩
  exact ParquetAccessPlan.rowGroupIndexes_of_lt fun g kept =>
    version.inRange column value answer answered g (among g kept)

end Invariant

/-! ## A column indexed under an engine -/

/-- A file with names and cities, indexed by name. -/
def namesBase : World :=
  ⟨singleTree samplePath alice, singleRoot samplePath alice sampleColumn⟩

/-- The same, indexed by city too. -/
def citiesWorld : World :=
  ⟨singleTree samplePath alice, IndexRoot.indexed namesBase.root samplePath alice cityColumn⟩

/-- An engine made before the cities were indexed maps their FST. -/
theorem served_same_version_sample :
    ∃ path ∈ ({samplePath} : Set Path), sampleHash path = sampleHash samplePath ∧
      ∃ file ∈ personHistory path, OneVersion personColumns citiesWorld.root
        ((IndexQueryEngine.new namesBase.root).getOrLoadSet citiesWorld.root
          (sampleHash samplePath) cityColumn).2 (sampleHash samplePath) file.content := by
  have reached : Reached sampleHash personHistory {samplePath}
      (MovesAlone sampleHash personColumns) namesBase :=
    reached_single (Or.inl rfl) (movesAlone_empty alice)
  have keeps : KeepsLookups sampleHash personColumns namesBase (.new namesBase.root) namesBase
      sampleDir cityColumn := by
    refine ⟨Or.inr rfl, fun path member file found _ => ?_⟩
    rw [List.mem_singleton.mp member, namesBase, dataFile_singleTree] at found
    rw [List.mem_singleton.mp member, ← Option.some.inj found]
    exact Or.inr rfl
  have built : Served sampleHash personHistory {samplePath} namesBase
      (KeepsLookups sampleHash personColumns namesBase) citiesWorld (.new namesBase.root) :=
    .build .start (visited_sample alice) keeps
      (buildIndex_single named_cityColumn (parquetEntries_sample alice) rfl)
  exact (served_same_version personHistory_differ ownFiles_person (Set.injOn_singleton _ _) reached
    (.load built (sampleHash samplePath) cityColumn)).1 _ (by decide)

/-! ## A file that grows under an engine -/

/-- The sample file, rewritten with a second row group. -/
def grownFile : FileTree.DataFile where
  mtime := 1700000060
  size := 2048
  content := .ofStrings sampleColumn [["alice".toList], ["carol".toList]] (by decide)

def grownHistory : Path → Set FileTree.DataFile := fun _ => {sampleFile, grownFile}

/-- The sample file, indexed. -/
def sampleBase : World :=
  ⟨singleTree samplePath sampleFile, singleRoot samplePath sampleFile sampleColumn⟩

/-- The grown file, indexed over the sample. -/
def grownWorld : World :=
  ⟨singleTree samplePath grownFile,
    IndexRoot.indexed (singleRoot samplePath sampleFile sampleColumn) samplePath grownFile
      sampleColumn⟩

theorem reached_sampleBase :
    Reached sampleHash grownHistory {samplePath} (MovesAlone sampleHash personColumns)
      sampleBase :=
  reached_single (Or.inl rfl) (movesAlone_empty sampleFile)

/-- The file grows and is indexed again. -/
theorem served_grown :
    Served sampleHash grownHistory {samplePath} sampleBase (fun _ _ _ _ => True) grownWorld
      (.new sampleBase.root) := by
  have made : Served sampleHash grownHistory {samplePath} sampleBase (fun _ _ _ _ => True)
      sampleBase (.new sampleBase.root) := .start
  have rewritten := made.change (singleTree samplePath grownFile) (known_singleTree (Or.inr rfl))
  have rebuilt : buildIndex sampleHash (singleTree samplePath grownFile) sampleBase.root sampleDir
      sampleColumn = .ok grownWorld.root :=
    buildIndex_single named_sampleColumn (parquetEntries_sample grownFile) rfl
  exact rewritten.build (visited_sample grownFile) trivial rebuilt

/-- An engine made before reads the new FST with the old row-group count, and
drops the row group it finds. -/
theorem late_lookup_refuted :
    Reached sampleHash grownHistory {samplePath} (MovesAlone sampleHash personColumns)
        sampleBase ∧
      Served sampleHash grownHistory {samplePath} sampleBase (fun _ _ _ _ => True) grownWorld
        (.new sampleBase.root) ∧
      (IndexQueryEngine.new sampleBase.root).fileAnswer grownWorld.root sampleColumn
        (fun set => searchSet set "carol".toList) (sampleHash samplePath) = .ok [1] ∧
      (scan sampleHash ⟨fun _ => .ok ()⟩ grownWorld.tree grownWorld.root (.new sampleBase.root)
        [nameIs "carol".toList]).1 = .ok ⟨[nameIs "carol".toList], []⟩ ∧
      ¬ ∃ file, OneVersion personColumns grownWorld.root (.new sampleBase.root)
        (sampleHash samplePath) file := by
  have found : (IndexQueryEngine.new sampleBase.root).fileAnswer grownWorld.root sampleColumn
      (fun set => searchSet set "carol".toList) (sampleHash samplePath) = .ok [1] := by rfl
  refine ⟨reached_sampleBase, served_grown, found, by rfl, ?_⟩
  rintro ⟨file, version⟩
  have below := version.inRange sampleColumn _ _ found 1 (by simp)
  have count : (IndexQueryEngine.new sampleBase.root).numRowGroups (sampleHash samplePath) =
      some 1 := by decide
  rw [version.count] at count
  have one := Option.some.inj count
  omega

end Pdq
