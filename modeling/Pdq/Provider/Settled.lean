/- Pdq.Provider.Settled -- queries where there is nothing left to index.

`needs_indexing` compares a stamp, a query reads row groups.  Over a life of file
changes, index runs and pruning runs the one vouches for the other: where
`needs_indexing` finds nothing to do under a directory, and what else is on record
is gone, a query returns what a full read of the directory returns
(`scan_of_settled`).  Sub-directories of files that are gone may still be there: a
scan passes over them, and what is left when they are taken away mirrors the files
(`mirrors_of_settled`). -/
import Pdq.Provider.Execute
import Pdq.Provider.Pruning
import Pdq.Query.Maintained

namespace Pdq

open Theory Theory.SharedStamp

set_option autoImplicit false

/-- `needs_indexing` asks for nothing under the directory, and every other file on
record is gone. -/
structure Settled (calculateFileHash : Path → Str) (paths : Set Path) (world : World)
    (dataDir : Path) (column : Column) : Prop where
  visited : ∀ path ∈ world.tree.parquetEntries dataDir, path ∈ paths
  readable : ∀ path ∈ world.tree.parquetEntries dataDir,
    ∃ file, world.tree.dataFile? path = some file
  done : ∀ path ∈ world.tree.parquetEntries dataDir,
    needsIndexing calculateFileHash world.tree world.root path column = .ok false
  gone : ∀ path ∈ paths, world.root.lookup (calculateFileHash path) ≠ none →
    ¬ path ∈ world.tree.parquetEntries dataDir → world.tree.canonicalize path = none

section Settled

variable {calculateFileHash : Path → Str} {history : Path → Set FileTree.DataFile}
  {paths : Set Path} {columns : Set Column} {world : World} {catalogue : Catalogue}
  {dataDir : Path} {column : Column}
  {path : Path} {file : FileTree.DataFile}

theorem legible_of_maintains (noFeed : ∀ path ∈ paths, ¬ '\n' ∈ path)
    (maintains : Maintains calculateFileHash history paths columns world catalogue) :
    Legible calculateFileHash world.root where
  written := maintains.written
  names fileHash path mapped := by
    rw [IndexQueryEngine.new_fileMap] at mapped
    obtain ⟨indexDir, present, named⟩ := Option.map_eq_some_iff.mp mapped
    obtain ⟨path', -, hashed, count, entry⟩ := maintains.mapEntry noFeed present
    rw [entry] at named
    rw [← named, hashed]
  counted fileHash indexDir present := by
    obtain ⟨path, -, -, count, entry⟩ := maintains.mapEntry noFeed present
    exact ⟨count, congrArg Prod.snd entry⟩

/-- The sub-directory of a file under the directory is a copy of the file as it is. -/
theorem describes_of_settled (differ : StampsDiffer history) (inColumns : column ∈ columns)
    (maintains : Maintains calculateFileHash history paths columns world catalogue)
    (settled : Settled calculateFileHash paths world dataDir column)
    (inWalk : path ∈ world.tree.parquetEntries dataDir)
    (found : world.tree.dataFile? path = some file) :
    (world.root.dir (calculateFileHash path)).UpToDate file column ∧
      Describes ((world.root.dir (calculateFileHash path)).slot columns)
        (version columns file) := by
  have upToDate := (needsIndexing_ok found (settled.done path inWalk)).mp rfl
  refine ⟨upToDate, ?_⟩
  have fresh : ((world.root.dir (calculateFileHash path)).slot columns).Fresh
      (version columns file) ⟨column, inColumns⟩ := fresh_iff.mpr upToDate
  exact (maintains.coherent path (settled.visited path inWalk)).describes
    (stampsIdentify differ path) ⟨file, maintains.known path file found, rfl⟩ fresh.2

theorem covers_of_settled (differ : StampsDiffer history) (inColumns : column ∈ columns)
    (maintains : Maintains calculateFileHash history paths columns world catalogue)
    (settled : Settled calculateFileHash paths world dataDir column)
    (inWalk : path ∈ world.tree.parquetEntries dataDir) :
    Covers calculateFileHash world.tree column world.root path := by
  obtain ⟨file, found⟩ := settled.readable path inWalk
  obtain ⟨⟨held, -⟩, copy⟩ := describes_of_settled differ inColumns maintains settled inWalk found
  obtain ⟨fst, there⟩ := Option.ne_none_iff_exists'.mp held
  exact ⟨file, found, there.trans (congrArg some (copy.entry ⟨column, inColumns⟩ fst there))⟩

/-- Its record is that of the file as it is. -/
theorem recorded_of_settled (differ : StampsDiffer history) (inColumns : column ∈ columns)
    (distinct : Set.InjOn calculateFileHash paths) (noFeed : ∀ path ∈ paths, ¬ '\n' ∈ path)
    (maintains : Maintains calculateFileHash history paths columns world catalogue)
    (settled : Settled calculateFileHash paths world dataDir column)
    (inWalk : path ∈ world.tree.parquetEntries dataDir)
    (found : world.tree.dataFile? path = some file) {indexDir : IndexDir}
    (present : world.root.lookup (calculateFileHash path) = some indexDir) :
    indexDir.metadata = some (.text
      (metadataContent path file.mtime file.size file.content.numRowGroups)) := by
  obtain ⟨path', member, hashed, selected, recorded, inHistory, written⟩ :=
    maintains.versions _ _ present
  obtain rfl := distinct member (settled.visited path inWalk) hashed
  obtain ⟨⟨-, contents, text, stamped⟩, -⟩ :=
    describes_of_settled differ inColumns maintains settled inWalk found
  have one : OneLine path' := oneLine_of_hasParquetExtension selected (noFeed path' member)
  rw [IndexRoot.dir_of_lookup present, written] at text
  cases text
  rw [storedStamp_content one] at stamped
  obtain ⟨mtime, size⟩ := Prod.mk.inj (Option.some.inj stamped)
  obtain rfl : recorded = file :=
    eq_of_stamp differ inHistory (maintains.known path' file found) mtime size
  exact written

/-- **What a pruning run would leave mirrors the files.** -/
theorem mirrors_of_settled (differ : StampsDiffer history) (inColumns : column ∈ columns)
    (distinct : Set.InjOn calculateFileHash paths) (noFeed : ∀ path ∈ paths, ¬ '\n' ∈ path)
    (maintains : Maintains calculateFileHash history paths columns world catalogue)
    (settled : Settled calculateFileHash paths world dataDir column) {root : IndexRoot}
    (part : ∀ fileHash, root.lookup fileHash = world.root.lookup fileHash ∨
      root.lookup fileHash = none)
    (lookups : ∀ path ∈ paths, root.lookup (calculateFileHash path) =
      if (world.tree.resolve path).isNone then none
      else world.root.lookup (calculateFileHash path)) :
    Mirrors calculateFileHash world.tree columns (world.tree.parquetEntries dataDir) root := by
  intro fileHash indexDir left
  have present : world.root.lookup fileHash = some indexDir := by
    rcases part fileHash with same | removed
    · exact same ▸ left
    · rw [removed] at left
      cases left
  obtain ⟨path, member, rfl, -⟩ := maintains.versions _ _ present
  have inWalk : path ∈ world.tree.parquetEntries dataDir := by
    by_contra outside
    have unresolved := settled.gone path member (by simp [present]) outside
    rw [lookups path member, FileTree.resolve, unresolved] at left
    cases left
  obtain ⟨file, found⟩ := settled.readable path inWalk
  have written := recorded_of_settled differ inColumns distinct noFeed maintains settled inWalk
    found present
  obtain ⟨-, copy⟩ := describes_of_settled differ inColumns maintains settled inWalk found
  rw [IndexRoot.dir_of_lookup present] at copy
  exact ⟨path, inWalk, file, rfl, found, written,
    fun other member' fst held => copy.entry ⟨other, member'⟩ fst held⟩

/-- What is planned for a hash is the same over two index directories that agree on
it. -/
theorem plannedFile_of_agree {root root' : IndexRoot} {filters : List Expr} {tree : FileTree}
    (legible : Legible calculateFileHash root) (legible' : Legible calculateFileHash root')
    {fileHash : Str} (agree : root'.lookup fileHash = root.lookup fileHash)
    {rowGroups : SortedSet Nat}
    (left : (freshPruning calculateFileHash root filters).fileRowGroups.lookup fileHash =
      some rowGroups) :
    plannedFile tree (.new root') (freshPruning calculateFileHash root' filters).hashToPath
        ⟨fileHash, rowGroups⟩ =
      plannedFile tree (.new root) (freshPruning calculateFileHash root filters).hashToPath
        ⟨fileHash, rowGroups⟩ := by
  have left' : (freshPruning calculateFileHash root' filters).fileRowGroups.lookup fileHash =
      some rowGroups := (fileRowGroups_of_agree legible legible' agree).trans left
  refine Option.ext fun file => ⟨fun planned => ?_, fun planned => ?_⟩
  · exact (planned_of_agree legible' legible agree.symm (FiniteMap.mem_entries_iff.mpr left')
      planned).2
  · exact (planned_of_agree legible legible' agree (FiniteMap.mem_entries_iff.mpr left) planned).2

/-- So are the rows that are read for it. -/
theorem filtered_of_agree {root root' : IndexRoot} {filters : List Expr} {tree : FileTree}
    (legible : Legible calculateFileHash root) (legible' : Legible calculateFileHash root')
    {fileHash : Str} (agree : root'.lookup fileHash = root.lookup fileHash) (p : Row → Bool) :
    (((freshPruning calculateFileHash root' filters).fileRowGroups.lookup fileHash).map
        fun rowGroups => (readEntry tree (.new root')
          (freshPruning calculateFileHash root' filters).hashToPath fileHash rowGroups).filter
            p).getD [] =
      (((freshPruning calculateFileHash root filters).fileRowGroups.lookup fileHash).map
        fun rowGroups => (readEntry tree (.new root)
          (freshPruning calculateFileHash root filters).hashToPath fileHash rowGroups).filter
            p).getD [] := by
  rw [fileRowGroups_of_agree legible legible' agree]
  cases left : (freshPruning calculateFileHash root filters).fileRowGroups.lookup fileHash with
  | none => rfl
  | some rowGroups =>
      simp only [Option.map_some, readEntry, plannedFile_of_agree legible legible' agree left]

/-- Every file of a plan is one under the directory, planned as it is. -/
theorem planned_of_settled (differ : StampsDiffer history) (inColumns : column ∈ columns)
    (distinct : Set.InjOn calculateFileHash paths) (noFeed : ∀ path ∈ paths, ¬ '\n' ∈ path)
    (maintains : Maintains calculateFileHash history paths columns world catalogue)
    (settled : Settled calculateFileHash paths world dataDir column)
    (stores : ∀ path ∈ world.tree.parquetEntries dataDir, world.tree.Stores path)
    {filters : List Expr} {session : Session} {plan : ScanPlan}
    (returned : (scan calculateFileHash session world.tree world.root (.new world.root)
      filters).1 = .ok plan) {planned : PartitionedFile} (member : planned ∈ plan.files) :
    ∃ path file, PlannedFrom world.tree planned path file := by
  have legible := legible_of_maintains noFeed maintains
  rw [scan_files returned] at member
  obtain ⟨entry, inEntries, adds⟩ := List.mem_filterMap.mp member
  obtain ⟨filePath, canonicalPath, totalRgs, lead', resolved, counted, -, -, rfl⟩ :=
    plannedFile_eq_some_iff.mp adds
  obtain ⟨path, mapped, lead⟩ := path_of_pruned legible (FiniteMap.mem_entries_iff.mp inEntries)
  obtain rfl : path = filePath := Option.some.inj (lead.symm.trans lead')
  rw [IndexQueryEngine.new_fileMap] at mapped
  obtain ⟨indexDir, present, named⟩ := Option.map_eq_some_iff.mp mapped
  obtain ⟨path', inPaths, hashed, count, record⟩ := maintains.mapEntry noFeed present
  rw [record] at named
  obtain rfl : path' = path := named
  rw [← hashed] at present
  have inWalk : path' ∈ world.tree.parquetEntries dataDir := by
    by_contra outside
    rw [settled.gone path' inPaths (by rw [present]; exact nofun) outside] at resolved
    cases resolved
  obtain ⟨file, found⟩ := settled.readable path' inWalk
  refine ⟨path', file, found, resolved, ?_, stores path' inWalk⟩
  have written := recorded_of_settled differ inColumns distinct noFeed maintains settled inWalk
    found present
  have one : OneLine path' :=
    oneLine_of_hasParquetExtension (List.mem_filter.mp inWalk).2 (noFeed path' inPaths)
  have numbered : (IndexQueryEngine.new world.root).numRowGroups entry.1 =
      some file.content.numRowGroups := by
    rw [IndexQueryEngine.new_numRowGroups, ← hashed, present, Option.bind_some,
      IndexDir.mapEntry_recorded one written,
      parseUnsigned_decimal (n := file.content.numRowGroups) file.content.fits]
  rw [rowGroupCount, numbered] at counted
  cases counted
  exact ParquetAccessPlan.length_ofRowGroups _ _

/-- A pruning leaves the sub-directories of the files under the directory. -/
theorem agree_of_settled (settled : Settled calculateFileHash paths world dataDir column)
    {root : IndexRoot}
    (lookups : ∀ path ∈ paths, root.lookup (calculateFileHash path) =
      if (world.tree.resolve path).isNone then none
      else world.root.lookup (calculateFileHash path))
    (inWalk : path ∈ world.tree.parquetEntries dataDir) :
    root.lookup (calculateFileHash path) = world.root.lookup (calculateFileHash path) := by
  obtain ⟨file, found⟩ := settled.readable path inWalk
  obtain ⟨canonicalPath, resolved, content⟩ := node_of_dataFile found
  obtain ⟨node, there, -⟩ := Option.bind_eq_some_iff.mp content
  rw [lookups path (settled.visited path inWalk), FileTree.resolve, resolved, Option.bind_some,
    there]
  rfl

/-- A hash that is of no file under the directory leads to a path that is gone, and nothing
is read for it. -/
theorem readEntry_of_gone (noFeed : ∀ path ∈ paths, ¬ '\n' ∈ path)
    (maintains : Maintains calculateFileHash history paths columns world catalogue)
    (settled : Settled calculateFileHash paths world dataDir column) {filters : List Expr}
    {fileHash : Str} {rowGroups : SortedSet Nat}
    (left : (freshPruning calculateFileHash world.root filters).fileRowGroups.lookup fileHash =
      some rowGroups) :
    fileHash ∈ (world.tree.parquetEntries dataDir).map calculateFileHash ∨
      readEntry world.tree (.new world.root)
        (freshPruning calculateFileHash world.root filters).hashToPath fileHash rowGroups = [] := by
  have legible := legible_of_maintains noFeed maintains
  obtain ⟨path, mapped, lead⟩ := path_of_pruned legible left
  have hashed := legible.names fileHash path mapped
  by_cases inWalk : path ∈ world.tree.parquetEntries dataDir
  · exact Or.inl (List.mem_map.mpr ⟨path, inWalk, hashed⟩)
  · refine Or.inr ?_
    rw [IndexQueryEngine.new_fileMap] at mapped
    obtain ⟨indexDir, present, entry⟩ := Option.map_eq_some_iff.mp mapped
    obtain ⟨path', member, hashed', count, entry'⟩ := maintains.mapEntry noFeed present
    rw [entry'] at entry
    obtain rfl : path' = path := entry
    have unresolved := settled.gone path' member (by rw [hashed', present]; simp) inWalk
    have nothing : plannedFile world.tree (.new world.root)
        (freshPruning calculateFileHash world.root filters).hashToPath ⟨fileHash, rowGroups⟩ =
          none := by
      refine Option.eq_none_iff_forall_not_mem.mpr fun file planned => ?_
      obtain ⟨filePath, canonicalPath, -, lead', resolved, -⟩ :=
        plannedFile_eq_some_iff.mp planned
      cases lead.symm.trans lead'
      rw [unresolved] at resolved
      cases resolved
    rw [readEntry, nothing]
    rfl

/-- **A query where there is nothing left to index returns what a full read
returns.** -/
theorem scan_of_settled (differ : StampsDiffer history) (inColumns : column ∈ columns)
    (distinct : Set.InjOn calculateFileHash paths) (noFeed : ∀ path ∈ paths, ¬ '\n' ∈ path)
    (maintains : Maintains calculateFileHash history paths columns world catalogue)
    (settled : Settled calculateFileHash paths world dataDir column)
    (named : WellNamed calculateFileHash world.tree dataDir)
    (stores : ∀ path ∈ world.tree.parquetEntries dataDir, world.tree.Stores path)
    {filters : List Expr}
    (compares : ComparesStrings world.tree dataDir column columns filters) {session : Session}
    (accepts : session.createPhysicalExpr filters = .ok ()) (semantics : FilterSemantics) :
    ∃ plan rows,
      (scan calculateFileHash session world.tree world.root (.new world.root) filters).1 =
        .ok plan ∧
      collect world.tree plan = .ok rows ∧
      (rows.filter (satisfiesAll semantics.holds filters)).Perm
        ((allRows world.tree dataDir).filter (satisfiesAll semantics.holds filters)) := by
  have legible := legible_of_maintains noFeed maintains
  obtain ⟨root, count, -, part, lookups⟩ :=
    pruneOrphans_recorded distinct noFeed maintains.records world.tree
  have mirrors := mirrors_of_settled differ inColumns distinct noFeed maintains settled part lookups
  obtain ⟨plan, returned⟩ := scan_returns_of_legible legible world.tree accepts
  have read := collect_eq fun planned member =>
    planned_of_settled differ inColumns distinct noFeed maintains settled stores returned member
  refine ⟨plan, _, returned, read, ?_⟩
  have hashes : ((world.tree.parquetEntries dataDir).map calculateFileHash).Nodup :=
    (List.Nodup.of_map _ named.distinctFiles).map_on fun path inWalk path' inWalk' same =>
      named.distinctHashes inWalk inWalk' same
  rw [plannedRows_eq (scan_files returned), List.filter_flatMap, allRows, List.filter_flatMap]
  refine (FiniteMap.perm_flatMap_entries_of_nil _ (fun fileHash rowGroups =>
    (readEntry world.tree (.new world.root)
      (freshPruning calculateFileHash world.root filters).hashToPath fileHash rowGroups).filter
        (satisfiesAll semantics.holds filters)) hashes fun fileHash rowGroups left => ?_).trans ?_
  · refine (readEntry_of_gone noFeed maintains settled left).imp_right fun nothing => ?_
    rw [nothing, List.filter_nil]
  · rw [List.flatMap_map]
    refine List.Perm.of_eq (List.flatMap_congr fun path inWalk => ?_)
    obtain ⟨file, found⟩ := settled.readable path inWalk
    have agree := agree_of_settled settled lookups inWalk
    rw [FileTree.openParquet_of_dataFile found]
    have covers : Covers calculateFileHash world.tree column root path := by
      obtain ⟨file', found', keys⟩ := covers_of_settled differ inColumns maintains settled inWalk
      refine ⟨file', found', ?_⟩
      rw [IndexRoot.dir, agree]
      exact keys
    exact (filtered_of_agree legible (legible.of_part part) agree _).symm.trans
      (readEntry_eq named compares (.refl _ _) mirrors inWalk covers found)

/-! ## After an index run -/

/-- **What an index run leaves of a file** is up to date. -/
theorem skipped_of_build (differ : StampsDiffer history) (own : OwnFiles columns)
    (distinct : Set.InjOn calculateFileHash paths) (noFeed : ∀ path ∈ paths, ¬ '\n' ∈ path)
    (maintains : Maintains calculateFileHash history paths columns world catalogue)
    (visited : ∀ path ∈ world.tree.parquetEntries dataDir, path ∈ paths)
    (may : MovesAlone calculateFileHash columns world dataDir column) {root : IndexRoot}
    (ok : buildIndex calculateFileHash world.tree world.root dataDir column = .ok root)
    (inWalk : path ∈ world.tree.parquetEntries dataDir)
    (found : world.tree.dataFile? path = some file) :
    needsIndexing calculateFileHash world.tree root path column = .ok false := by
  have maintained := maintains_build differ own distinct maintains visited may ok
  have member := visited path inWalk
  have injective : ∀ other ∈ world.tree.parquetEntries dataDir,
      calculateFileHash other = calculateFileHash path → other = path :=
    fun other inWalk' => distinct (visited other inWalk') member
  obtain ⟨needed, decided⟩ : ∃ needed,
      needsIndexing calculateFileHash world.tree root path column = .ok needed :=
    needsIndexing_decides found (maintained.records.textOnly _)
  have one : OneLine path :=
    oneLine_of_hasParquetExtension (List.mem_filter.mp inWalk).2 (noFeed path member)
  have stamp := stamp_of_build own may.1 differ injective maintains.known
    (maintains.coherent path member) one inWalk found ok
  have inHistory : version columns file ∈ version columns '' history path :=
    ⟨file, maintains.known path file found, rfl⟩
  have entry := refresh_entry (stampsIdentify differ path) (maintains.coherent path member)
    inHistory ⟨column, may.1⟩
  have named := named_of_buildIndexExt inWalk ok
  have fresh : ((root.dir (calculateFileHash path)).slot columns).Fresh (version columns file)
      ⟨column, may.1⟩ := by
    refine ⟨?_, by rw [slot_stamp]; exact stamp⟩
    rw [buildIndex_dir injective ok, if_pos inWalk, rebuilt_of_dataFile found,
      slot_refreshed own one _ _ ⟨column, may.1⟩ named, entry]
    exact Option.some_ne_none _
  rwa [(needsIndexing_ok found decided).mpr (fresh_iff.mp fresh)] at decided

/-- **An index run settles its directory**, when what else is on record is gone. -/
theorem settled_of_indexCommand (differ : StampsDiffer history) (own : OwnFiles columns)
    (distinct : Set.InjOn calculateFileHash paths) (noFeed : ∀ path ∈ paths, ¬ '\n' ∈ path)
    (maintains : Maintains calculateFileHash history paths columns world catalogue)
    (visited : ∀ path ∈ world.tree.parquetEntries dataDir, path ∈ paths)
    (readable : ∀ path ∈ world.tree.parquetEntries dataDir,
      ∃ file, world.tree.dataFile? path = some file)
    (gone : ∀ path ∈ paths, world.root.lookup (calculateFileHash path) ≠ none →
      ¬ path ∈ world.tree.parquetEntries dataDir → world.tree.canonicalize path = none)
    (may : MovesAlone calculateFileHash columns world dataDir column) {prune : Bool}
    {root : IndexRoot}
    (ok : indexCommand calculateFileHash world.tree world.root prune dataDir column = .ok root) :
    Settled calculateFileHash paths ⟨world.tree, root⟩ dataDir column := by
  obtain ⟨before, catalogue', maintains', part, ok'⟩ : ∃ before catalogue',
      Maintains calculateFileHash history paths columns ⟨world.tree, before⟩ catalogue' ∧
        (∀ fileHash, before.lookup fileHash = world.root.lookup fileHash ∨
          before.lookup fileHash = none) ∧
        buildIndex calculateFileHash world.tree before dataDir column = .ok root := by
    cases prune with
    | false => exact ⟨world.root, catalogue, maintains, fun _ => Or.inl rfl, ok⟩
    | true =>
        obtain ⟨middle, count, pruned, part, -⟩ :=
          pruneOrphans_recorded distinct noFeed maintains.records world.tree
        rw [indexCommand_true pruned] at ok
        exact ⟨middle, _, maintains_prune distinct noFeed maintains pruned, part, ok⟩
  constructor
  · exact visited
  · exact readable
  · intro path inWalk
    obtain ⟨file, found⟩ := readable path inWalk
    exact skipped_of_build differ own distinct noFeed maintains' visited (movesAlone_prune part may)
      ok' inWalk found
  · intro path member present outside
    have other : ∀ entry ∈ world.tree.parquetEntries dataDir,
        calculateFileHash entry ≠ calculateFileHash path := fun entry inWalk same =>
      outside (distinct (visited entry inWalk) member same ▸ inWalk)
    refine gone path member (fun absent => present ?_) outside
    show root.lookup (calculateFileHash path) = none
    rw [lookup_build_ne other ok']
    rcases part (calculateFileHash path) with same | removed
    · rw [same, absent]
    · exact removed

end Settled

end Pdq
