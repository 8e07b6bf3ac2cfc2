/- Pdq.Index.Prune -- what prune_orphans removes, and from where.

A pruning run removes the sub-directories whose recorded path does not resolve
and no other (`pruneOrphans_spec`).  The recorded path is the text the indexing
process was given: a relative one is resolved against whatever directory the
pruning process runs in.  `Disk` is the file system by absolute paths, and a
process sees it from its working directory (`Disk.seenFrom`).  Runs keep, beside
the index directory, the place each file was indexed at; where every record leads
from the pruning directory to that place, the run removes exactly the
sub-directories of files that are gone (`prunes_exactly`).  Elsewhere it removes
the index of a file that is there (`other_working_directory_refuted`). -/
import Pdq.Index.Rebuild

namespace Pdq

open Theory

set_option autoImplicit false

/-! ## One pruning run -/

/-- Whether a sub-directory that records a path of one line is removed. -/
theorem isOrphan_recorded {tree : FileTree} {indexDir : IndexDir} {filePath : Path}
    (one : OneLine filePath) {mtime size : UInt64} {numRowGroups : Nat}
    (written : indexDir.metadata =
      some (.text (metadataContent filePath mtime size numRowGroups))) :
    isOrphan tree indexDir = .ok (tree.resolve filePath).isNone := by
  simp only [isOrphan, written, originalPath_content one]

/-- The loop body of `prune_orphans` on a sub-directory whose answer is known. -/
def removeOrphan (orphan : Str → Bool) (pruned : IndexRoot × Nat)
    (entry : Sigma fun _ : Str => IndexDir) : IndexRoot × Nat :=
  if orphan entry.1 then (pruned.1.erase entry.1, pruned.2 + 1) else pruned

theorem foldl_removeOrphan {orphan : Str → Bool} (l : List (Sigma fun _ : Str => IndexDir))
    (pruned : IndexRoot × Nat) :
    (∀ fileHash, (l.foldl (removeOrphan orphan) pruned).1.lookup fileHash =
      if fileHash ∈ l.keys ∧ orphan fileHash = true then none else pruned.1.lookup fileHash) ∧
    (l.foldl (removeOrphan orphan) pruned).2 = pruned.2 + (l.keys.filter orphan).length := by
  induction l generalizing pruned with
  | nil => simp
  | cons entry l ih =>
      obtain ⟨lookups, count⟩ := ih (removeOrphan orphan pruned entry)
      rw [List.foldl_cons, List.keys_cons]
      refine ⟨fun fileHash => ?_, ?_⟩
      · rw [lookups fileHash]
        by_cases same : fileHash = entry.1
        · subst same
          cases named : orphan entry.1 with
          | true => simp [removeOrphan, named, AList.lookup_erase]
          | false => simp [removeOrphan, named]
        · cases named : orphan entry.1 with
          | true => simp [removeOrphan, named, same, AList.lookup_erase_ne same]
          | false => simp [removeOrphan, named, same]
      · rw [count]
        cases named : orphan entry.1 with
        | true =>
            rw [List.filter_cons_of_pos named, List.length_cons, removeOrphan, if_pos named]
            omega
        | false => simp [removeOrphan, named]

/-- **A pruning run removes the sub-directories that are orphans and no other**,
and returns how many they are. -/
theorem pruneOrphans_spec {tree : FileTree} {root : IndexRoot} {orphan : Str → Bool}
    (answers : ∀ fileHash indexDir, root.lookup fileHash = some indexDir →
      isOrphan tree indexDir = .ok (orphan fileHash)) :
    ∃ root', pruneOrphans tree root = .ok (root', (root.keys.filter orphan).length) ∧
      ∀ fileHash, root'.lookup fileHash =
        if orphan fileHash = true then none else root.lookup fileHash := by
  have body : ∀ entry ∈ root.entries, ∀ pruned : IndexRoot × Nat,
      (do
        if ← isOrphan tree entry.2 then return (pruned.1.erase entry.1, pruned.2 + 1)
        else return pruned : Except IndexError (IndexRoot × Nat)) =
      .ok (removeOrphan orphan pruned entry) := by
    intro entry member pruned
    rw [answers entry.1 entry.2 (FiniteMap.mem_entries_iff.mp member), removeOrphan]
    cases orphan entry.1 <;> rfl
  obtain ⟨lookups, count⟩ := foldl_removeOrphan root.entries (root, 0)
  refine ⟨_, ?_, fun fileHash => (lookups fileHash).trans ?_⟩
  · rw [pruneOrphans, foldlM_eq_ok_of_step body, ← Nat.zero_add (List.length _)]
    exact congrArg Except.ok (Prod.ext rfl count)
  · by_cases known : fileHash ∈ root
    · have listed : fileHash ∈ root.entries.keys := known
      simp [listed]
    · rw [AList.lookup_eq_none.mpr known]
      simp

/-! ## Processes and their working directories -/

def isAbsolute (path : Path) : Bool := decide (path.head? = some '/')

/-- `Path::join` -/
def join (base path : Path) : Path :=
  if isAbsolute path then path
  else
    match base.getLast? with
    | none => path
    | some last => if last = '/' then base ++ path else base ++ '/' :: path

/-- Joining a relative path puts it behind the base. -/
theorem join_eq_append (base : Path) : ∃ front, (∀ c ∈ front, c ∈ base ∨ c = '/') ∧
    ∀ path, isAbsolute path = false → join base path = front ++ path := by
  cases last : base.getLast? with
  | none =>
      refine ⟨[], fun c member => absurd member List.not_mem_nil, fun path relative => ?_⟩
      simp [join, relative, last]
  | some c =>
      by_cases slash : c = '/'
      · refine ⟨base, fun c member => Or.inl member, fun path relative => ?_⟩
        simp [join, relative, last, slash]
      · refine ⟨base ++ ['/'], fun c member => ?_, fun path relative => ?_⟩
        · simpa using member
        · simp [join, relative, last, slash]

/-- The file system, asked by absolute paths. -/
structure Disk where
  /-- The entries under a directory in the order of the walk, each as its path
  below the directory; the empty one is the directory itself. -/
  walk : Path → List Path
  canonicalize : Path → Option Path
  /-- The node at a canonical path. -/
  node : Path → Option FileNode
  objectStoreAccepts : Path → Bool

namespace Disk

def resolve (disk : Disk) (path : Path) : Option FileNode :=
  (disk.canonicalize path).bind disk.node

/-- What a process with working directory `cwd` sees: it resolves a relative path
against `cwd`, and a walk spells its entries as the directory is spelled. -/
def seenFrom (disk : Disk) (cwd : Path) : FileTree where
  walkDir dataDir :=
    if dataDir = [] then []
    else (disk.walk (join cwd dataDir)).map fun below =>
      if below = [] then dataDir else join dataDir below
  canonicalize path := if path = [] then none else disk.canonicalize (join cwd path)
  node := disk.node
  objectStoreAccepts := disk.objectStoreAccepts

theorem seenFrom_resolve (disk : Disk) (cwd : Path) {path : Path} (nonempty : path ≠ []) :
    (disk.seenFrom cwd).resolve path = disk.resolve (join cwd path) := by
  simp [FileTree.resolve, seenFrom, resolve, nonempty]

end Disk

/-! ## Where each file was indexed -/

/-- An indexed file: the working directory of the process that indexed it, and
the path that process gave it. -/
structure Origin where
  cwd : Path
  path : Path
  deriving DecidableEq, Repr

/-- The place the file was indexed at. -/
def Origin.place (origin : Origin) : Path := join origin.cwd origin.path

/-- The file each sub-directory was last indexed from. -/
abbrev Origins := Str → Option Origin

section Traced

variable (calculateFileHash : Path → Str) (tree : FileTree) (cwd : Path) (column : Column)
  (force : Bool)

/-- `indexEntry`, and the origin of the file it indexes. -/
def tracedEntry (state : IndexRoot × Origins) (filePath : Path) :
    Except IndexError (IndexRoot × Origins) := do
  let needed ← (if force then .ok true
    else needsIndexing calculateFileHash tree state.1 filePath column)
  if needed then
    let root ← indexFile calculateFileHash tree state.1 filePath column
    return (root, Function.update state.2 (calculateFileHash filePath) (some ⟨cwd, filePath⟩))
  else return state

/-- `buildIndexExt`, and the origins of the files it indexes. -/
def tracedBuild (state : IndexRoot × Origins) (dataDir : Path) :
    Except IndexError (IndexRoot × Origins) :=
  (tree.parquetEntries dataDir).foldlM (tracedEntry calculateFileHash tree cwd column force) state

/-- **The origins decide nothing**: without them the run is `build_index_ext`. -/
theorem tracedBuild_forget (state : IndexRoot × Origins) (dataDir : Path) :
    (tracedBuild calculateFileHash tree cwd column force state dataDir).map Prod.fst =
      buildIndexExt calculateFileHash tree state.1 dataDir column force := by
  refine foldlM_forget (fun filePath before => ?_) _ state
  unfold tracedEntry indexEntry
  cases force with
  | true =>
      cases indexFile calculateFileHash tree before.1 filePath column <;> rfl
  | false =>
      cases needsIndexing calculateFileHash tree before.1 filePath column with
      | error e => rfl
      | ok needed =>
          cases needed with
          | false => rfl
          | true => cases indexFile calculateFileHash tree before.1 filePath column <;> rfl

end Traced

/-- The disk, the index directory and the origins of its sub-directories. -/
structure Site where
  disk : Disk
  root : IndexRoot
  origins : Origins

/-- The states reached from an empty index directory by changing the disk and by
completed index runs, each of a process of its own. -/
inductive Site.Reached (calculateFileHash : Path → Str) : Site → Prop
  | start (disk : Disk) : Reached calculateFileHash ⟨disk, ∅, fun _ => none⟩
  | change {site : Site} (reached : Reached calculateFileHash site) (disk : Disk) :
      Reached calculateFileHash ⟨disk, site.root, site.origins⟩
  | build {site : Site} (reached : Reached calculateFileHash site) {cwd dataDir : Path}
      {column : Column} {force : Bool} {built : IndexRoot × Origins}
      (ok : tracedBuild calculateFileHash (site.disk.seenFrom cwd) cwd column force
        (site.root, site.origins) dataDir = .ok built) :
      Reached calculateFileHash ⟨site.disk, built.1, built.2⟩

/-- Every sub-directory has an origin and records its path. -/
def RecordsOrigins (state : IndexRoot × Origins) : Prop :=
  ∀ fileHash indexDir, state.1.lookup fileHash = some indexDir →
    ∃ origin, state.2 fileHash = some origin ∧ hasParquetExtension origin.path = true ∧
      ∃ mtime size numRowGroups,
        indexDir.metadata = some (.text (metadataContent origin.path mtime size numRowGroups))

section Sites

variable {calculateFileHash : Path → Str} {site : Site} {cwd : Path}

/-- What a visit does: nothing, or it indexes the data file and notes its origin. -/
theorem tracedEntry_cases {tree : FileTree} {column : Column} {force : Bool}
    {state state' : IndexRoot × Origins} {filePath : Path}
    (ok : tracedEntry calculateFileHash tree cwd column force state filePath = .ok state') :
    state' = state ∨ ∃ file, tree.dataFile? filePath = some file ∧
      state' = (state.1.insert (calculateFileHash filePath)
          ((state.1.dir (calculateFileHash filePath)).indexed filePath file column),
        Function.update state.2 (calculateFileHash filePath) (some ⟨cwd, filePath⟩)) := by
  obtain ⟨needed, -, ok⟩ := bind_eq_ok_iff.mp ok
  cases needed with
  | false =>
      cases ok
      exact Or.inl rfl
  | true =>
      obtain ⟨root, indexed, ok⟩ := bind_eq_ok_iff.mp ok
      obtain ⟨-, file, found, rfl⟩ := indexFile_effect indexed
      cases ok
      exact Or.inr ⟨file, found, rfl⟩

/-- **Index runs record the origins of the files they index.** -/
theorem recordsOrigins_of_reached (reached : site.Reached calculateFileHash) :
    RecordsOrigins (site.root, site.origins) := by
  induction reached with
  | start disk => exact FiniteMap.forall_lookup_empty
  | change _ disk ih => exact ih
  | build _ ok ih =>
      refine foldlM_ok_invariant RecordsOrigins (fun path inWalk state state' held visit => ?_) ih
        ok
      rcases tracedEntry_cases visit with rfl | ⟨file, -, rfl⟩
      · exact held
      · refine FiniteMap.forall_lookup_insert ?_ fun fileHash indexDir other present => ?_
        · exact ⟨_, Function.update_self _ _ _, (List.mem_filter.mp inWalk).2, _, _, _,
            IndexDir.indexed_metadata _ _ _ _⟩
        · obtain ⟨origin, noted, rest⟩ := held fileHash indexDir present
          exact ⟨origin, (Function.update_of_ne other _ _).trans noted, rest⟩

/-! ## Pruning from a working directory -/

/-- `prune_orphans`, run in `cwd`, removes exactly the sub-directories of the
origins that are `gone`, leaves the others as they are, and counts what it
removes. -/
def Site.Prunes (site : Site) (cwd : Path) (gone : Origin → Bool) : Prop :=
  ∃ root' prunedCount,
    pruneOrphans (site.disk.seenFrom cwd) site.root = .ok (root', prunedCount) ∧
    (∀ fileHash indexDir, site.root.lookup fileHash = some indexDir →
      ∃ origin, site.origins fileHash = some origin ∧
        root'.lookup fileHash = if gone origin then none else some indexDir) ∧
    (∀ fileHash, site.root.lookup fileHash = none → root'.lookup fileHash = none) ∧
    prunedCount = (site.root.keys.filter fun fileHash => (root'.lookup fileHash).isNone).length

/-- It removes exactly those of which nothing is left at the place they were
indexed at. -/
def Site.PrunesExactly (site : Site) (cwd : Path) : Prop :=
  site.Prunes cwd fun origin => (site.disk.resolve origin.place).isNone

/-- From `cwd` the recorded path leads to the place of the file: it is one line,
and absolute or recorded in `cwd`. -/
def Origin.LeadsFrom (origin : Origin) (cwd : Path) : Prop :=
  ¬ '\n' ∈ origin.path ∧ (isAbsolute origin.path = true ∨ origin.cwd = cwd)

theorem Origin.LeadsFrom.join_eq {origin : Origin} (leads : origin.LeadsFrom cwd) :
    join cwd origin.path = origin.place := by
  rcases leads.2 with absolute | here
  · simp [Origin.place, join, absolute]
  · rw [← here, Origin.place]

/-- **What a pruning run in `cwd` decides by**: whether the recorded path resolves
from there. -/
theorem prunes_of_reached (reached : site.Reached calculateFileHash)
    (noFeed : ∀ fileHash origin, site.origins fileHash = some origin → ¬ '\n' ∈ origin.path)
    (cwd : Path) :
    site.Prunes cwd fun origin => (site.disk.resolve (join cwd origin.path)).isNone := by
  have records := recordsOrigins_of_reached reached
  let orphan : Str → Bool := fun fileHash =>
    (site.origins fileHash).all fun origin => (site.disk.resolve (join cwd origin.path)).isNone
  have decides : ∀ {fileHash origin}, site.origins fileHash = some origin →
      orphan fileHash = (site.disk.resolve (join cwd origin.path)).isNone := by
    intro fileHash origin noted
    simp only [orphan, noted, Option.all_some]
  have answers : ∀ fileHash indexDir, site.root.lookup fileHash = some indexDir →
      isOrphan (site.disk.seenFrom cwd) indexDir = .ok (orphan fileHash) := by
    intro fileHash indexDir present
    obtain ⟨origin, noted, selected, _, _, _, written⟩ := records fileHash indexDir present
    have one := oneLine_of_hasParquetExtension selected (noFeed fileHash origin noted)
    have nonempty : origin.path ≠ [] := by
      intro empty
      rw [empty] at selected
      exact absurd selected (by decide)
    rw [isOrphan_recorded one written, Disk.seenFrom_resolve _ _ nonempty, decides noted]
  obtain ⟨root', pruned, lookups⟩ := pruneOrphans_spec answers
  refine ⟨root', _, pruned, fun fileHash indexDir present => ?_, fun fileHash absent => ?_, ?_⟩
  · obtain ⟨origin, noted, -⟩ := records fileHash indexDir present
    exact ⟨origin, noted, by rw [lookups fileHash, present, decides noted]⟩
  · rw [lookups fileHash, absent, ite_self]
  · refine congrArg List.length (List.filter_congr fun fileHash member => ?_)
    obtain ⟨indexDir, present⟩ := FiniteMap.mem_iff_lookup.mp (AList.mem_keys.mpr member)
    rw [lookups fileHash, present]
    cases orphan fileHash <;> rfl

/-- **When pruning is exact**: every recorded path resolves from the pruning
directory just when there is something at the place it was recorded for. -/
theorem prunesExactly_iff (reached : site.Reached calculateFileHash)
    (noFeed : ∀ fileHash origin, site.origins fileHash = some origin → ¬ '\n' ∈ origin.path) :
    site.PrunesExactly cwd ↔ ∀ fileHash ∈ site.root, ∀ origin,
      site.origins fileHash = some origin →
        (site.disk.resolve (join cwd origin.path)).isNone =
          (site.disk.resolve origin.place).isNone := by
  obtain ⟨root', prunedCount, pruned, decided, kept, counted⟩ :=
    prunes_of_reached reached noFeed cwd
  constructor
  · rintro ⟨root'', prunedCount', again, exact_, -, -⟩ fileHash known origin noted
    cases pruned.symm.trans again
    obtain ⟨indexDir, present⟩ := FiniteMap.mem_iff_lookup.mp known
    obtain ⟨origin₁, noted₁, here⟩ := decided fileHash indexDir present
    obtain ⟨origin₂, noted₂, there⟩ := exact_ fileHash indexDir present
    cases noted.symm.trans noted₁
    cases noted.symm.trans noted₂
    rw [here] at there
    cases goneHere : (site.disk.resolve (join cwd origin.path)).isNone <;>
      cases goneThere : (site.disk.resolve origin.place).isNone <;>
      simp [goneHere, goneThere] at there ⊢
  · intro agree
    refine ⟨root', prunedCount, pruned, fun fileHash indexDir present => ?_, kept, counted⟩
    obtain ⟨origin, noted, here⟩ := decided fileHash indexDir present
    refine ⟨origin, noted, here.trans ?_⟩
    simp only [agree fileHash (FiniteMap.mem_of_lookup present) origin noted]

/-- **prune_orphans removes exactly the sub-directories of files that are gone**,
from a working directory in which every recorded path leads to the place it was
recorded for. -/
theorem prunes_exactly (reached : site.Reached calculateFileHash)
    (leads : ∀ fileHash origin, site.origins fileHash = some origin → origin.LeadsFrom cwd) :
    site.PrunesExactly cwd := by
  have noFeed : ∀ fileHash origin, site.origins fileHash = some origin → ¬ '\n' ∈ origin.path :=
    fun fileHash origin noted => (leads fileHash origin noted).1
  refine (prunesExactly_iff reached noFeed).mpr fun fileHash _ origin noted => ?_
  rw [(leads fileHash origin noted).join_eq]

/-- A traced run on a tree that visits one path that is to be indexed. -/
theorem tracedBuild_of_single {tree : FileTree} {state : IndexRoot × Origins}
    {dataDir filePath : Path} {column : Column} {file : FileTree.DataFile}
    (single : tree.parquetEntries dataDir = [filePath])
    (found : tree.dataFile? filePath = some file) (named : fstFile column ≠ none)
    (needed : needsIndexing calculateFileHash tree state.1 filePath column = .ok true) :
    tracedBuild calculateFileHash tree cwd column false state dataDir =
      .ok (state.1.insert (calculateFileHash filePath)
          ((state.1.dir (calculateFileHash filePath)).indexed filePath file column),
        Function.update state.2 (calculateFileHash filePath) (some ⟨cwd, filePath⟩)) := by
  simp only [tracedBuild, single, List.foldlM_cons, List.foldlM_nil, tracedEntry,
    Bool.false_eq_true, if_false, needed, indexFile_of_dataFile found named]
  rfl

end Sites

/-! ## Two working directories -/

/-- The disk with these files, each given by its directory and its name there. -/
def diskOf (files : List (Path × Path)) : Disk where
  walk dir := (files.filter fun file => decide (file.1 = dir)).map Prod.snd
  canonicalize path := (files.map (Function.uncurry join)).find? fun file => decide (file = path)
  node canonical :=
    ((files.map (Function.uncurry join)).find? fun file => decide (file = canonical)).map
      fun _ => ⟨some sampleFile.mtime, sampleFile.size, some sampleFile.content⟩
  objectStoreAccepts _ := true

def bothFiles : Disk :=
  diskOf [("/w/d".toList, "a.parquet".toList), ("/v".toList, "b.parquet".toList)]

def relativePath : Path := "d/a.parquet".toList

def absolutePath : Path := "/v/b.parquet".toList

/-- `d`, indexed by a process in `/w`. -/
def relativeSite : Site where
  disk := bothFiles
  root := .indexed ∅ relativePath sampleFile sampleColumn
  origins := Function.update (fun _ => none) (sampleHash relativePath)
    (some ⟨"/w".toList, relativePath⟩)

/-- Then `/v`, indexed by a process in `/x`. -/
def bothSite : Site where
  disk := bothFiles
  root := relativeSite.root.indexed absolutePath sampleFile sampleColumn
  origins := Function.update relativeSite.origins (sampleHash absolutePath)
    (some ⟨"/x".toList, absolutePath⟩)

theorem reached_relativeSite : relativeSite.Reached sampleHash := by
  have single : (bothFiles.seenFrom "/w".toList).parquetEntries "d".toList = [relativePath] := by
    decide
  have built : tracedBuild sampleHash (bothFiles.seenFrom "/w".toList) "/w".toList sampleColumn
      false (∅, fun _ => none) "d".toList = .ok (relativeSite.root, relativeSite.origins) :=
    tracedBuild_of_single single rfl named_sampleColumn rfl
  exact .build (.start bothFiles) built

theorem reached_bothSite : bothSite.Reached sampleHash := by
  have single : (bothFiles.seenFrom "/x".toList).parquetEntries "/v".toList = [absolutePath] := by
    decide
  have built : tracedBuild sampleHash (bothFiles.seenFrom "/x".toList) "/x".toList sampleColumn
      false (relativeSite.root, relativeSite.origins) "/v".toList =
        .ok (bothSite.root, bothSite.origins) :=
    tracedBuild_of_single single rfl named_sampleColumn rfl
  exact .build reached_relativeSite built

theorem origins_bothSite {fileHash : Str} {origin : Origin}
    (noted : bothSite.origins fileHash = some origin) :
    origin = ⟨"/x".toList, absolutePath⟩ ∨ origin = ⟨"/w".toList, relativePath⟩ := by
  simp only [bothSite, relativeSite, Function.update_apply] at noted
  split at noted
  · exact Or.inl (Option.some.inj noted).symm
  · split at noted
    · exact Or.inr (Option.some.inj noted).symm
    · cases noted

/-- When the file of `/w/d` is gone, a process in `/w` prunes its index only. -/
theorem prunes_exactly_sample :
    ∃ site : Site, site.Reached sampleHash ∧
      site.disk.resolve "/w/d/a.parquet".toList = none ∧
      (site.disk.resolve absolutePath).isSome ∧ site.PrunesExactly "/w".toList := by
  let left : Disk := diskOf [("/v".toList, "b.parquet".toList)]
  have reached : Site.Reached sampleHash ⟨left, bothSite.root, bothSite.origins⟩ :=
    .change reached_bothSite left
  refine ⟨_, reached, by decide, by decide, prunes_exactly reached fun fileHash origin noted => ?_⟩
  rcases origins_bothSite noted with rfl | rfl
  · exact ⟨by decide, Or.inl (by decide)⟩
  · exact ⟨by decide, Or.inr rfl⟩

/-- A process in another directory removes the index of a file that is there. -/
theorem other_working_directory_refuted :
    ∃ site : Site, site.Reached sampleHash ∧
      site.origins (sampleHash relativePath) = some ⟨"/w".toList, relativePath⟩ ∧
      (site.disk.resolve "/w/d/a.parquet".toList).isSome ∧
      (∃ root', pruneOrphans (site.disk.seenFrom "/x".toList) site.root = .ok (root', 1) ∧
        root'.lookup (sampleHash relativePath) = none) ∧
      ¬ site.PrunesExactly "/x".toList := by
  have origin : relativeSite.origins (sampleHash relativePath) =
      some ⟨"/w".toList, relativePath⟩ := by decide
  have there : (relativeSite.disk.resolve
      (Origin.place ⟨"/w".toList, relativePath⟩)).isNone = false := by decide
  have removal : ∃ root', pruneOrphans (relativeSite.disk.seenFrom "/x".toList) relativeSite.root =
      .ok (root', 1) ∧ root'.lookup (sampleHash relativePath) = none := ⟨_, rfl, by decide⟩
  refine ⟨relativeSite, reached_relativeSite, origin, by decide, removal, ?_⟩
  rintro ⟨root', prunedCount, pruned, decided, -, -⟩
  obtain ⟨root'', pruned', removed⟩ := removal
  cases pruned.symm.trans pruned'
  obtain ⟨indexDir, present⟩ := FiniteMap.mem_iff_lookup.mp
    (by decide : sampleHash relativePath ∈ relativeSite.root)
  obtain ⟨origin', noted, kept⟩ := decided _ indexDir present
  cases origin.symm.trans noted
  simp only [removed, there, Bool.false_eq_true, if_false] at kept
  cases kept

end Pdq
