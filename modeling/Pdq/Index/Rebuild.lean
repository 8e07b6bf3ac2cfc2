/- Pdq.Index.Rebuild -- what one build_index run does to the sub-directory of one
file.

A run visits the entries of the walk one after the other, and each visit touches
one sub-directory.  When no other entry shares the hash of a path, the whole run
does to that path's sub-directory what a single visit does (`buildIndex_dir`):
nothing if the sub-directory vouches for the file, else one rewrite. -/
import Pdq.Index.Indexer

namespace Pdq

open Theory

set_option autoImplicit false

/-! ## One visit -/

open Classical in
/-- The sub-directory after an unforced visit of a data file. -/
noncomputable def IndexDir.refreshed (indexDir : IndexDir) (filePath : Path)
    (file : FileTree.DataFile) (column : Column) : IndexDir :=
  if indexDir.UpToDate file column then indexDir else indexDir.indexed filePath file column

theorem IndexDir.indexed_indexed (indexDir : IndexDir) (filePath : Path)
    (file : FileTree.DataFile) (column : Column) :
    (indexDir.indexed filePath file column).indexed filePath file column =
      indexDir.indexed filePath file column := by
  refine IndexDir.ext_fst (by rw [IndexDir.indexed_metadata, IndexDir.indexed_metadata])
    fun other => ?_
  by_cases same : fstFile other = fstFile column
  · by_cases named : fstFile column = none
    · simp [IndexDir.fst, same, named]
    · rw [IndexDir.indexed_fst_same _ _ _ named same, IndexDir.indexed_fst_same _ _ _ named same]
  · rw [IndexDir.indexed_fst_ne _ _ _ same]

/-- A second visit changes nothing. -/
theorem IndexDir.refreshed_refreshed (indexDir : IndexDir) (filePath : Path)
    (file : FileTree.DataFile) (column : Column) :
    (indexDir.refreshed filePath file column).refreshed filePath file column =
      indexDir.refreshed filePath file column := by
  by_cases upToDate : indexDir.UpToDate file column
  · simp [IndexDir.refreshed, upToDate]
  · have first : indexDir.refreshed filePath file column =
        indexDir.indexed filePath file column := if_neg upToDate
    rw [first]
    unfold IndexDir.refreshed
    split
    · rfl
    · exact IndexDir.indexed_indexed indexDir filePath file column

/-- The sub-directory of `filePath` after an unforced visit of it; what is not a
data file is skipped if it is not an error. -/
noncomputable def rebuilt (tree : FileTree) (column : Column) (filePath : Path)
    (indexDir : IndexDir) : IndexDir :=
  match tree.dataFile? filePath with
  | some file => indexDir.refreshed filePath file column
  | none => indexDir

theorem rebuilt_of_dataFile {tree : FileTree} {filePath : Path} {file : FileTree.DataFile}
    (found : tree.dataFile? filePath = some file) (column : Column) (indexDir : IndexDir) :
    rebuilt tree column filePath indexDir = indexDir.refreshed filePath file column := by
  simp [rebuilt, found]

theorem rebuilt_rebuilt (tree : FileTree) (column : Column) (filePath : Path)
    (indexDir : IndexDir) :
    rebuilt tree column filePath (rebuilt tree column filePath indexDir) =
      rebuilt tree column filePath indexDir := by
  cases found : tree.dataFile? filePath with
  | none => simp [rebuilt, found]
  | some file => simp [rebuilt, found, IndexDir.refreshed_refreshed]

section Build

variable {calculateFileHash : Path → Str} {tree : FileTree} {root root' : IndexRoot}
  {dataDir filePath : Path} {column : Column} {file : FileTree.DataFile}

/-- One visit leaves the index directory as it is, or indexes the data file. -/
theorem indexEntry_eq {force : Bool}
    (ok : indexEntry calculateFileHash tree column force root filePath = .ok root') :
    root' = root ∨ fstFile column ≠ none ∧ ∃ file, tree.dataFile? filePath = some file ∧
      root' = root.insert (calculateFileHash filePath)
        ((root.dir (calculateFileHash filePath)).indexed filePath file column) := by
  rcases indexEntry_cases ok with ⟨same, -, -⟩ | ⟨named, file, found, same, -⟩
  · exact Or.inl same
  · exact Or.inr ⟨named, file, found, same⟩

/-- A visit that succeeds is by a column that names a file. -/
theorem named_of_indexEntry {force : Bool}
    (ok : indexEntry calculateFileHash tree column force root filePath = .ok root') :
    fstFile column ≠ none := by
  rcases indexEntry_cases ok with ⟨-, -, skipped⟩ | ⟨named, -⟩
  · exact IndexDir.named_of_fst (fst_of_skipped skipped)
  · exact named

/-- **The invariant rule of an index run**: what indexing a data file of the walk
keeps, the whole run keeps. -/
theorem buildIndexExt_invariant {force : Bool} (P : IndexRoot → Prop)
    (step : ∀ path ∈ tree.parquetEntries dataDir, ∀ file, tree.dataFile? path = some file →
      fstFile column ≠ none → ∀ now : IndexRoot, P now →
        P (now.insert (calculateFileHash path)
          ((now.dir (calculateFileHash path)).indexed path file column)))
    (start : P root) (ok : buildIndexExt calculateFileHash tree root dataDir column force =
      .ok root') : P root' := by
  refine foldlM_ok_invariant P (fun path member now next held visit => ?_) start ok
  rcases indexEntry_eq visit with rfl | ⟨named, file, found, rfl⟩
  · exact held
  · exact step path member file found named now held

/-- A run that succeeds and visits something is by a column that names a file. -/
theorem named_of_buildIndexExt {force : Bool} (inWalk : filePath ∈ tree.parquetEntries dataDir)
    (ok : buildIndexExt calculateFileHash tree root dataDir column force = .ok root') :
    fstFile column ≠ none := by
  have invariant := foldlM_ok_induction
    (fun (visited : List Path) (_ : IndexRoot) => visited ≠ [] → fstFile column ≠ none)
    (fun _ _ _ _ _ visit _ => named_of_indexEntry visit)
    (tree.parquetEntries dataDir) [] root root' (fun none => absurd rfl none) ok
  exact invariant (List.ne_nil_of_mem inWalk)

/-- One visit: the sub-directory of the path is refreshed, no other changes. -/
theorem indexEntry_dir
    (ok : indexEntry calculateFileHash tree column false root filePath = .ok root') :
    root'.dir (calculateFileHash filePath) =
        rebuilt tree column filePath (root.dir (calculateFileHash filePath)) ∧
      ∀ other, other ≠ calculateFileHash filePath → root'.dir other = root.dir other := by
  rcases indexEntry_cases ok with ⟨rfl, -, decided⟩ | ⟨-, file, found, rfl, decided⟩
  · refine ⟨?_, fun _ _ => rfl⟩
    cases found : tree.dataFile? filePath with
    | none => simp [rebuilt, found]
    | some file =>
        have upToDate := (needsIndexing_ok found decided).mp rfl
        simp [rebuilt, found, IndexDir.refreshed, upToDate]
  · have stale : ¬ (root.dir (calculateFileHash filePath)).UpToDate file column := by
      rcases decided with forced | needed
      · cases forced
      · exact fun upToDate => Bool.noConfusion ((needsIndexing_ok found needed).mpr upToDate)
    refine ⟨?_, fun other ne => IndexRoot.dir_insert_ne root ne _⟩
    rw [IndexRoot.dir_insert_self, rebuilt_of_dataFile found, IndexDir.refreshed, if_neg stale]

/-! ## A whole run -/

/-- **What a whole run does to one sub-directory**: what one visit does, when a visit
only changes the sub-directory of its path and a second one changes nothing. -/
theorem buildIndexExt_dir {force : Bool} (visit : Path → IndexDir → IndexDir)
    (again : ∀ indexDir, visit filePath (visit filePath indexDir) = visit filePath indexDir)
    (step : ∀ path (now next : IndexRoot),
      indexEntry calculateFileHash tree column force now path = .ok next →
      next.dir (calculateFileHash path) = visit path (now.dir (calculateFileHash path)) ∧
        ∀ other, other ≠ calculateFileHash path → next.dir other = now.dir other)
    (distinct : ∀ other ∈ tree.parquetEntries dataDir,
      calculateFileHash other = calculateFileHash filePath → other = filePath)
    (ok : buildIndexExt calculateFileHash tree root dataDir column force = .ok root') :
    root'.dir (calculateFileHash filePath) =
      if filePath ∈ tree.parquetEntries dataDir then
        visit filePath (root.dir (calculateFileHash filePath))
      else root.dir (calculateFileHash filePath) := by
  -- The invariant: the entries visited so far either include the path or do not.
  have invariant := foldlM_ok_induction
    (fun (visited : List Path) (now : IndexRoot) =>
      (∀ other ∈ visited, calculateFileHash other = calculateFileHash filePath →
        other = filePath) →
      now.dir (calculateFileHash filePath) =
        if filePath ∈ visited then visit filePath (root.dir (calculateFileHash filePath))
        else root.dir (calculateFileHash filePath))
    (fun visited entry now next held visits apart => by
      have before := held fun other member => apart other (List.mem_append_left _ member)
      obtain ⟨self, others⟩ := step entry now next visits
      by_cases same : entry = filePath
      · subst same
        rw [self, before]
        split <;> simp [again]
      · have ne : calculateFileHash filePath ≠ calculateFileHash entry := fun equal =>
          same (apart entry (by simp) equal.symm)
        rw [others _ ne, before]
        simp [Ne.symm same])
    (tree.parquetEntries dataDir) [] root root' (fun _ => by simp) ok
  simpa using invariant (by simpa using distinct)

/-- An unforced run. -/
theorem buildIndex_dir
    (distinct : ∀ other ∈ tree.parquetEntries dataDir,
      calculateFileHash other = calculateFileHash filePath → other = filePath)
    (ok : buildIndex calculateFileHash tree root dataDir column = .ok root') :
    root'.dir (calculateFileHash filePath) =
      if filePath ∈ tree.parquetEntries dataDir then
        rebuilt tree column filePath (root.dir (calculateFileHash filePath))
      else root.dir (calculateFileHash filePath) :=
  buildIndexExt_dir (rebuilt tree column) (rebuilt_rebuilt tree column filePath)
    (fun _ _ _ visit => indexEntry_dir visit) distinct ok

/-- What a whole run does to one FST: nothing, or it is the FST of the run under this or
another spelling, and the sub-directory did not vouch for the file. -/
theorem buildIndex_fst
    (distinct : ∀ other ∈ tree.parquetEntries dataDir,
      calculateFileHash other = calculateFileHash filePath → other = filePath)
    (ok : buildIndex calculateFileHash tree root dataDir column = .ok root') (other : Column) :
    (root'.dir (calculateFileHash filePath)).fst other =
        (root.dir (calculateFileHash filePath)).fst other ∨
      fstFile other = fstFile column ∧ filePath ∈ tree.parquetEntries dataDir ∧
        ∃ file, tree.dataFile? filePath = some file ∧
          ¬ (root.dir (calculateFileHash filePath)).UpToDate file column ∧
          (root'.dir (calculateFileHash filePath)).fst other =
            some (.valid (columnKeys file.content column)) := by
  rw [buildIndex_dir distinct ok]
  by_cases inWalk : filePath ∈ tree.parquetEntries dataDir
  · rw [if_pos inWalk]
    cases found : tree.dataFile? filePath with
    | none => exact Or.inl (by simp [rebuilt, found])
    | some file =>
        rw [rebuilt_of_dataFile found]
        by_cases upToDate : (root.dir (calculateFileHash filePath)).UpToDate file column
        · exact Or.inl (by rw [IndexDir.refreshed, if_pos upToDate])
        · rw [IndexDir.refreshed, if_neg upToDate]
          by_cases same : fstFile other = fstFile column
          · exact Or.inr ⟨same, inWalk, file, rfl, upToDate,
              IndexDir.indexed_fst_same _ _ _ (named_of_buildIndexExt inWalk ok) same⟩
          · exact Or.inl (IndexDir.indexed_fst_ne _ _ _ same)
  · exact Or.inl (by rw [if_neg inWalk])

/-- A run ends with the right FST exactly when the sub-directory it starts from
does not vouch for the file or holds the right FST. -/
theorem buildIndex_keys_iff
    (distinct : ∀ other ∈ tree.parquetEntries dataDir,
      calculateFileHash other = calculateFileHash filePath → other = filePath)
    (inWalk : filePath ∈ tree.parquetEntries dataDir)
    (found : tree.dataFile? filePath = some file)
    (ok : buildIndex calculateFileHash tree root dataDir column = .ok root') :
    (root'.dir (calculateFileHash filePath)).fst column =
        some (.valid (columnKeys file.content column)) ↔
      ¬ (root.dir (calculateFileHash filePath)).UpToDate file column ∨
        (root.dir (calculateFileHash filePath)).fst column =
          some (.valid (columnKeys file.content column)) := by
  rw [buildIndex_dir distinct ok, if_pos inWalk, rebuilt_of_dataFile found]
  by_cases upToDate : (root.dir (calculateFileHash filePath)).UpToDate file column
  · simp [IndexDir.refreshed, upToDate]
  · simp [IndexDir.refreshed, upToDate,
      IndexDir.indexed_fst_self _ _ _ (named_of_buildIndexExt inWalk ok)]

/-- A run on a tree that visits one path is a visit of that path. -/
theorem buildIndex_of_single {force : Bool}
    (single : tree.parquetEntries dataDir = [filePath]) :
    buildIndexExt calculateFileHash tree root dataDir column force =
      indexEntry calculateFileHash tree column force root filePath := by
  simp only [buildIndexExt, single, List.foldlM_cons, List.foldlM_nil]
  exact bind_pure _

theorem indexEntry_of_needed (found : tree.dataFile? filePath = some file)
    (named : fstFile column ≠ none)
    (needed : needsIndexing calculateFileHash tree root filePath column = .ok true) :
    indexEntry calculateFileHash tree column false root filePath =
      .ok (root.insert (calculateFileHash filePath)
        ((root.dir (calculateFileHash filePath)).indexed filePath file column)) := by
  simp [indexEntry, needed, bind, Except.bind, indexFile_of_dataFile found named]

theorem indexEntry_of_skipped
    (skipped : needsIndexing calculateFileHash tree root filePath column = .ok false) :
    indexEntry calculateFileHash tree column false root filePath = .ok root := by
  simp [indexEntry, skipped, bind, Except.bind, pure, Except.pure]

/-- A file the sub-directory vouches for is skipped. -/
theorem indexEntry_of_upToDate (found : tree.dataFile? filePath = some file)
    (upToDate : (root.dir (calculateFileHash filePath)).UpToDate file column) :
    indexEntry calculateFileHash tree column false root filePath = .ok root := by
  refine indexEntry_of_skipped ?_
  obtain ⟨held, contents, text, stamped⟩ := upToDate
  obtain ⟨fst, held⟩ := Option.ne_none_iff_exists'.mp held
  simp [needsIndexing, held, text, FileTree.fileMetadata_of_dataFile found, stamped, bind,
    Except.bind]

/-- A file without an FST of the column is indexed. -/
theorem indexEntry_of_missing (found : tree.dataFile? filePath = some file)
    (named : fstFile column ≠ none)
    (missing : (root.dir (calculateFileHash filePath)).fst column = none) :
    indexEntry calculateFileHash tree column false root filePath =
      .ok (root.insert (calculateFileHash filePath)
        ((root.dir (calculateFileHash filePath)).indexed filePath file column)) :=
  indexEntry_of_needed found named (by simp [needsIndexing, missing])

/-! ## Runs that return -/

/-- Every metadata.txt is a text. -/
def IndexRoot.TextOnly (root : IndexRoot) : Prop :=
  ∀ fileHash, (root.dir fileHash).metadata ≠ some .invalidUtf8

theorem textOnly_empty : IndexRoot.TextOnly ∅ := by
  intro fileHash
  exact nofun

/-- On a data file `needs_indexing` decides, when it can read metadata.txt. -/
theorem needsIndexing_decides (found : tree.dataFile? filePath = some file)
    (text : (root.dir (calculateFileHash filePath)).metadata ≠ some .invalidUtf8) :
    ∃ needed, needsIndexing calculateFileHash tree root filePath column = .ok needed := by
  simp only [needsIndexing, FileTree.fileMetadata_of_dataFile found]
  cases (root.dir (calculateFileHash filePath)).fst column with
  | none => exact ⟨true, rfl⟩
  | some fst =>
      cases metadata : (root.dir (calculateFileHash filePath)).metadata with
      | none => exact ⟨true, rfl⟩
      | some contents =>
          cases contents with
          | invalidUtf8 => exact absurd metadata text
          | text contents =>
              simp only [bind, Except.bind]
              split <;> exact ⟨_, rfl⟩

theorem indexEntry_returns (found : tree.dataFile? filePath = some file)
    (named : fstFile column ≠ none) (text : root.TextOnly) (force : Bool) :
    ∃ root', indexEntry calculateFileHash tree column force root filePath = .ok root' ∧
      root'.TextOnly := by
  have rewritten : IndexRoot.TextOnly (root.insert (calculateFileHash filePath)
      ((root.dir (calculateFileHash filePath)).indexed filePath file column)) := by
    intro fileHash
    by_cases here : fileHash = calculateFileHash filePath
    · subst here
      rw [IndexRoot.dir_insert_self, IndexDir.indexed_metadata]
      exact nofun
    · rw [IndexRoot.dir_insert_ne root here]
      exact text fileHash
  cases force with
  | true => exact ⟨_, indexFile_of_dataFile found named, rewritten⟩
  | false =>
      obtain ⟨needed, decided⟩ : ∃ needed,
          needsIndexing calculateFileHash tree root filePath column = .ok needed :=
        needsIndexing_decides found (text _)
      cases needed with
      | true => exact ⟨_, indexEntry_of_needed found named decided, rewritten⟩
      | false => exact ⟨_, indexEntry_of_skipped decided, text⟩

/-- **A run over data files returns**, when the column names a file and every metadata.txt
is a text. -/
theorem buildIndexExt_returns (named : tree.parquetEntries dataDir ≠ [] → fstFile column ≠ none)
    (text : root.TextOnly)
    (readable : ∀ path ∈ tree.parquetEntries dataDir, ∃ file, tree.dataFile? path = some file)
    (force : Bool) :
    ∃ root', buildIndexExt calculateFileHash tree root dataDir column force = .ok root' ∧
      root'.TextOnly := by
  refine foldlM_total IndexRoot.TextOnly (fun path inWalk now held => ?_) text
  obtain ⟨file, found⟩ := readable path inWalk
  exact indexEntry_returns found (named (List.ne_nil_of_mem inWalk)) held force

end Build

/-- A run on a tree of one file that is to be indexed. -/
theorem buildIndex_single {root : IndexRoot} {dataDir path : Path} {file : FileTree.DataFile}
    {column : Column} (named : fstFile column ≠ none)
    (single : (singleTree path file).parquetEntries dataDir = [path])
    (needed : needsIndexing sampleHash (singleTree path file) root path column = .ok true) :
    buildIndexExt sampleHash (singleTree path file) root dataDir column false =
      .ok (root.indexed path file column) := by
  rw [buildIndex_of_single single]
  exact indexEntry_of_needed (dataFile_singleTree path file) named needed

end Pdq
