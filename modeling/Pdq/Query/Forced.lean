/- Pdq.Query.Forced -- a forced index run over any index directory.

Whatever the index directory holds (FSTs of older files, metadata that is no text, FSTs
cut short), a forced run by a column that names a file writes the record of every file of
the walk and its FST under that name, and nothing else (`forced_dir`, `forced_lookup`,
`forced_fst`).  So the column is
searched as the files are; and from then on every FST of those files passes for current,
also one of another column that is not (`forced_run_repairs`). -/
import Pdq.Query.Maintained

namespace Pdq

open Theory

set_option autoImplicit false

/-- Read all files under the directory. -/
def FileTree.finds (tree : FileTree) (dataDir : Path) (column : Column) (request : SearchRequest) :
    Set (Path × Nat) :=
  {pair | pair.1 ∈ tree.parquetEntries dataDir ∧ ∃ file, tree.dataFile? pair.1 = some file ∧
    ∃ v, file.content.HoldsValue column pair.2 v ∧ request.selects v = true}

section Forced

variable {calculateFileHash : Path → Str} {tree : FileTree} {root root' : IndexRoot}
  {dataDir filePath : Path} {column : Column}

/-! ## What the run does -/

theorem forced_returns
    (readable : ∀ path ∈ tree.parquetEntries dataDir, ∃ file, tree.dataFile? path = some file)
    (named : fstFile column ≠ none) (root : IndexRoot) :
    ∃ root', buildIndexExt calculateFileHash tree root dataDir column true = .ok root' := by
  obtain ⟨root', ok, -⟩ := foldlM_total (fun _ : IndexRoot => True)
    (f := indexEntry calculateFileHash tree column true) (fun path inWalk now _ => by
      obtain ⟨file, found⟩ := readable path inWalk
      exact ⟨_, indexFile_of_dataFile found named, trivial⟩) (b := root) trivial
  exact ⟨root', ok⟩

/-- The sub-directory of `filePath` after a forced visit. -/
def reindexed (tree : FileTree) (column : Column) (filePath : Path) (indexDir : IndexDir) :
    IndexDir :=
  match tree.dataFile? filePath with
  | some file => indexDir.indexed filePath file column
  | none => indexDir

theorem reindexed_of_dataFile {file : FileTree.DataFile}
    (found : tree.dataFile? filePath = some file) (column : Column) (indexDir : IndexDir) :
    reindexed tree column filePath indexDir = indexDir.indexed filePath file column := by
  simp only [reindexed, found]

/-- **Every file of the walk is indexed**, whatever its sub-directory was. -/
theorem forced_dir
    (distinct : ∀ other ∈ tree.parquetEntries dataDir,
      calculateFileHash other = calculateFileHash filePath → other = filePath)
    (inWalk : filePath ∈ tree.parquetEntries dataDir) {file : FileTree.DataFile}
    (found : tree.dataFile? filePath = some file)
    (ok : buildIndexExt calculateFileHash tree root dataDir column true = .ok root') :
    root'.dir (calculateFileHash filePath) =
      (root.dir (calculateFileHash filePath)).indexed filePath file column := by
  have whole := buildIndexExt_dir (reindexed tree column)
    (fun indexDir => by
      simp only [reindexed_of_dataFile found, IndexDir.indexed_indexed])
    (fun path now next visit => by
      obtain ⟨-, file', found', rfl⟩ := indexFile_effect visit
      rw [IndexRoot.dir_insert_self, reindexed_of_dataFile found']
      exact ⟨rfl, fun other ne => IndexRoot.dir_insert_ne now ne _⟩)
    distinct ok
  rw [whole, if_pos inWalk, reindexed_of_dataFile found]

/-- No other sub-directory is touched. -/
theorem forced_lookup {fileHash : Str}
    (other : ∀ path ∈ tree.parquetEntries dataDir, calculateFileHash path ≠ fileHash)
    (ok : buildIndexExt calculateFileHash tree root dataDir column true = .ok root') :
    root'.lookup fileHash = root.lookup fileHash := by
  refine buildIndexExt_invariant (fun now => now.lookup fileHash = root.lookup fileHash)
    (fun path inWalk file found _ now held => ?_) rfl ok
  rw [AList.lookup_insert_ne (other path inWalk).symm, held]

/-- No FST under another name is touched. -/
theorem forced_fst {other : Column} (ne : fstFile other ≠ fstFile column) (fileHash : Str)
    (ok : buildIndexExt calculateFileHash tree root dataDir column true = .ok root') :
    (root'.dir fileHash).fst other = (root.dir fileHash).fst other := by
  refine buildIndexExt_invariant
    (fun now => (IndexRoot.dir now fileHash).fst other = (root.dir fileHash).fst other)
    (fun path inWalk file found _ now held => ?_) rfl ok
  rw [IndexRoot.fst_insert_indexed_ne now path file (Or.inr ne), held]

/-! ## Runs after it -/

/-- A file is skipped by every column of which its sub-directory has an FST. -/
theorem skipped_of_indexed (one : OneLine filePath) {file : FileTree.DataFile}
    (found : tree.dataFile? filePath = some file) {indexDir : IndexDir}
    (indexed : root.dir (calculateFileHash filePath) = indexDir.indexed filePath file column)
    {other : Column} (held : (root.dir (calculateFileHash filePath)).fst other ≠ none) :
    needsIndexing calculateFileHash tree root filePath other = .ok false := by
  have metadata : (root.dir (calculateFileHash filePath)).metadata = some (.text
      (metadataContent filePath file.mtime file.size file.content.numRowGroups)) := by
    rw [indexed, IndexDir.indexed_metadata]
  obtain ⟨needed, decided⟩ : ∃ needed,
      needsIndexing calculateFileHash tree root filePath other = .ok needed :=
    needsIndexing_decides found (by rw [metadata]; exact nofun)
  have upToDate : (root.dir (calculateFileHash filePath)).UpToDate file other :=
    ⟨held, _, metadata, storedStamp_content one _ _ _⟩
  rw [decided, (needsIndexing_ok found decided).mpr upToDate]

theorem buildIndex_of_skipped
    (skipped : ∀ path ∈ tree.parquetEntries dataDir,
      needsIndexing calculateFileHash tree root path column = .ok false) :
    buildIndex calculateFileHash tree root dataDir column = .ok root := by
  obtain ⟨_, ok, same⟩ := foldlM_total (fun now : IndexRoot => now = root)
    (f := indexEntry calculateFileHash tree column false) (l := tree.parquetEntries dataDir)
    (fun path inWalk now same => by
      subst same
      exact ⟨_, indexEntry_of_skipped (skipped path inWalk), rfl⟩) rfl
  rwa [same] at ok

/-! ## Searches after it -/

/-- The content each FST of the column was written from, when no other file is indexed
by the column. -/
theorem forced_content
    (distinct : Set.InjOn calculateFileHash {path | path ∈ tree.parquetEntries dataDir})
    (readable : ∀ path ∈ tree.parquetEntries dataDir, ∃ file, tree.dataFile? path = some file)
    (noOther : ∀ fileHash, (∀ path ∈ tree.parquetEntries dataDir,
      calculateFileHash path ≠ fileHash) → (root.dir fileHash).fst column = none)
    (ok : buildIndexExt calculateFileHash tree root dataDir column true = .ok root')
    (fileHash : Str) :
    ∃ content : Option ParquetFile,
      (root'.dir fileHash).fst column = content.map (fun file => .valid (columnKeys file column)) ∧
      ∀ file, content = some file ↔ ∃ path ∈ tree.parquetEntries dataDir,
        calculateFileHash path = fileHash ∧
          ∃ data, tree.dataFile? path = some data ∧ data.content = file := by
  by_cases known : ∃ path ∈ tree.parquetEntries dataDir, calculateFileHash path = fileHash
  · obtain ⟨path, inWalk, rfl⟩ := known
    obtain ⟨data, found⟩ := readable path inWalk
    refine ⟨some data.content, ?_, fun file => ?_⟩
    · rw [forced_dir (fun other member same => distinct member inWalk same) inWalk found ok,
        IndexDir.indexed_fst_self _ _ _ (named_of_buildIndexExt inWalk ok), Option.map_some]
    · rw [Option.some.injEq]
      constructor
      · rintro rfl
        exact ⟨path, inWalk, rfl, data, found, rfl⟩
      · rintro ⟨path', member, hashed, data', found', rfl⟩
        obtain rfl := distinct member inWalk hashed
        cases found.symm.trans found'
        rfl
  · have unknown : ∀ path ∈ tree.parquetEntries dataDir, calculateFileHash path ≠ fileHash :=
      fun path inWalk hashed => known ⟨path, inWalk, hashed⟩
    refine ⟨none, ?_, fun file => ?_⟩
    · rw [IndexRoot.dir, forced_lookup unknown ok]
      exact noOther fileHash unknown
    · constructor
      · intro held
        cases held
      · rintro ⟨path, inWalk, hashed, -⟩
        exact absurd ⟨path, inWalk, hashed⟩ known

/-- A new engine maps the hash of a file of the walk to its path. -/
theorem forced_fileMap (one : OneLine filePath)
    (distinct : ∀ other ∈ tree.parquetEntries dataDir,
      calculateFileHash other = calculateFileHash filePath → other = filePath)
    (inWalk : filePath ∈ tree.parquetEntries dataDir) {file : FileTree.DataFile}
    (found : tree.dataFile? filePath = some file)
    (ok : buildIndexExt calculateFileHash tree root dataDir column true = .ok root') :
    (IndexQueryEngine.new root').fileMap.lookup (calculateFileHash filePath) = some filePath := by
  have indexed := forced_dir distinct inWalk found ok
  have keys : (root'.dir (calculateFileHash filePath)).fst column =
      some (.valid (columnKeys file.content column)) := by
    rw [indexed, IndexDir.indexed_fst_self _ _ _ (named_of_buildIndexExt inWalk ok)]
  obtain ⟨indexDir, present, -⟩ := IndexRoot.lookup_of_fst keys
  rw [IndexRoot.dir_of_lookup present] at indexed
  have metadata : indexDir.metadata = some (.text
      (metadataContent filePath file.mtime file.size file.content.numRowGroups)) := by
    rw [indexed, IndexDir.indexed_metadata]
  rw [IndexQueryEngine.new_fileMap, present, Option.map_some,
    IndexDir.mapEntry_recorded one metadata]

/-- **A search by the column of the run** answers as the files do. -/
theorem forced_search
    (distinct : Set.InjOn calculateFileHash {path | path ∈ tree.parquetEntries dataDir})
    (oneLine : ∀ path ∈ tree.parquetEntries dataDir, OneLine path)
    (readable : ∀ path ∈ tree.parquetEntries dataDir, ∃ file, tree.dataFile? path = some file)
    (noOther : ∀ fileHash, (∀ path ∈ tree.parquetEntries dataDir,
      calculateFileHash path ≠ fileHash) → (root.dir fileHash).fst column = none)
    (nulFree : ∀ path ∈ tree.parquetEntries dataDir, ∀ file, tree.dataFile? path = some file →
      NulFree file.content column)
    (ok : buildIndexExt calculateFileHash tree root dataDir column true = .ok root')
    (opens : Opens column) {request : SearchRequest} (clean : request.Clean) :
    (request.run root' (.new root') column).1.map namedPairs =
      .ok (tree.finds dataDir column request) := by
  choose content written content_iff using forced_content distinct readable noOther ok
  obtain ⟨results, found, members⟩ := SearchRequest.run_of_content clean opens written
    (fun fileHash file held => by
      obtain ⟨path, inWalk, -, data, found, rfl⟩ := (content_iff fileHash file).mp held
      exact nulFree path inWalk data found)
  have mapped : ∀ path ∈ tree.parquetEntries dataDir,
      (IndexQueryEngine.new root').fileMap.lookup (calculateFileHash path) = some path := by
    intro path inWalk
    obtain ⟨file, found⟩ := readable path inWalk
    exact forced_fileMap (oneLine path inWalk)
      (fun other member same => distinct member inWalk same) inWalk found ok
  rw [found]
  refine congrArg Except.ok (Set.ext fun pair => (members pair.1 pair.2).trans ?_)
  simp only [FileTree.finds, Set.mem_ofPred_eq, mem_rowGroupsHolding]
  constructor
  · rintro ⟨fileHash, named, file, held, holds⟩
    obtain ⟨path, inWalk, rfl, data, found, rfl⟩ := (content_iff fileHash file).mp held
    obtain rfl := Option.some.inj ((mapped path inWalk).symm.trans named)
    exact ⟨inWalk, data, found, holds⟩
  · rintro ⟨inWalk, file, found, holds⟩
    exact ⟨calculateFileHash pair.1, mapped pair.1 inWalk, file.content,
      (content_iff _ _).mpr ⟨pair.1, inWalk, rfl, file, found, rfl⟩, holds⟩

/-- **A forced run repairs any index directory**, when its column names a file: it returns,
touches no other sub-directory and no FST under another name, and the column is then
searched as the files are.  A later unforced run by any column, also by one whose FSTs are
stale, changes nothing where each file has an FST. -/
theorem forced_run_repairs
    (distinct : Set.InjOn calculateFileHash {path | path ∈ tree.parquetEntries dataDir})
    (noFeed : ∀ path ∈ tree.parquetEntries dataDir, ¬ '\n' ∈ path)
    (readable : ∀ path ∈ tree.parquetEntries dataDir, ∃ file, tree.dataFile? path = some file)
    (root : IndexRoot) {column : Column} (named : fstFile column ≠ none) :
    ∃ root', buildIndexExt calculateFileHash tree root dataDir column true = .ok root' ∧
      (∀ fileHash, (∀ path ∈ tree.parquetEntries dataDir, calculateFileHash path ≠ fileHash) →
        root'.lookup fileHash = root.lookup fileHash) ∧
      (∀ fileHash other, fstFile other ≠ fstFile column →
        (root'.dir fileHash).fst other = (root.dir fileHash).fst other) ∧
      (∀ other, (∀ path ∈ tree.parquetEntries dataDir,
          fstFile other = fstFile column ∨ (root.dir (calculateFileHash path)).fst other ≠ none) →
        buildIndex calculateFileHash tree root' dataDir other = .ok root') ∧
      ((∀ fileHash, (∀ path ∈ tree.parquetEntries dataDir, calculateFileHash path ≠ fileHash) →
          (root.dir fileHash).fst column = none) →
        (∀ path ∈ tree.parquetEntries dataDir, ∀ file, tree.dataFile? path = some file →
          NulFree file.content column) →
        ∀ request : SearchRequest, request.Clean →
          (request.run root' (.new root') column).1.map namedPairs =
            .ok (tree.finds dataDir column request)) := by
  have oneLine : ∀ path ∈ tree.parquetEntries dataDir, OneLine path := fun path inWalk =>
    oneLine_of_hasParquetExtension (List.mem_filter.mp inWalk).2 (noFeed path inWalk)
  obtain ⟨root', ok⟩ : ∃ root',
      buildIndexExt calculateFileHash tree root dataDir column true = .ok root' :=
    forced_returns readable named root
  refine ⟨root', ok, fun fileHash other => forced_lookup other ok,
    fun fileHash other ne => forced_fst ne fileHash ok, fun other held => ?_,
    fun noOther nulFree request clean =>
      forced_search distinct oneLine readable noOther nulFree ok (opens_of_named named) clean⟩
  refine buildIndex_of_skipped fun path inWalk => ?_
  obtain ⟨file, found⟩ := readable path inWalk
  have indexed := forced_dir (fun _ member same => distinct member inWalk same) inWalk found ok
  refine skipped_of_indexed (oneLine path inWalk) found indexed ?_
  by_cases same : fstFile other = fstFile column
  · rw [indexed, IndexDir.indexed_fst_same _ _ _ named same]
    exact nofun
  · rw [forced_fst same _ ok]
    exact (held path inWalk).resolve_left same

end Forced

/-! ## A sample directory -/

/-- What is in the sub-directory of the file cannot be read. -/
def garbledRoot : IndexRoot :=
  AList.insert (sampleHash samplePath) ⟨some .invalidUtf8, fun _ => some .invalid⟩ ∅

/-- An unforced run stops at the directory.  A forced run by the first column repairs it,
and the FST of the second column is left as it is, by that run and by later ones. -/
theorem forced_run_repairs_sample :
    buildIndex sampleHash (singleTree samplePath alice) garbledRoot sampleDir sampleColumn =
        .error .invalidMetadata ∧
      ∃ root', buildIndexExt sampleHash (singleTree samplePath alice) garbledRoot sampleDir
          sampleColumn true = .ok root' ∧
        (root'.dir (sampleHash samplePath)).fst cityColumn = some .invalid ∧
        buildIndex sampleHash (singleTree samplePath alice) root' sampleDir cityColumn =
          .ok root' ∧
        ((SearchRequest.exact "alice".toList).run root' (.new root') sampleColumn).1.map
          namedPairs =
            .ok ((singleTree samplePath alice).finds sampleDir sampleColumn
              (.exact "alice".toList)) := by
  have walk := parquetEntries_sample alice
  have inWalk : ∀ path ∈ (singleTree samplePath alice).parquetEntries sampleDir,
      path = samplePath := by
    intro path member
    rw [walk] at member
    exact List.mem_singleton.mp member
  have distinct : Set.InjOn sampleHash
      {path | path ∈ (singleTree samplePath alice).parquetEntries sampleDir} := by
    intro path member other member' _
    rw [inWalk path member, inWalk other member']
  have noFeed : ∀ path ∈ (singleTree samplePath alice).parquetEntries sampleDir,
      ¬ '\n' ∈ path := by
    intro path member
    rw [inWalk path member]
    decide
  have readable : ∀ path ∈ (singleTree samplePath alice).parquetEntries sampleDir,
      ∃ file, (singleTree samplePath alice).dataFile? path = some file := by
    intro path member
    rw [inWalk path member]
    exact ⟨alice, dataFile_singleTree samplePath alice⟩
  obtain ⟨root', ok, -, columns, later, searched⟩ :=
    forced_run_repairs distinct noFeed readable garbledRoot named_sampleColumn
  refine ⟨rfl, root', ok, (columns _ cityColumn (by decide)).trans rfl,
    later cityColumn fun path member => ?_,
    searched (fun fileHash unknown => ?_) (fun path member file found => ?_) _ trivial⟩
  · rw [inWalk path member]
    exact Or.inr (by decide)
  · have ne : fileHash ≠ sampleHash samplePath := (unknown samplePath (by rw [walk]; simp)).symm
    rw [garbledRoot, IndexRoot.dir_insert_ne _ ne]
    exact IndexDir.fst_empty sampleColumn
  · rw [inWalk path member, dataFile_singleTree] at found
    cases found
    exact forall_holdsValue_iff.mpr (by decide)

end Pdq
