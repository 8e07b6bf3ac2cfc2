/- Pdq.Index.Crash -- index_file stopped in its write phase.

The write phase writes metadata.txt, which marks the file as up to date, before
the FST it vouches for.  `interruptedIndexFile` stops it at any point, and
`crash_repaired_iff` says of every point and every earlier state of the
sub-directory whether the next run repairs it: it does unless what was left
vouches for the file and the FST it vouches for is not the right one. -/
import Pdq.Index.Rebuild

namespace Pdq

open Theory

set_option autoImplicit false

/-! ## The write phase, stopped -/

/-- Where the write phase stops. -/
inductive WriteCut where
  /-- `create_dir_all` did not succeed. -/
  | beforeDirectory
  /-- metadata.txt was not opened. -/
  | beforeMetadata
  /-- That many bytes of metadata.txt were written. -/
  | duringMetadata (written : Nat)
  /-- metadata.txt was written, and the FST not created. -/
  | beforeFst
  /-- The FST was created; `left` is what was written of it, as opening finds it. -/
  | duringFst (left : FstFile)

def TextFile.ofBytes (bytes : Bytes) : TextFile :=
  match fromUtf8 bytes with
  | some contents => .text contents
  | none => .invalidUtf8

/-- The metadata.txt of which that many bytes were written. -/
def partialMetadata (filePath : Path) (file : FileTree.DataFile) (written : Nat) : TextFile :=
  .ofBytes ((utf8 (metadataContent filePath file.mtime file.size
    file.content.numRowGroups)).take written)

/-- What a stopped write phase leaves of a sub-directory. -/
def IndexDir.leftBy (indexDir : IndexDir) (cut : WriteCut) (filePath : Path)
    (file : FileTree.DataFile) (column : Column) : IndexDir :=
  let contents := metadataContent filePath file.mtime file.size file.content.numRowGroups
  match cut with
  | .beforeDirectory | .beforeMetadata => indexDir
  | .duringMetadata written =>
      { indexDir with metadata := some (partialMetadata filePath file written) }
  | .beforeFst => { indexDir with metadata := some (.text contents) }
  | .duringFst left => { indexDir with metadata := some (.text contents) }.withFst column left

/-- The write phase came to create the FST. -/
def WriteCut.CreatesFst : WriteCut → Bool
  | .duringFst _ => true
  | _ => false

/-- `Indexer::index_file`, stopped in its write phase. -/
def interruptedIndexFile (calculateFileHash : Path → Str) (cut : WriteCut) (tree : FileTree)
    (root : IndexRoot) (filePath : Path) (column : Column) : Except IndexError IndexRoot := do
  let reader ← tree.openParquet filePath
  let fileHash := calculateFileHash filePath
  match cut with
  | .beforeDirectory => return root
  | cut =>
      let root := root.createDirAll fileHash
      let (mtime, size) ← tree.fileMetadata filePath
      if cut.CreatesFst ∧ fstFile column = none then .error (.cannotCreate column)
      else .ok (root.insert fileHash
        ((root.dir fileHash).leftBy cut filePath ⟨mtime, size, reader⟩ column))

section Crash

variable {calculateFileHash : Path → Str} {tree tree' : FileTree} {root left root' : IndexRoot}
  {filePath dataDir : Path} {column : Column} {file : FileTree.DataFile} {cut : WriteCut}

theorem interruptedIndexFile_dir (found : tree.dataFile? filePath = some file)
    (crashed : interruptedIndexFile calculateFileHash cut tree root filePath column = .ok left) :
    left.dir (calculateFileHash filePath) =
      (root.dir (calculateFileHash filePath)).leftBy cut filePath file column := by
  cases cut <;>
    simp only [interruptedIndexFile, FileTree.openParquet_of_dataFile found,
      FileTree.fileMetadata_of_dataFile found, bind, Except.bind, pure, Except.pure,
      IndexRoot.createDirAll, IndexRoot.dir_insert_self, WriteCut.CreatesFst, Bool.false_eq_true,
      false_and, true_and, if_false] at crashed
  case beforeDirectory => cases crashed; rfl
  case duringFst fst =>
    split at crashed <;> cases crashed
    exact IndexRoot.dir_insert_self _ _ _
  all_goals
    cases crashed
    exact IndexRoot.dir_insert_self _ _ _

/-- A write phase that came to the FST had a file for it. -/
theorem named_of_duringFst {fst : FstFile} (found : tree.dataFile? filePath = some file)
    (crashed : interruptedIndexFile calculateFileHash (.duringFst fst) tree root filePath column =
      .ok left) :
    fstFile column ≠ none := by
  intro noName
  simp [interruptedIndexFile, FileTree.openParquet_of_dataFile found,
    FileTree.fileMetadata_of_dataFile found, bind, Except.bind, WriteCut.CreatesFst,
    noName] at crashed

/-- A write phase that is stopped after the whole FST is written is complete. -/
theorem interruptedIndexFile_complete (found : tree.dataFile? filePath = some file) :
    interruptedIndexFile calculateFileHash
        (.duringFst (.valid (columnKeys file.content column))) tree root filePath column =
      indexFile calculateFileHash tree root filePath column := by
  by_cases named : fstFile column = none
  · rw [indexFile_of_noName found named]
    simp [interruptedIndexFile, FileTree.openParquet_of_dataFile found,
      FileTree.fileMetadata_of_dataFile found, bind, Except.bind, WriteCut.CreatesFst, named]
  · rw [indexFile_of_dataFile found named]
    simp [interruptedIndexFile, FileTree.openParquet_of_dataFile found,
      FileTree.fileMetadata_of_dataFile found, bind, Except.bind,
      WriteCut.CreatesFst, named, IndexRoot.createDirAll, IndexRoot.dir_insert_self,
      IndexDir.leftBy, IndexDir.indexed]

/-! ## What the next run makes of it -/

/-- metadata.txt records the modification time and size of the file. -/
def TextFile.Records (text : TextFile) (file : FileTree.DataFile) : Prop :=
  ∃ contents, text = .text contents ∧
    storedStamp contents = some (file.mtime.toNat, file.size.toNat)

/-- The next run repairs what a write phase stopped at `cut` leaves of the
sub-directory `prior`. -/
def WriteCut.Repaired (cut : WriteCut) (prior : IndexDir) (filePath : Path)
    (file : FileTree.DataFile) (column : Column) : Prop :=
  let contents := metadataContent filePath file.mtime file.size file.content.numRowGroups
  let right := FstFile.valid (columnKeys file.content column)
  match cut with
  | .beforeDirectory | .beforeMetadata =>
      ¬ prior.UpToDate file column ∨ prior.fst column = some right
  | .duringMetadata written =>
      ¬ (partialMetadata filePath file written).Records file ∨
        prior.fst column = none ∨ prior.fst column = some right
  | .beforeFst =>
      ¬ (TextFile.text contents).Records file ∨
        prior.fst column = none ∨ prior.fst column = some right
  | .duringFst left => ¬ (TextFile.text contents).Records file ∨ left = right

theorem upToDate_iff {indexDir : IndexDir} (text : TextFile)
    (held : indexDir.metadata = some text) :
    indexDir.UpToDate file column ↔ indexDir.fst column ≠ none ∧ text.Records file := by
  unfold IndexDir.UpToDate TextFile.Records
  rw [held]
  simp only [Option.some.injEq]

/-- **A stopped write phase is repaired by the next run exactly when** `Repaired`
holds of the point and of the earlier state. -/
theorem crash_repaired_iff (found : tree.dataFile? filePath = some file)
    (crashed : interruptedIndexFile calculateFileHash cut tree root filePath column = .ok left)
    (unchanged : tree'.dataFile? filePath = some file)
    (distinct : ∀ other ∈ tree'.parquetEntries dataDir,
      calculateFileHash other = calculateFileHash filePath → other = filePath)
    (inWalk : filePath ∈ tree'.parquetEntries dataDir)
    (ok : buildIndex calculateFileHash tree' left dataDir column = .ok root') :
    (root'.dir (calculateFileHash filePath)).fst column =
        some (.valid (columnKeys file.content column)) ↔
      cut.Repaired (root.dir (calculateFileHash filePath)) filePath file column := by
  rw [buildIndex_keys_iff distinct inWalk unchanged ok, interruptedIndexFile_dir found crashed]
  cases cut with
  | beforeDirectory => exact Iff.rfl
  | beforeMetadata => exact Iff.rfl
  | duringMetadata written =>
      rw [upToDate_iff (partialMetadata filePath file written) rfl]
      simp only [IndexDir.leftBy, WriteCut.Repaired]
      tauto
  | beforeFst =>
      rw [upToDate_iff (.text (metadataContent filePath file.mtime file.size
        file.content.numRowGroups)) rfl]
      simp only [IndexDir.leftBy, WriteCut.Repaired]
      tauto
  | duringFst left =>
      have named := named_of_duringFst found crashed
      rw [upToDate_iff (.text (metadataContent filePath file.mtime file.size
        file.content.numRowGroups)) (IndexDir.withFst_metadata _ _ _)]
      simp [IndexDir.leftBy, WriteCut.Repaired, IndexDir.withFst_fst_same _ named rfl]

end Crash

def olderFile : FileTree.DataFile where
  mtime := 1600000000
  size := 1000
  content := .ofStrings sampleColumn [["zoe".toList]] (by decide)

/-- Re-indexing stops after five bytes of metadata.txt. -/
theorem crash_repaired_sample :
    ∃ left root', interruptedIndexFile sampleHash (.duringMetadata 5)
        (singleTree samplePath sampleFile) (singleRoot samplePath olderFile sampleColumn) samplePath
        sampleColumn = .ok left ∧
      buildIndex sampleHash (singleTree samplePath sampleFile) left sampleDir sampleColumn =
        .ok root' ∧
      (root'.dir (sampleHash samplePath)).fst sampleColumn =
        some (.valid (columnKeys sampleFile.content sampleColumn)) := by
  have found := dataFile_singleTree samplePath sampleFile
  have distinct : ∀ other ∈ (singleTree samplePath sampleFile).parquetEntries sampleDir,
      sampleHash other = sampleHash samplePath → other = samplePath :=
    fun other member _ => List.mem_singleton.mp member
  have unrecorded : ¬ (partialMetadata samplePath sampleFile 5).Records sampleFile := by
    have written : partialMetadata samplePath sampleFile 5 = .text "/d/a.".toList := by decide
    rintro ⟨contents, same, stamped⟩
    rw [written] at same
    cases same
    exact absurd stamped (by decide)
  have crashed : interruptedIndexFile sampleHash (.duringMetadata 5)
      (singleTree samplePath sampleFile) (singleRoot samplePath olderFile sampleColumn) samplePath
      sampleColumn = .ok _ := rfl
  refine ⟨_, _, crashed,
    buildIndex_single named_sampleColumn (parquetEntries_sample sampleFile) rfl, ?_⟩
  have repaired := crash_repaired_iff found crashed found distinct (List.mem_singleton.mpr rfl)
    (buildIndex_single named_sampleColumn (parquetEntries_sample sampleFile) rfl)
  exact repaired.mpr (Or.inl unrecorded)

/-- A first index run dies while it writes the FST; the next run skips the file. -/
theorem half_written_fst_refuted :
    ∃ left, interruptedIndexFile sampleHash (.duringFst .invalid)
        (singleTree samplePath sampleFile) ∅ samplePath sampleColumn = .ok left ∧
      buildIndex sampleHash (singleTree samplePath sampleFile) left sampleDir sampleColumn =
        .ok left ∧
      (left.dir (sampleHash samplePath)).fst sampleColumn = some .invalid ∧
      (left.dir (sampleHash samplePath)).fst sampleColumn ≠
        some (.valid (columnKeys sampleFile.content sampleColumn)) := by
  refine ⟨_, rfl, ?_, by decide, by decide⟩
  rw [buildIndex, buildIndex_of_single (parquetEntries_sample sampleFile)]
  exact indexEntry_of_skipped rfl

end Pdq
