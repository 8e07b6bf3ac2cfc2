/- Pdq.Query.ReadBack -- what the readers of metadata.txt make of what the indexer
wrote.

`ReadBack` asks of an index directory that each of the three readers recovers
what `index_file` recorded about one file.  It holds exactly when the path has no
line feed (`readBack_iff`): the writer does not escape it, and `lines` splits the
path there.  Over an index that runs have made of paths without line feeds, the
file map leads from every hash back to the path of that hash
(`fileMap_of_reached`). -/
import Pdq.Query.Engine
import Pdq.Index.Incremental

namespace Pdq

open Theory

set_option autoImplicit false

variable {calculateFileHash : Path → Str} {tree : FileTree} {root root' : IndexRoot}
  {filePath : Path} {column : Column} {file : FileTree.DataFile}

/-- `build_file_map`, `needs_indexing` and `prune_orphans` recover what was
recorded about `file`, and the hash of the recovered path names its directory. -/
structure ReadBack (calculateFileHash : Path → Str) (root : IndexRoot) (filePath : Path)
    (file : FileTree.DataFile) : Prop where
  path : (IndexQueryEngine.new root).fileMap.lookup (calculateFileHash filePath) = some filePath
  count : (IndexQueryEngine.new root).numRowGroups (calculateFileHash filePath) =
    some file.content.numRowGroups
  stamp : ∀ (tree' : FileTree) (column' : Column) (file' : FileTree.DataFile),
    tree'.dataFile? filePath = some file' →
    (root.dir (calculateFileHash filePath)).fst column' ≠ none →
    needsIndexing calculateFileHash tree' root filePath column' =
      .ok (decide (file'.mtime ≠ file.mtime) || decide (file'.size ≠ file.size))
  orphan : ∀ tree' : FileTree, isOrphan tree' (root.dir (calculateFileHash filePath)) =
    .ok (tree'.resolve filePath).isNone
  hash : ∀ decoded,
    (IndexQueryEngine.new root).fileMap.lookup (calculateFileHash filePath) = some decoded →
    calculateFileHash decoded = calculateFileHash filePath

/-! ## The directory of an indexed file -/

theorem lookup_of_indexFile (found : tree.dataFile? filePath = some file)
    (ok : indexFile calculateFileHash tree root filePath column = .ok root') :
    root'.lookup (calculateFileHash filePath) =
      some ((root.dir (calculateFileHash filePath)).indexed filePath file column) := by
  obtain ⟨-, file', found', rfl⟩ := indexFile_effect ok
  cases found.symm.trans found'
  exact AList.lookup_insert _

theorem mapEntry_indexed (indexDir : IndexDir) (fileHash : Str) (one : OneLine filePath)
    (file : FileTree.DataFile) (column : Column) :
    (indexDir.indexed filePath file column).mapEntry fileHash =
      (filePath, some file.content.numRowGroups) := by
  rw [IndexDir.mapEntry_recorded one (IndexDir.indexed_metadata _ _ _ _),
    parseUnsigned_decimal (n := file.content.numRowGroups) file.content.fits]

/-- A path with a line feed is never the path the file map records for it. -/
theorem mapEntry_indexed_ne (indexDir : IndexDir) (fileHash : Str) (broken : '\n' ∈ filePath)
    (file : FileTree.DataFile) (column : Column) :
    ((indexDir.indexed filePath file column).mapEntry fileHash).1 ≠ filePath := by
  have written : metadataContent filePath file.mtime file.size file.content.numRowGroups ≠ [] := by
    simp [metadataContent]
  simp only [IndexDir.mapEntry, IndexDir.indexed_metadata]
  cases entry : fileMapEntry
      (metadataContent filePath file.mtime file.size file.content.numRowGroups) with
  | none =>
      simp only [fileMapEntry] at entry
      split at entry
      · exact absurd ‹_› (lines_ne_nil written)
      · cases entry
  | some decoded =>
      intro same
      exact fileMapEntry_ne broken _ decoded.2 (by rw [entry, ← same]; rfl)

theorem readBack_of_oneLine (one : OneLine filePath) (found : tree.dataFile? filePath = some file)
    (ok : indexFile calculateFileHash tree root filePath column = .ok root') :
    ReadBack calculateFileHash root' filePath file := by
  have present := lookup_of_indexFile found ok
  have indexDir := IndexRoot.dir_of_lookup present
  have path : (IndexQueryEngine.new root').fileMap.lookup (calculateFileHash filePath) =
      some filePath := by
    rw [IndexQueryEngine.new_fileMap, present, Option.map_some, mapEntry_indexed _ _ one]
  refine ⟨path, ?_, fun tree' column' file' found' loaded => ?_, fun tree' => ?_,
    fun decoded mapped => ?_⟩
  · rw [IndexQueryEngine.new_numRowGroups, present, Option.bind_some, mapEntry_indexed _ _ one]
  · rw [indexDir] at loaded
    obtain ⟨fstFile, held⟩ := Option.ne_none_iff_exists'.mp loaded
    simp only [needsIndexing, indexDir, IndexDir.indexed_metadata, held,
      FileTree.fileMetadata_of_dataFile found', bind, Except.bind, storedStamp_content one,
      ne_eq, UInt64.toNat_inj]
  · simp only [isOrphan, indexDir, IndexDir.indexed_metadata, originalPath_content one]
  · rw [path] at mapped
    cases mapped
    rfl

/-- **metadata.txt is read back as it was written exactly when the path has no
line feed.** -/
theorem readBack_iff (selected : hasParquetExtension filePath = true)
    (found : tree.dataFile? filePath = some file)
    (ok : indexFile calculateFileHash tree root filePath column = .ok root') :
    ReadBack calculateFileHash root' filePath file ↔ ¬ '\n' ∈ filePath := by
  constructor
  · intro readBack broken
    have mapped := readBack.path
    rw [IndexQueryEngine.new_fileMap, lookup_of_indexFile found ok, Option.map_some] at mapped
    exact mapEntry_indexed_ne _ _ broken _ _ (Option.some.inj mapped)
  · intro noFeed
    exact readBack_of_oneLine (oneLine_of_hasParquetExtension selected noFeed) found ok

/-- **The file map of an engine over runs of index runs** leads to walked paths,
each under its own hash. -/
theorem fileMap_of_reached {history : Path → Set FileTree.DataFile} {paths : Set Path}
    {allowed : World → Path → Column → Prop} {world : World}
    (reached : Reached calculateFileHash history paths allowed world)
    (noFeed : ∀ path ∈ paths, ¬ '\n' ∈ path) {fileHash : Str} {path : Path}
    (mapped : (IndexQueryEngine.new world.root).fileMap.lookup fileHash = some path) :
    path ∈ paths ∧ calculateFileHash path = fileHash := by
  rw [IndexQueryEngine.new_fileMap] at mapped
  obtain ⟨indexDir, present, entry⟩ := Option.map_eq_some_iff.mp mapped
  obtain ⟨recorded, member, named, selected, mtime, size, numRowGroups, written⟩ :=
    recordsPaths_of_reached reached fileHash indexDir present
  have one := oneLine_of_hasParquetExtension selected (noFeed recorded member)
  rw [IndexDir.mapEntry_recorded one written] at entry
  rw [← entry]
  exact ⟨member, named⟩

theorem readBack_sample :
    ReadBack sampleHash (singleRoot samplePath sampleFile sampleColumn)
      samplePath sampleFile :=
  (readBack_iff (by decide) (dataFile_singleTree _ _)
    (indexFile_single _ _ named_sampleColumn)).mpr (by decide)

/-- The path of a file named with a line feed comes back cut at it. -/
theorem linefeed_path_refuted :
    hasParquetExtension "/d/a\nb.parquet".toList = true ∧
      (singleTree "/d/a\nb.parquet".toList sampleFile).parquetEntries sampleDir =
        ["/d/a\nb.parquet".toList] ∧
      indexFile sampleHash (singleTree "/d/a\nb.parquet".toList sampleFile) ∅
          "/d/a\nb.parquet".toList sampleColumn =
        .ok (singleRoot "/d/a\nb.parquet".toList sampleFile sampleColumn) ∧
      ¬ ReadBack sampleHash (singleRoot "/d/a\nb.parquet".toList sampleFile sampleColumn)
        "/d/a\nb.parquet".toList sampleFile := by
  have cut : (IndexQueryEngine.new
      (singleRoot "/d/a\nb.parquet".toList sampleFile sampleColumn)).fileMap.lookup
        (sampleHash "/d/a\nb.parquet".toList) = some "/d/a".toList := by
    decide
  refine ⟨by decide, by decide, indexFile_single _ _ named_sampleColumn, fun readBack => ?_⟩
  exact absurd (readBack.path.symm.trans cut) (by decide)

end Pdq
