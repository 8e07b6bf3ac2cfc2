/- Pdq.Shootout.Manifest -- the manifest of a corpus, and its index.

The script writes down where the values are planted, without looking at the corpus:
both follow one scheme.  Once the corpus is indexed by the four text columns, every
lookup answers as a scan of the corpus does, and every place of the manifest is among
the answers to a lookup of its value (`manifest_found`). -/
import Pdq.Shootout.Corpus
import Pdq.Query.Maintained

namespace Pdq

open Theory KeyFormat

set_option autoImplicit false

namespace Shootout

/-! ## The script -/

def indexedColumns : List Column :=
  [TextColumn.srcIp.name, TextColumn.dstIp.name, TextColumn.domainRev.name, TextColumn.email.name]

/-- It matches `192.168.133.x`. -/
def prefixTerm : Str := "192.168.133.".toList

def domainSuffix : Str := "evil.com".toList

/-- It matches `*.evil.com`, with the labels reversed. -/
def domainReversedPrefix : Str := "com.evil.".toList

structure Location where
  column : Column
  value : Str
  file : Path
  rowGroup : Int
  deriving DecidableEq, Repr

structure Manifest where
  corpusDir : Path
  indexDir : Path
  nFiles : Nat
  rowGroupsPerFile : Nat
  rowsPerGroup : Nat
  indexedColumns : List Column
  bloomColumns : List Column
  single : Location
  multi : List Location
  prefixTerm : Str
  prefixLocations : List Location
  domainSuffix : Str
  domainReversedPrefix : Str
  domainLocations : List Location

/-- The accumulators of the loop over the files. -/
structure Locations where
  multi : List Location
  prefixLocations : List Location
  domainLocations : List Location
  single : Option Location

/-- The body of the loop. -/
def recordFile (dataDir : Path) (nFiles rowGroupsPerFile : Nat) (locations : Locations) (fi : Nat) :
    Locations :=
  let path := join dataDir (partName fi)
  { multi := locations.multi ++ [⟨TextColumn.srcIp.name, multiIoc fi, path, 0⟩]
    prefixLocations :=
      if fi = 0 then
        locations.prefixLocations ++ [⟨TextColumn.srcIp.name, prefixValue, path, 0⟩]
      else locations.prefixLocations
    domainLocations :=
      if fi = 0 then
        locations.domainLocations ++ [⟨TextColumn.domainRev.name, domainValue, path, 0⟩]
      else locations.domainLocations
    single :=
      if fi = nFiles - 1 then
        some ⟨TextColumn.srcIp.name, singleNeedle, path, rowGroupsPerFile - 1⟩
      else locations.single }

def recordFiles (dataDir : Path) (nFiles rowGroupsPerFile : Nat) : Locations :=
  (List.range nFiles).foldl (recordFile dataDir nFiles rowGroupsPerFile) ⟨[], [], [], none⟩

/-- `generate_corpus`, after the corpus is written; without a file it stops at the
assertion that the single needle is planted. -/
def generateManifest (dataDir indexDir : Path) (nFiles rowGroupsPerFile rowsPerGroup : Nat) :
    Option Manifest :=
  let locations := recordFiles dataDir nFiles rowGroupsPerFile
  locations.single.map fun single =>
    { corpusDir := dataDir
      indexDir := indexDir
      nFiles := nFiles
      rowGroupsPerFile := rowGroupsPerFile
      rowsPerGroup := rowsPerGroup
      indexedColumns := indexedColumns
      bloomColumns := indexedColumns
      single := single
      multi := locations.multi
      prefixTerm := prefixTerm
      prefixLocations := locations.prefixLocations
      domainSuffix := domainSuffix
      domainReversedPrefix := domainReversedPrefix
      domainLocations := locations.domainLocations }

/-- The calls of `pdq index` that `generate_corpus_and_index` makes. -/
def Manifest.indexCalls (manifest : Manifest) : List BuildCall :=
  manifest.indexedColumns.map fun column => ⟨manifest.corpusDir, column, false⟩

/-- All the places of a manifest. -/
def Manifest.locations (manifest : Manifest) : List Location :=
  manifest.single :: (manifest.multi ++ manifest.prefixLocations ++ manifest.domainLocations)

/-! ## The script follows the generator -/

section Record

variable {dataDir indexDir : Path} {nFiles rowGroupsPerFile rowsPerGroup : Nat}

/-- What the first `n` rounds of the loop record. -/
theorem recordFiles_prefix {n : Nat} (bound : n ≤ nFiles) :
    (List.range n).foldl (recordFile dataDir nFiles rowGroupsPerFile) ⟨[], [], [], none⟩ =
      { multi := (List.range n).map fun fi =>
          ⟨TextColumn.srcIp.name, multiIoc fi, join dataDir (partName fi), 0⟩
        prefixLocations := if n = 0 then [] else
          [⟨TextColumn.srcIp.name, prefixValue, join dataDir (partName 0), 0⟩]
        domainLocations := if n = 0 then [] else
          [⟨TextColumn.domainRev.name, domainValue, join dataDir (partName 0), 0⟩]
        single := if n = 0 ∨ n ≠ nFiles then none else
          some ⟨TextColumn.srcIp.name, singleNeedle, join dataDir (partName (nFiles - 1)),
            rowGroupsPerFile - 1⟩ } := by
  induction n with
  | zero => rfl
  | succ n ih =>
      rw [List.range_succ, List.foldl_append, ih (by omega), List.foldl_cons, List.foldl_nil]
      by_cases first : n = 0
      · subst first
        by_cases last : 0 = nFiles - 1
        · have whole : nFiles = 1 := by omega
          subst whole
          simp [recordFile]
        · have more : ¬ 1 = nFiles := by omega
          simp [recordFile, last, more]
      · by_cases last : n = nFiles - 1
        · have whole : nFiles = n + 1 := by omega
          subst whole
          simp [recordFile, first]
        · have more : ¬ n + 1 = nFiles := by omega
          have other : ¬ n = nFiles := by omega
          simp [recordFile, first, last, more, other]

theorem generateManifest_eq {manifest : Manifest}
    (made : generateManifest dataDir indexDir nFiles rowGroupsPerFile rowsPerGroup =
      some manifest) :
    0 < nFiles ∧ manifest.corpusDir = dataDir ∧ manifest.indexedColumns = indexedColumns ∧
      manifest.prefixTerm = prefixTerm ∧
      manifest.domainReversedPrefix = domainReversedPrefix ∧
      manifest.multi = (List.range nFiles).map (fun fi =>
        ⟨TextColumn.srcIp.name, multiIoc fi, join dataDir (partName fi), 0⟩) ∧
      manifest.prefixLocations =
        [⟨TextColumn.srcIp.name, prefixValue, join dataDir (partName 0), 0⟩] ∧
      manifest.domainLocations =
        [⟨TextColumn.domainRev.name, domainValue, join dataDir (partName 0), 0⟩] ∧
      manifest.single = ⟨TextColumn.srcIp.name, singleNeedle, join dataDir (partName (nFiles - 1)),
        rowGroupsPerFile - 1⟩ := by
  simp only [generateManifest, recordFiles, recordFiles_prefix le_rfl] at made
  by_cases noFiles : nFiles = 0
  · rw [if_pos (Or.inl noFiles)] at made
    cases made
  · simp only [noFiles, ne_eq, not_true_eq_false, or_self, if_false, Option.map_some,
      Option.some.injEq] at made
    subst made
    exact ⟨Nat.pos_of_ne_zero noFiles, rfl, rfl, rfl, rfl, rfl, rfl, rfl, rfl⟩

/-- **The script follows the generator**: every place it writes down is one where the
generator plants that value. -/
theorem planted_of_location {manifest : Manifest}
    (made : generateManifest dataDir indexDir nFiles rowGroupsPerFile rowsPerGroup = some manifest)
    (groups : 0 < rowGroupsPerFile) {location : Location} (member : location ∈ manifest.locations) :
    ∃ fi < nFiles, ∃ rgi < rowGroupsPerFile,
      ∃ planted ∈ injections (nFiles - 1) (rowGroupsPerFile - 1) fi rgi,
        location = ⟨planted.column, planted.value, join dataDir (partName fi), rgi⟩ := by
  obtain ⟨some, -, -, -, -, multi, pfx, domain, single⟩ := generateManifest_eq made
  rw [Manifest.locations, multi, pfx, domain, single] at member
  simp only [List.mem_cons, List.mem_append, List.mem_map, List.mem_range, List.not_mem_nil,
    or_false] at member
  rcases member with rfl | (⟨fi, inRange, rfl⟩ | rfl) | rfl
  · have last : ((rowGroupsPerFile - 1 : Nat) : Int) = (rowGroupsPerFile : Int) - 1 := by omega
    exact ⟨nFiles - 1, by omega, rowGroupsPerFile - 1, by omega,
      ⟨TextColumn.srcIp.name, 2, singleNeedle⟩, mem_injections.mpr (by simp), by rw [last]⟩
  · exact ⟨fi, inRange, 0, groups, ⟨TextColumn.srcIp.name, 0, multiIoc fi⟩,
      mem_injections.mpr (by simp), rfl⟩
  · exact ⟨0, some, 0, groups, ⟨TextColumn.srcIp.name, 1, prefixValue⟩,
      mem_injections.mpr (by simp), rfl⟩
  · exact ⟨0, some, 0, groups, ⟨TextColumn.domainRev.name, 0, domainValue⟩,
      mem_injections.mpr (by simp), rfl⟩

end Record

/-! ## A corpus in a tree -/

/-- The readers hand out the rows that were written, row group by row group. -/
def ReadsAs (batches : List RecordBatch) (file : ParquetFile) : Prop :=
  file.rowGroups.map RowGroup.rows = batches.map RecordBatch.rows

theorem holdsValue_of_readsAs {batches : List RecordBatch} {file : ParquetFile}
    (reads : ReadsAs batches file) {column : Column} {g : Nat} {v : Str} :
    file.HoldsValue column g v ↔
      ∃ batch, batches[g]? = some batch ∧ v ∈ batch.stringValues column := by
  have same : (file.rowGroups[g]?).map RowGroup.rows = (batches[g]?).map RecordBatch.rows := by
    rw [← List.getElem?_map, reads, List.getElem?_map]
  simp only [ParquetFile.HoldsValue, mem_stringValues_iff]
  cases rowGroup : file.rowGroups[g]? <;> cases batch : batches[g]? <;> rw [rowGroup, batch] at same
  · simp
  · cases same
  · cases same
  · simp [Option.some.inj same]

/-- The data directory holds the files of a corpus and no other Parquet file. -/
structure HoldsCorpus (tree : FileTree) (dataDir : Path)
    (files : List (Path × List RecordBatch)) : Prop where
  walked : ∀ path, hasParquetExtension path = true →
    (path ∈ tree.walkDir dataDir ↔ path ∈ files.map Prod.fst)
  reads : ∀ entry ∈ files, ∃ file, tree.dataFile? entry.1 = some file ∧
    ReadsAs entry.2 file.content

/-- Read a corpus from end to end. -/
def scanCorpus (files : List (Path × List RecordBatch)) (column : Column)
    (request : SearchRequest) : Set (Path × Nat) :=
  {pair | ∃ batches, (pair.1, batches) ∈ files ∧ ∃ batch, batches[pair.2]? = some batch ∧
    ∃ v ∈ batch.stringValues column, request.selects v = true}

/-- A lookup answers, and the place of the manifest is in the answer. -/
def Finds (root : IndexRoot) (request : SearchRequest) (location : Location) : Prop :=
  ∃ answer, (request.run root (.new root) location.column).1.map namedPairs = .ok answer ∧
    ∃ g : Nat, (g : Int) = location.rowGroup ∧ (location.file, g) ∈ answer

section Search

variable {calculateFileHash : Path → Str} {tree : FileTree} {dataDir indexDir : Path}
  {nFiles rowGroupsPerFile rowsPerGroup : Nat} {files : List (Path × List RecordBatch)}

/-- What the walk visits of a tree that holds a corpus. -/
theorem mem_parquetEntries (held : HoldsCorpus tree dataDir files)
    (corpus : Corpus dataDir nFiles rowGroupsPerFile rowsPerGroup files) {path : Path} :
    path ∈ tree.parquetEntries dataDir ↔ path ∈ files.map Prod.fst := by
  rw [FileTree.parquetEntries, List.mem_filter]
  constructor
  · rintro ⟨inWalk, selected⟩
    exact (held.walked path selected).mp inWalk
  · intro member
    obtain ⟨entry, inFiles, rfl⟩ := List.mem_map.mp member
    obtain ⟨fi, -, named, -⟩ := corpus.of_mem inFiles
    have selected : hasParquetExtension entry.1 = true := named ▸ hasParquetExtension_part _ _
    exact ⟨(held.walked _ selected).mpr member, selected⟩

theorem nulFree_of_reads {batches : List RecordBatch} {file : ParquetFile} {fi : Nat}
    (written : FileBatches (nFiles - 1) (rowGroupsPerFile - 1) rowGroupsPerFile rowsPerGroup fi batches)
    (reads : ReadsAs batches file) (column : Column) : NulFree file column := by
  intro g v holds
  obtain ⟨batch, position, member⟩ := (holdsValue_of_readsAs reads).mp holds
  obtain ⟨-, each⟩ := forall₂_range.mp written
  exact (each g batch position).noNul column v member

/-- A lookup in the index of a corpus by some columns answers as a scan does. -/
theorem search_corpus
    (corpus : Corpus dataDir nFiles rowGroupsPerFile rowsPerGroup files)
    (held : HoldsCorpus tree dataDir files)
    (distinct : Set.InjOn calculateFileHash {path | path ∈ files.map Prod.fst})
    (noFeed : ¬ '\n' ∈ dataDir) {columns : List Column}
    (own : OwnFiles {column | column ∈ columns}) {root : IndexRoot}
    (ok : buildAll calculateFileHash tree ∅
      (columns.map fun column => ⟨dataDir, column, false⟩) = .ok root)
    {column : Column} (indexed : column ∈ columns) (opens : Opens column)
    {request : SearchRequest} (clean : request.Clean) :
    (request.run root (.new root) column).1.map namedPairs =
      .ok (scanCorpus files column request) := by
  have requested : ∀ path column', Requested tree
      (columns.map fun column => ⟨dataDir, column, false⟩) path column' ↔
      path ∈ files.map Prod.fst ∧ column' ∈ columns := by
    intro path column'
    rw [requested_columns_iff, mem_parquetEntries held corpus]
  have inFiles : {path | ∃ column', Requested tree
      (columns.map fun column => ⟨dataDir, column, false⟩) path column'} ⊆
      {path | path ∈ files.map Prod.fst} := fun _ asked =>
    (mem_parquetEntries held corpus).mp (requested_columns_subset asked)
  have within : ∀ path column', Requested tree
      (columns.map fun column => ⟨dataDir, column, false⟩) path column' → column' ∈ columns :=
    fun path column' asked => ((requested path column').mp asked).2
  have leaves := leaves_of_buildAll
    (own.mono fun column' asked => asked.elim fun path => within path column')
    (distinct.mono inFiles) ok
  have answered := search_of_leaves own
    (fun path member => by
      obtain ⟨entry, inCorpus, rfl⟩ := List.mem_map.mp (inFiles member)
      obtain ⟨fi, -, named, -⟩ := corpus.of_mem inCorpus
      rw [named]
      exact oneLine_of_hasParquetExtension (hasParquetExtension_part _ _)
        (not_newline_part noFeed fi))
    (fun path member file found => by
      obtain ⟨entry, inCorpus, rfl⟩ := List.mem_map.mp (inFiles member)
      obtain ⟨fi, -, -, written⟩ := corpus.of_mem inCorpus
      obtain ⟨file', found', reads⟩ := held.reads entry inCorpus
      obtain rfl := Option.some.inj (found'.symm.trans found)
      exact nulFree_of_reads written reads column)
    leaves within indexed opens clean
  rw [answered]
  refine congrArg Except.ok (Set.ext fun pair => ?_)
  simp only [scanCorpus, Set.mem_ofPred_eq, requested]
  constructor
  · rintro ⟨⟨member, -⟩, file, found, v, holds, selected⟩
    obtain ⟨entry, inCorpus, same⟩ := List.mem_map.mp member
    obtain ⟨file', found', reads⟩ := held.reads entry inCorpus
    rw [same] at found'
    obtain rfl := Option.some.inj (found'.symm.trans found)
    obtain ⟨batch, position, inBatch⟩ := (holdsValue_of_readsAs reads).mp holds
    exact ⟨entry.2, same ▸ inCorpus, batch, position, v, inBatch, selected⟩
  · rintro ⟨batches, inCorpus, batch, position, v, inBatch, selected⟩
    obtain ⟨file, found, reads⟩ := held.reads _ inCorpus
    exact ⟨⟨List.mem_map.mpr ⟨_, inCorpus, rfl⟩, indexed⟩, file, found, v,
      (holdsValue_of_readsAs reads).mpr ⟨batch, position, inBatch⟩, selected⟩

/-- What is planted is found by every lookup that selects it. -/
theorem planted_mem_scanCorpus
    (corpus : Corpus dataDir nFiles rowGroupsPerFile rowsPerGroup files) {fi rgi : Nat}
    (inRange : fi < nFiles) (inFile : rgi < rowGroupsPerFile) {planted : Injection}
    (member : planted ∈ injections (nFiles - 1) (rowGroupsPerFile - 1) fi rgi) {request : SearchRequest}
    (selects : request.selects planted.value = true) :
    (join dataDir (partName fi), rgi) ∈ scanCorpus files planted.column request := by
  obtain ⟨batches, inFiles, written⟩ := corpus.entry inRange
  obtain ⟨batch, position, held⟩ := written.rowGroup inFile
  exact ⟨batches, inFiles, batch, position, planted.value, held.held planted member, selects⟩

/-- The index of a corpus by columns that name files is built without an error. -/
theorem buildAll_corpus
    (corpus : Corpus dataDir nFiles rowGroupsPerFile rowsPerGroup files)
    (held : HoldsCorpus tree dataDir files) {columns : List Column}
    (stems : ∀ column ∈ columns, IsFileStem column) :
    ∃ root, buildAll calculateFileHash tree ∅
      (columns.map fun column => ⟨dataDir, column, false⟩) = .ok root := by
  refine buildAll_returns ?_ ?_
  · intro path column asked
    rw [fstFile_of_isFileStem (stems column (requested_columns_iff.mp asked).2)]
    exact Option.some_ne_none _
  · intro path column asked
    have inFiles := (mem_parquetEntries held corpus).mp (requested_columns_iff.mp asked).1
    obtain ⟨entry, member, rfl⟩ := List.mem_map.mp inFiles
    obtain ⟨file, found, -⟩ := held.reads entry member
    exact ⟨file, found⟩

/-- Where lookups answer as a scan does, one that selects the value of a place of the
manifest finds the place. -/
theorem finds_of_answered
    (corpus : Corpus dataDir nFiles rowGroupsPerFile rowsPerGroup files)
    (groups : 0 < rowGroupsPerFile) {manifest : Manifest}
    (made : generateManifest dataDir indexDir nFiles rowGroupsPerFile rowsPerGroup =
      some manifest) {root : IndexRoot}
    (answered : ∀ column ∈ indexedColumns, ∀ request : SearchRequest, request.Clean →
      (request.run root (.new root) column).1.map namedPairs =
        .ok (scanCorpus files column request))
    {location : Location} (member : location ∈ manifest.locations) {request : SearchRequest}
    (clean : request.Clean) (selects : request.selects location.value = true) :
    Finds root request location := by
  obtain ⟨fi, inRange, rgi, inFile, planted, inList, rfl⟩ :=
    planted_of_location made groups member
  obtain ⟨c, named⟩ := named_of_mem_injections inList
  have indexed : planted.column ∈ indexedColumns := by
    rw [named]
    cases c <;> decide
  exact ⟨_, answered _ indexed request clean, rgi, rfl,
    planted_mem_scanCorpus corpus inRange inFile inList selects⟩

/-- **The index of a generated corpus answers every lookup as a scan does, and finds
every place of the manifest**: by its value, and by the prefix it is planted for.  The
values planted in every file all differ. -/
theorem manifest_found {overflowChecks : Bool} {seed : UInt64}
    (written : writeCorpus overflowChecks dataDir nFiles rowGroupsPerFile rowsPerGroup seed =
      .ok files)
    (held : HoldsCorpus tree dataDir files)
    (distinct : Set.InjOn calculateFileHash {path | path ∈ files.map Prod.fst})
    (noFeed : ¬ '\n' ∈ dataDir) (groups : 0 < rowGroupsPerFile) {manifest : Manifest}
    (made : generateManifest dataDir indexDir nFiles rowGroupsPerFile rowsPerGroup =
      some manifest) :
    (files.map Prod.fst).Nodup ∧ (manifest.multi.map Location.value).Nodup ∧
      ∃ root, buildAll calculateFileHash tree ∅ manifest.indexCalls = .ok root ∧
        (∀ column ∈ manifest.indexedColumns, ∀ request : SearchRequest, request.Clean →
          (request.run root (.new root) column).1.map namedPairs =
            .ok (scanCorpus files column request)) ∧
        (∀ location ∈ manifest.locations, Finds root (.exact location.value) location) ∧
        (∀ location ∈ manifest.single :: manifest.prefixLocations,
          Finds root (.startsWith manifest.prefixTerm) location) ∧
        ∀ location ∈ manifest.domainLocations,
          Finds root (.startsWith manifest.domainReversedPrefix) location := by
  obtain ⟨-, corpus⟩ := corpus_of_writeCorpus written
  obtain ⟨-, dir, columns, pfx, domain, multi, prefixed, domains, single⟩ :=
    generateManifest_eq made
  have calls : manifest.indexCalls = indexedColumns.map fun column => ⟨dataDir, column, false⟩ := by
    rw [Manifest.indexCalls, columns, dir]
  have stems : ∀ column ∈ {column | column ∈ indexedColumns}, IsFileStem column := by
    show ∀ column ∈ indexedColumns, IsFileStem column
    decide
  obtain ⟨root, ok⟩ : ∃ root, buildAll calculateFileHash tree ∅
      (indexedColumns.map fun column => ⟨dataDir, column, false⟩) = .ok root :=
    buildAll_corpus corpus held stems
  have answered : ∀ column ∈ indexedColumns, ∀ request : SearchRequest, request.Clean →
      (request.run root (.new root) column).1.map namedPairs =
        .ok (scanCorpus files column request) := fun column indexed request clean =>
    search_corpus corpus held distinct noFeed (ownFiles_of_stems stems) ok indexed
      (opens_of_isFileStem (stems column indexed)) clean
  have finds : ∀ location ∈ manifest.locations, ∀ request : SearchRequest, request.Clean →
      request.selects location.value = true → Finds root request location :=
    fun location member request => finds_of_answered corpus groups made answered member
  refine ⟨?_, ?_, root, by rw [calls, ok], by rwa [columns], ?_, ?_, ?_⟩
  · rw [corpus.paths]
    exact List.nodup_range.map (part_injective dataDir)
  · rw [multi, List.map_map]
    exact List.nodup_range.map multiIoc_injective
  · exact fun location member => finds location member _ trivial
      (decide_eq_true rfl)
  · have clean : (SearchRequest.startsWith prefixTerm).Clean :=
      ⟨by decide, by decide, by decide⟩
    have needle : (SearchRequest.startsWith prefixTerm).selects singleNeedle = true := by decide
    have sample : (SearchRequest.startsWith prefixTerm).selects prefixValue = true := by decide
    intro location member
    rw [prefixed, single, List.mem_cons, List.mem_singleton] at member
    rw [pfx]
    rcases member with rfl | rfl
    · exact finds _ (by simp [Manifest.locations, single]) _ clean needle
    · exact finds _ (by simp [Manifest.locations, prefixed]) _ clean sample
  · have clean : (SearchRequest.startsWith domainReversedPrefix).Clean :=
      ⟨by decide, by decide, by decide⟩
    have sample : (SearchRequest.startsWith domainReversedPrefix).selects domainValue = true := by
      decide
    intro location member
    rw [domains, List.mem_singleton] at member
    rw [domain, member]
    exact finds _ (by simp [Manifest.locations, domains]) _ clean sample

end Search

/-! ## A tree that holds a corpus -/

theorem isStringArray_batchArrays {texts : Texts} {bytes : List Int} {named : Column × ArrayRef}
    (member : named ∈ batchArrays texts bytes) :
    named.2.isStringArray = decide (named.1 ≠ bytesName) := by
  simp only [batchArrays, List.mem_cons, List.not_mem_nil, or_false] at member
  rcases member with rfl | rfl | rfl | rfl | rfl <;> rfl

/-- The file that is read one batch per row group. -/
def ofBatches (batches : List RecordBatch) (fits : batches.length < usizeBound)
    (schema : ∀ batch ∈ batches, ∃ texts bytes, batch.columns = batchArrays texts bytes) :
    ParquetFile where
  rowGroups := batches.map fun batch => [batch]
  fits := by rwa [List.length_map]
  oneSchema := by
    have strings : ∀ named ∈ batchColumns (batches.map fun batch => [batch]),
        named.2.isStringArray = decide (named.1 ≠ bytesName) := by
      intro named member
      simp only [batchColumns, List.mem_flatMap, List.mem_map] at member
      obtain ⟨_, ⟨batch, inFile, rfl⟩, batch', inGroup, inBatch⟩ := member
      rw [List.mem_singleton.mp inGroup] at inBatch
      obtain ⟨texts, bytes, columns⟩ := schema batch inFile
      exact isStringArray_batchArrays (columns ▸ inBatch)
    intro a memberA b memberB same
    rw [strings a memberA, strings b memberB, same]

theorem readsAs_ofBatches {batches : List RecordBatch} (fits : batches.length < usizeBound)
    (schema : ∀ batch ∈ batches, ∃ texts bytes, batch.columns = batchArrays texts bytes) :
    ReadsAs batches (ofBatches batches fits schema) := by
  rw [ReadsAs, ofBatches, List.map_map]
  exact List.map_congr_left fun batch _ => List.flatMap_singleton _ batch

def oneFileTree (path : Path) (file : ParquetFile) : FileTree where
  walkDir _ := [path]
  canonicalize := some
  node _ := some ⟨some 1700000000, 1024, some file⟩
  objectStoreAccepts _ := true

/-- One file of one row group, written, indexed and searched. -/
theorem manifest_found_sample :
    ∃ manifest root, generateManifest "d".toList "i".toList 1 1 3 = some manifest ∧
      ∀ location ∈ manifest.locations, Finds root (.exact location.value) location := by
  obtain ⟨files, written⟩ : ∃ files, writeCorpus true "d".toList 1 1 3 42 = .ok files :=
    writeCorpus_returns _ _ (by decide) (by decide)
  obtain ⟨-, corpus⟩ := corpus_of_writeCorpus written
  obtain ⟨length, each⟩ := forall₂_range.mp corpus
  obtain ⟨entry, rfl⟩ := List.length_eq_one_iff.mp length
  obtain ⟨count, groups⟩ := forall₂_range.mp (each 0 entry rfl).2
  have schema : ∀ batch ∈ entry.2, ∃ texts bytes, batch.columns = batchArrays texts bytes := by
    intro batch member
    obtain ⟨g, position⟩ := List.mem_iff_getElem?.mp member
    exact (groups g batch position).schema
  have fits : entry.2.length < usizeBound := by
    rw [count]
    decide
  have held : HoldsCorpus (oneFileTree entry.1 (ofBatches entry.2 fits schema)) "d".toList
      [entry] := by
    refine ⟨fun path _ => Iff.rfl, fun other member => ?_⟩
    rw [List.mem_singleton.mp member]
    exact ⟨_, rfl, readsAs_ofBatches fits schema⟩
  have distinct : Set.InjOn sampleHash {path | path ∈ [entry].map Prod.fst} := by
    intro path member other member' _
    rw [List.mem_singleton.mp member, List.mem_singleton.mp member']
  obtain ⟨manifest, made⟩ :
      ∃ manifest, generateManifest "d".toList "i".toList 1 1 3 = some manifest := ⟨_, rfl⟩
  obtain ⟨-, -, root, -, -, found, -⟩ :=
    manifest_found written held distinct (by decide) Nat.zero_lt_one made
  exact ⟨manifest, root, made, found⟩

end Shootout

end Pdq
