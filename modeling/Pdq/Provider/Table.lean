/- Pdq.Provider.Table -- the table provider and the directory it is given.

A provider is built from an index directory and a data directory.  The data
directory gives it its schema and nothing else: the files of a scan are those
whose paths stand in the index directory (`scan_reads_recorded`).  So a provider
of one data directory reads the files of another that shares its index directory
(`other_directory_refuted`). -/
import Pdq.Index.Rebuild
import Pdq.Provider.Scan

namespace Pdq

open Theory

set_option autoImplicit false

/-! ## Building a provider -/

inductive TableError (S : Type) where
  | noParquetFiles
  | unreadable (error : IndexError)
  /-- Two schemas do not merge. -/
  | schema (left right : S)

/-- The provider, with the schema type of its files. -/
structure PdqTableProvider (S : Type) where
  indexEngine : IndexQueryEngine
  schema : S

namespace PdqTableProvider

variable {S : Type} (schemaOf : ParquetFile → S) (tryMerge : S → S → Option S)

/-- `PdqTableProvider::infer_schema_from_file` -/
def inferSchemaFromFile (tree : FileTree) (filePath : Path) : Except (TableError S) S :=
  match tree.openParquet filePath with
  | .ok file => .ok (schemaOf file)
  | .error e => .error (.unreadable e)

/-- Merge the next schema into those before it. -/
def mergeSchema (mergedSchema schema : S) : Except (TableError S) S :=
  match tryMerge mergedSchema schema with
  | some merged => .ok merged
  | none => .error (.schema mergedSchema schema)

/-- `PdqTableProvider::infer_schema_from_directory` -/
def inferSchemaFromDirectory (tree : FileTree) (dataDir : Path) : Except (TableError S) S := do
  let schemas ← (tree.parquetEntries dataDir).mapM (inferSchemaFromFile schemaOf tree)
  match schemas with
  | [] => .error .noParquetFiles
  | first :: rest => rest.foldlM (mergeSchema tryMerge) first

/-- `PdqTableProvider::new` -/
def new (tree : FileTree) (indexEngine : IndexQueryEngine) (dataDir : Path) :
    Except (TableError S) (PdqTableProvider S) := do
  let schema ← inferSchemaFromDirectory schemaOf tryMerge tree dataDir
  return ⟨indexEngine, schema⟩

/-- `PdqTableProvider::scan`; DataFusion plans the filters over the schema. -/
def scan (calculateFileHash : Path → Str) (session : S → Session) (tree : FileTree)
    (root : IndexRoot) (provider : PdqTableProvider S) (filters : List Expr) :
    Except PlanError ScanPlan × IndexQueryEngine :=
  Pdq.scan calculateFileHash (session provider.schema) tree root provider.indexEngine filters

end PdqTableProvider

/-! ## Where the files of a scan come from -/

/-- A canonical path lies under a directory. -/
def LiesUnder (tree : FileTree) (dir canonicalPath : Path) : Prop :=
  ∃ canonicalDir, tree.canonicalize dir = some canonicalDir ∧
    components canonicalDir <+: components canonicalPath

/-- The path a sub-directory of the index directory stands for resolves to the
file. -/
def Records (tree : FileTree) (root : IndexRoot) (canonicalPath : Path) : Prop :=
  ∃ fileHash indexDir, root.lookup fileHash = some indexDir ∧
    tree.canonicalize (indexDir.mapEntry fileHash).1 = some canonicalPath

section Source

variable {S : Type} {schemaOf : ParquetFile → S} {tryMerge : S → S → Option S}
  {calculateFileHash : Path → Str} {session : S → Session} {buildTree tree : FileTree}
  {indexRoot root : IndexRoot} {dataDir : Path} {provider : PdqTableProvider S}
  {filters : List Expr} {plan : ScanPlan}

/-- **A scan plans the files that the index directory records**, as their paths
resolve when it plans; so all of them lie under the data directory whenever every
file on record does. -/
theorem scan_reads_recorded
    (built : PdqTableProvider.new schemaOf tryMerge buildTree (.new indexRoot) dataDir =
      .ok provider)
    (ok : (provider.scan calculateFileHash session tree root filters).1 = .ok plan) :
    (∀ file ∈ plan.files, Records tree indexRoot file.path) ∧
      ((∀ canonicalPath, Records tree indexRoot canonicalPath →
          LiesUnder tree dataDir canonicalPath) →
        ∀ file ∈ plan.files, LiesUnder tree dataDir file.path) := by
  obtain ⟨schema, -, made⟩ := bind_eq_ok_iff.mp built
  cases made
  have recorded : ∀ file ∈ plan.files, Records tree indexRoot file.path := by
    intro file member
    rw [scan_files ok] at member
    obtain ⟨entry, -, planned⟩ := List.mem_filterMap.mp member
    obtain ⟨fileHash, path, leads, -, resolved⟩ := planned_origin planned
    rw [IndexQueryEngine.new_fileMap] at leads
    obtain ⟨indexDir, present, rfl⟩ := Option.map_eq_some_iff.mp leads
    exact ⟨fileHash, indexDir, present, resolved⟩
  exact ⟨recorded, fun under file member => under file.path (recorded file member)⟩

end Source

/-! ## One index directory for two data directories -/

def logsPath : Path := "/logs/a.parquet".toList

def trafficPath : Path := "/traffic/b.parquet".toList

/-- Two data directories with one file each. -/
def twoDirectories : FileTree :=
  .ofSpellings [("/logs".toList, "/logs".toList), ("/traffic".toList, "/traffic".toList),
    (logsPath, logsPath), (trafficPath, trafficPath)]
    [(logsPath, sampleFile), (trafficPath, sampleFile)]

def logsRoot : IndexRoot := .indexed ∅ logsPath sampleFile sampleColumn

def sharedRoot : IndexRoot := logsRoot.indexed trafficPath sampleFile sampleColumn

/-- The columns of the first batch of a file; the first of two schemas is the
merged one. -/
def sampleSchema (file : ParquetFile) : List Column := (batchColumns file.rowGroups).map Prod.fst

/-- The provider of the sample column over an index directory. -/
def sampleProvider (root : IndexRoot) : PdqTableProvider (List Column) :=
  ⟨.new root, [sampleColumn]⟩

/-- A session that plans every filter. -/
def acceptsAll : List Column → Session := fun _ => ⟨fun _ => .ok ()⟩

theorem build_logs :
    buildIndexExt sampleHash twoDirectories ∅ "/logs".toList sampleColumn false = .ok logsRoot := by
  have single : twoDirectories.parquetEntries "/logs".toList = [logsPath] := by decide
  rw [buildIndex_of_single single]
  exact indexEntry_of_needed rfl named_sampleColumn rfl

theorem build_traffic :
    buildIndexExt sampleHash twoDirectories logsRoot "/traffic".toList sampleColumn false =
      .ok sharedRoot := by
  have single : twoDirectories.parquetEntries "/traffic".toList = [trafficPath] := by decide
  rw [buildIndex_of_single single]
  exact indexEntry_of_needed rfl named_sampleColumn rfl

theorem new_sampleProvider (root : IndexRoot) :
    PdqTableProvider.new sampleSchema (fun first _ => some first) twoDirectories (.new root)
      "/logs".toList = .ok (sampleProvider root) := by
  rfl

theorem records_logsRoot {canonicalPath : Path}
    (recorded : Records twoDirectories logsRoot canonicalPath) : canonicalPath = logsPath := by
  have leads : ∀ fileHash indexDir, logsRoot.lookup fileHash = some indexDir →
      twoDirectories.canonicalize (indexDir.mapEntry fileHash).1 = some logsPath := by
    refine FiniteMap.forall_lookup_insert (by decide) fun fileHash indexDir _ present => ?_
    rw [AList.lookup_empty] at present
    cases present
  obtain ⟨fileHash, indexDir, present, resolved⟩ := recorded
  exact Option.some.inj (resolved.symm.trans (leads fileHash indexDir present))

theorem liesUnder_logs : LiesUnder twoDirectories "/logs".toList logsPath :=
  ⟨"/logs".toList, rfl, by decide⟩

theorem scan_reads_recorded_sample :
    ∃ plan, ((sampleProvider logsRoot).scan sampleHash acceptsAll twoDirectories logsRoot
        [nameIs "alice".toList]).1 = .ok plan ∧
      plan.files.map PartitionedFile.path = [logsPath] ∧
      ∀ file ∈ plan.files, LiesUnder twoDirectories "/logs".toList file.path := by
  have returned : ((sampleProvider logsRoot).scan sampleHash acceptsAll twoDirectories logsRoot
      [nameIs "alice".toList]).1 = .ok _ := rfl
  refine ⟨_, returned, by decide, ?_⟩
  refine (scan_reads_recorded (new_sampleProvider logsRoot) returned).2 fun canonicalPath recorded =>
    ?_
  rw [records_logsRoot recorded]
  exact liesUnder_logs

/-- The provider of `/logs` over the index of both directories plans the file of
`/traffic` as well. -/
theorem other_directory_refuted :
    buildIndexExt sampleHash twoDirectories ∅ "/logs".toList sampleColumn false = .ok logsRoot ∧
      buildIndexExt sampleHash twoDirectories logsRoot "/traffic".toList sampleColumn false =
        .ok sharedRoot ∧
      PdqTableProvider.new sampleSchema (fun first _ => some first) twoDirectories
        (.new sharedRoot) "/logs".toList = .ok (sampleProvider sharedRoot) ∧
      ∃ plan, ((sampleProvider sharedRoot).scan sampleHash acceptsAll twoDirectories sharedRoot
          [nameIs "alice".toList]).1 = .ok plan ∧
        plan.files.map PartitionedFile.path = [trafficPath, logsPath] ∧
        ¬ LiesUnder twoDirectories "/logs".toList trafficPath := by
  have outside : ¬ LiesUnder twoDirectories "/logs".toList trafficPath := by
    rintro ⟨canonicalDir, resolved, under⟩
    have same : "/logs".toList = canonicalDir := Option.some.inj resolved
    subst same
    exact absurd under (by decide)
  exact ⟨build_logs, build_traffic, new_sampleProvider sharedRoot, _, rfl, by decide, outside⟩

end Pdq
