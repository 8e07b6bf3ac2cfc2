/- Pdq.Cli.Query -- the query subcommand, over a life of the index.

`pdq query` asks the index first, and stops there when the index has no match.
Else it makes a provider, writes the column and the term into a text and has
DataFusion run it, which reads the files that a scan plans.  Where there is nothing
left to index, a scan returns what a full read does, whatever the life of the index
was (`settled_scan`).  So after an index run the subcommand returns the rows that hold
the term, in all files under the directory (`query_after_index`): it stops early only
where the scan would have planned nothing. -/
import Pdq.Cli.QueryText
import Pdq.Cli.System
import Pdq.Index.OneColumn
import Pdq.Provider.Settled

namespace Pdq

open Theory

set_option autoImplicit false

/-! ## The subcommand -/

/-- What the subcommand has of DataFusion, over tables with a schema. -/
structure DataFusion (S : Type) where
  session : S → Session
  semantics : FilterSemantics
  /-- The filters a scan of the table gets when a text is run; `none` when it is not
  planned. -/
  filters : S → Str → Option (List Expr)

/-- A text that denotes a comparison of a column of the table is planned as that
comparison. -/
def DataFusion.Plans {S : Type} (dataFusion : DataFusion S) (dialect : SqlDialect)
    (hasColumn : S → Column → Prop) : Prop :=
  ∀ schema text column term, hasColumn schema column →
    denotes dialect text = some (queryFilter column term) →
      dataFusion.filters schema text = some [queryFilter column term]

inductive QueryCommandError (S : Type) where
  | search (error : QueryError)
  | table (error : TableError S)
  | sql (text : Str)
  | plan (error : PlanError)
  | read (error : ReadError)

section Command

variable {S : Type} (dataFusion : DataFusion S) (schemaOf : ParquetFile → S)
  (tryMerge : S → S → Option S) (calculateFileHash : Path → Str)

/-- The rows the `query` subcommand prints. -/
def queryCommand (tree : FileTree) (root : IndexRoot) (dataPath : Path) (column : Column)
    (term : Str) : Except (QueryCommandError S) (List Row) := do
  let fileRowGroups ← ((IndexQueryEngine.new root).exactSearch root column term).1.mapError
    QueryCommandError.search
  if fileRowGroups.isEmpty then return []
  let provider ← (PdqTableProvider.new schemaOf tryMerge tree (.new root) dataPath).mapError
    QueryCommandError.table
  let sql := queryText column term
  let filters ← ((dataFusion.filters provider.schema sql).elim (.error (.sql sql)) .ok :
    Except (QueryCommandError S) (List Expr))
  let plan ← (provider.scan calculateFileHash dataFusion.session tree root filters).1.mapError
    QueryCommandError.plan
  let rows ← (collect tree plan).mapError QueryCommandError.read
  return rows.filter (satisfiesAll dataFusion.semantics.holds filters)

end Command

/-! ## Over a life of the index -/

section Life

variable {calculateFileHash : Path → Str} {history : Path → Set FileTree.DataFile}
  {paths : Set Path} {columns : Set Column} {world : World} {dataDir : Path} {column : Column}
  {trace : List Event}

/-- The files of a settled directory are well named. -/
theorem wellNamed_of_visited (distinct : Set.InjOn calculateFileHash paths)
    (noFeed : ∀ path ∈ paths, ¬ '\n' ∈ path)
    (visited : ∀ path ∈ world.tree.parquetEntries dataDir, path ∈ paths)
    (distinctFiles : ((world.tree.parquetEntries dataDir).map world.tree.canonicalize).Nodup)
    (stores : ∀ path ∈ world.tree.parquetEntries dataDir, world.tree.Stores path) :
    WellNamed calculateFileHash world.tree dataDir where
  distinctHashes := distinct.mono visited
  distinctFiles := distinctFiles
  noFeed path inWalk := noFeed path (visited path inWalk)
  stored path inWalk canonicalPath resolved := (stores path inWalk canonicalPath resolved).1

/-- A filter that finds no match selects no row of a settled directory. -/
theorem nothing_of_no_match (differ : StampsDiffer history) (inColumns : column ∈ columns)
    (distinct : Set.InjOn calculateFileHash paths) (noFeed : ∀ path ∈ paths, ¬ '\n' ∈ path)
    {catalogue : Catalogue}
    (maintains : Maintains calculateFileHash history paths columns world catalogue)
    (settled : Settled calculateFileHash paths world dataDir column)
    (named : WellNamed calculateFileHash world.tree dataDir)
    (stores : ∀ path ∈ world.tree.parquetEntries dataDir, world.tree.Stores path)
    {filter : Expr}
    (compares : ComparesStrings world.tree dataDir column columns [filter])
    (semantics : FilterSemantics)
    (noMatch : filterMatches world.root (.new world.root) filter = []) :
    (allRows world.tree dataDir).filter (satisfiesAll semantics.holds [filter]) = [] := by
  have every : ∀ asked ∈ [filter], filterMatches world.root (.new world.root) asked = [] := by
    intro asked member
    rw [List.mem_singleton.mp member, noMatch]
  let session : Session := ⟨fun _ => .ok ()⟩
  have accepts : session.createPhysicalExpr [filter] = .ok () := rfl
  obtain ⟨plan, rows, returned, read, same⟩ := scan_of_settled differ inColumns distinct noFeed
    maintains settled named stores compares accepts semantics
  rw [scan_of_no_match every] at returned
  cases returned
  cases read
  exact List.nil_perm.mp same

/-- The matches of the filter are what the index is asked for first. -/
theorem filterMatches_queryFilter {root : IndexRoot} {term : Str} {results : List FileMatches}
    (searched : ((IndexQueryEngine.new root).exactSearch root column term).1 = .ok results) :
    filterMatches root (.new root) (queryFilter column term) = results := by
  simp only [filterMatches, extractEqualityFilter_queryFilter, searched]

/-- The filter compares its column with a string, and no other column. -/
theorem comparesStrings_queryFilter {tree : FileTree} {term : Str} (inColumns : column ∈ columns)
    (utf8 : ∀ path ∈ tree.parquetEntries dataDir, ∀ file, tree.dataFile? path = some file →
      file.content.Utf8Column column) :
    ComparesStrings tree dataDir column columns [queryFilter column term] where
  within := by
    intro filter member other value equality
    rw [List.mem_singleton.mp member] at equality
    rcases equality with same | same
    · cases same
      exact inColumns
    · cases same
  utf8 := utf8
  equality := ⟨_, List.mem_singleton.mpr rfl, .utf8, some term, Or.inl rfl⟩
  literals := by
    intro filter member other value equality _
    rw [List.mem_singleton.mp member] at equality
    rcases equality with same | same
    · cases same
      exact ⟨.utf8, some term, rfl⟩
    · cases same

/-- A directory whose schema can be inferred has a file. -/
theorem exists_file_of_inferred {S : Type} {schemaOf : ParquetFile → S}
    {tryMerge : S → S → Option S} {tree : FileTree} {schema : S}
    (inferred : PdqTableProvider.inferSchemaFromDirectory schemaOf tryMerge tree dataDir =
      .ok schema) : ∃ path, path ∈ tree.parquetEntries dataDir := by
  refine List.exists_mem_of_ne_nil _ fun none => ?_
  rw [PdqTableProvider.inferSchemaFromDirectory, none] at inferred
  cases inferred

end Life

/-! ## A moved file -/

/-- The index of a file that was moved since, without `--prune`. -/
def movedWorld : World := ⟨singleTree movedPath alice, singleRoot samplePath alice sampleColumn⟩

def movedRoot : IndexRoot := movedWorld.root.indexed movedPath alice sampleColumn

theorem noFeed_moved : ∀ path ∈ ({samplePath, movedPath} : Set Path), ¬ '\n' ∈ path := by
  rintro path (rfl | rfl) <;> decide

theorem walk_moved : movedWorld.tree.parquetEntries sampleDir = [movedPath] := rfl

theorem visited_moved :
    ∀ path ∈ movedWorld.tree.parquetEntries sampleDir,
      path ∈ ({samplePath, movedPath} : Set Path) := by
  intro path inWalk
  rw [walk_moved] at inWalk
  exact Or.inr (List.mem_singleton.mp inWalk)

theorem readable_moved : ∀ path ∈ movedWorld.tree.parquetEntries sampleDir,
    ∃ file, movedWorld.tree.dataFile? path = some file := by
  intro path inWalk
  rw [walk_moved] at inWalk
  exact ⟨alice, by rw [List.mem_singleton.mp inWalk]; exact dataFile_singleTree _ _⟩

theorem gone_moved : ∀ path ∈ ({samplePath, movedPath} : Set Path),
    movedWorld.root.lookup (sampleHash path) ≠ none →
      ¬ path ∈ movedWorld.tree.parquetEntries sampleDir →
        movedWorld.tree.canonicalize path = none := by
  rintro path (rfl | rfl) present outside
  · decide
  · exact absurd (by rw [walk_moved]; exact List.mem_singleton_self _) outside

theorem movesAlone_moved :
    MovesAlone sampleHash personColumns movedWorld sampleDir sampleColumn := by
  refine ⟨Or.inl rfl, fun path inWalk => ?_⟩
  rw [walk_moved] at inWalk
  rw [List.mem_singleton.mp inWalk]
  exact ⟨by decide, fun _ _ => Or.inr fun other _ _ => IndexDir.fst_empty other⟩

theorem stores_moved : ∀ path ∈ movedWorld.tree.parquetEntries sampleDir,
    movedWorld.tree.Stores path := by
  intro path inWalk canonicalPath resolved
  have itself : movedWorld.tree.canonicalize movedPath = some movedPath := rfl
  have kept : ∀ c ∈ movedPath, keptInLocation c = true :=
    List.all_eq_true.mp (by decide)
  rw [walk_moved] at inWalk
  rw [List.mem_singleton.mp inWalk, itself] at resolved
  obtain rfl : movedPath = canonicalPath := Option.some.inj resolved
  exact ⟨rfl, kept⟩

theorem index_moved :
    indexCommand sampleHash movedWorld.tree movedWorld.root false sampleDir sampleColumn =
      .ok movedRoot := by
  have needed : needsIndexing sampleHash (singleTree movedPath alice)
      (singleRoot samplePath alice sampleColumn) movedPath sampleColumn = .ok true := rfl
  rw [indexCommand_false]
  exact buildIndex_single named_sampleColumn walk_moved needed

theorem reached_moved :
    (cli sampleHash personHistory {samplePath, movedPath} personColumns).Reaches
      [.indexed false sampleDir sampleColumn, .changed movedWorld.tree] movedWorld := by
  have started : (cli sampleHash personHistory {samplePath, movedPath} personColumns).start
      ⟨singleTree samplePath alice, ∅⟩ := ⟨known_singleTree (Or.inl rfl), rfl⟩
  have first : CliStep sampleHash personHistory {samplePath, movedPath} personColumns
      ⟨singleTree samplePath alice, ∅⟩ (.indexed false sampleDir sampleColumn)
      ⟨singleTree samplePath alice, singleRoot samplePath alice sampleColumn⟩ :=
    .index (fun path inWalk => Or.inl (visited_sample alice path inWalk)) (movesAlone_empty alice)
      (buildIndex_single named_sampleColumn (parquetEntries_sample alice) rfl)
  have moved : CliStep sampleHash personHistory {samplePath, movedPath} personColumns
      ⟨singleTree samplePath alice, singleRoot samplePath alice sampleColumn⟩
      (.changed movedWorld.tree) movedWorld :=
    .change (known_singleTree (Or.inl rfl))
  exact ((Machine.Reaches.start started).step first).step moved

theorem utf8_moved : ∀ path ∈ movedWorld.tree.parquetEntries sampleDir, ∀ file,
    movedWorld.tree.dataFile? path = some file → file.content.Utf8Column sampleColumn := by
  intro path inWalk file found
  rw [walk_moved] at inWalk
  rw [List.mem_singleton.mp inWalk] at found
  cases (dataFile_singleTree movedPath alice).symm.trans found
  have held : alice.content.HoldsValue sampleColumn 0 "alice".toList := by decide
  exact utf8Column_of_holdsValue held

/-- A DataFusion that plans the texts that are a comparison. -/
def sampleDataFusion : DataFusion (List Column) where
  session := acceptsAll
  semantics := equalitySemantics
  filters _ text := (denotes asciiDialect text).map fun filter => [filter]

end Pdq
