/- Pdq.Python.Session -- a Python program beside its index.

The module has three classes: an Indexer adds to an index directory, a Searcher and
a QueryEngine are made over one and keep what they listed and loaded.  While data
files only come, every session of any number of handles is one of an oracle without
caches (`session_refines`): each handle answers for the files that were on record when
it was made, by every column indexed since, and no call on a handle fails.  The columns have
FST files of their own, and the store keeps the paths of the files. -/
import Pdq.Cli.QueryText
import Pdq.Provider.Handle
import Pdq.Provider.LongLived
import Pdq.Provider.Table
import Pdq.Theory.Simulation

namespace Pdq

open Theory

set_option autoImplicit false

namespace Python

/-! ## The classes -/

inductive SearcherError where
  /-- `Search failed` -/
  | search (error : QueryError)
  /-- `Arrow conversion failed` -/
  | arrow
  deriving DecidableEq, Repr

/-- The columns `file_path` and `row_group`, as they grow. -/
structure MatchColumns where
  filePaths : List Path
  rowGroups : List Nat

namespace MatchColumns

/-- The loop over the row groups of one match. -/
def push (columns : MatchColumns) (fileMatch : FileMatches) : MatchColumns :=
  fileMatch.rowGroups.foldl (fun columns rowGroup =>
    ⟨columns.filePaths ++ [fileMatch.filePath], columns.rowGroups ++ [rowGroup]⟩) columns

/-- `RecordBatch::try_new`, which refuses columns of two lengths; the rows it makes. -/
def tryNew (columns : MatchColumns) : Except SearcherError (List (Path × Nat)) :=
  if columns.filePaths.length = columns.rowGroups.length then
    .ok (columns.filePaths.zip columns.rowGroups)
  else .error .arrow

end MatchColumns

/-- `Searcher::matches_to_record_batch` -/
def matchesToRecordBatch (fileMatches : List FileMatches) :
    Except SearcherError (List (Path × Nat)) :=
  (fileMatches.foldl MatchColumns.push ⟨[], []⟩).tryNew

structure Searcher where
  inner : IndexQueryEngine

namespace Searcher

def new (root : IndexRoot) : Searcher := ⟨.new root⟩

/-- `exact_search`, `prefix_search` and `range_search` of a Searcher -/
def search (root : IndexRoot) (searcher : Searcher) (column : Column) (request : SearchRequest) :
    Except SearcherError (List (Path × Nat)) × Searcher :=
  let found := request.run root searcher.inner column
  let batch := do
    let results ← found.1.mapError SearcherError.search
    matchesToRecordBatch results
  (batch, ⟨found.2⟩)

end Searcher

/-- What the QueryEngine has of DataFusion, over tables with a schema. -/
structure DataFrames (S : Type) where
  session : S → Session
  semantics : FilterSemantics
  /-- The filters a scan of the table gets when its frame is filtered by
  `col(&column).eq(lit(term))`; `none` when that is not planned. -/
  filters : S → Column → Str → Option (List Expr)

/-- For a column of the table whose text `col` takes for its name, the comparison with a
string is planned as it is. -/
structure DataFrames.Plans {S : Type} (frames : DataFrames S) (hasColumn : S → Column → Prop) :
    Prop where
  filters : ∀ schema column term, hasColumn schema column →
    frames.filters schema column term = some [queryFilter column term]
  accepts : ∀ schema column term, hasColumn schema column →
    (frames.session schema).createPhysicalExpr [queryFilter column term] = .ok ()

inductive QueryEngineError where
  /-- `Failed to build filter` -/
  | filter
  /-- `Query execution failed`, before a file is opened -/
  | execution (error : PlanError)
  /-- `Query execution failed`, on a file -/
  | reading (error : ReadError)
  deriving DecidableEq, Repr

/-- The provider is the table `pdq_data` of its context. -/
structure QueryEngine (S : Type) where
  provider : PdqTableProvider S

namespace QueryEngine

variable {S : Type}

/-- `QueryEngine::new` -/
def new (schemaOf : ParquetFile → S) (tryMerge : S → S → Option S) (tree : FileTree)
    (root : IndexRoot) (dataDir : Path) : Except (TableError S) (QueryEngine S) := do
  let tableProvider ← PdqTableProvider.new schemaOf tryMerge tree (.new root) dataDir
  return ⟨tableProvider⟩

/-- `QueryEngine::query`: the rows of the batches it returns, `None` standing for no
row. -/
def query (frames : DataFrames S) (calculateFileHash : Path → Str) (tree : FileTree)
    (root : IndexRoot) (engine : QueryEngine S) (column : Column) (term : Str) :
    Except QueryEngineError (List Row) × QueryEngine S :=
  match frames.filters engine.provider.schema column term with
  | none => (.error .filter, engine)
  | some filters =>
      let scanned := engine.provider.scan calculateFileHash frames.session tree root filters
      let rows := do
        let plan ← scanned.1.mapError QueryEngineError.execution
        let read ← (collect tree plan).mapError QueryEngineError.reading
        return read.filter (satisfiesAll frames.semantics.holds filters)
      (rows, ⟨{ engine.provider with indexEngine := scanned.2 }⟩)

end QueryEngine

/-! ## One call -/

theorem push_eq (columns : MatchColumns) (fileMatch : FileMatches) :
    columns.push fileMatch =
      ⟨columns.filePaths ++ fileMatch.rowGroups.map fun _ => fileMatch.filePath,
        columns.rowGroups ++ fileMatch.rowGroups⟩ := by
  unfold MatchColumns.push
  induction fileMatch.rowGroups generalizing columns with
  | nil => simp
  | cons g rest ih => rw [List.foldl_cons, ih]; simp

/-- **The conversion never fails**: the columns have one length, and give the report row
by row. -/
theorem matchesToRecordBatch_eq (fileMatches : List FileMatches) :
    matchesToRecordBatch fileMatches = .ok (matchRows fileMatches) := by
  have loop : ∀ columns : MatchColumns, columns.filePaths.length = columns.rowGroups.length →
      (fileMatches.foldl MatchColumns.push columns).tryNew =
        .ok (columns.filePaths.zip columns.rowGroups ++ matchRows fileMatches) := by
    induction fileMatches with
    | nil =>
        intro columns same
        simp [MatchColumns.tryNew, same, matchRows]
    | cons fileMatch rest ih =>
        intro columns same
        have added : (fileMatch.rowGroups.map fun _ => fileMatch.filePath).zip
            fileMatch.rowGroups = fileMatch.rowGroups.map fun g => (fileMatch.filePath, g) := by
          simpa using List.zip_map' (l := fileMatch.rowGroups) (f := fun _ => fileMatch.filePath)
            (g := id)
        rw [List.foldl_cons, push_eq, ih _ (by simp [same]), List.zip_append same, added,
          List.append_assoc]
        rfl
  exact loop ⟨[], []⟩ rfl

section Calls

variable {calculateFileHash : Path → Str} {tree : FileTree} {known : Set Path}
  {columns : Set Column} {indexed : Path → Column → Prop} {root : IndexRoot} {column : Column}

theorem search_loads (root : IndexRoot) (searcher : Searcher) (column : Column)
    (request : SearchRequest) :
    IndexQueryEngine.Loads root searcher.inner
      (searcher.search root column request).2.inner :=
  SearchRequest.run_loads root searcher.inner column request

/-- **A search with a Searcher** returns the row groups of the files it knows, each
once. -/
theorem search_of_knows {searcher : Searcher}
    (knows : Knows calculateFileHash tree columns indexed known root searcher.inner)
    (inColumns : column ∈ columns) (opens : Opens column)
    (nulFree : ∀ path ∈ known, indexed path column → ∀ file, tree.dataFile? path = some file →
      NulFree file.content column) {request : SearchRequest} (clean : request.Clean) :
    ∃ rows, (searcher.search root column request).1 = .ok rows ∧ rows.Nodup ∧
      ∀ path g, (path, g) ∈ rows ↔ path ∈ known ∧ indexed path column ∧
        ∃ file, tree.dataFile? path = some file ∧
          ∃ v, file.content.HoldsValue column g v ∧ request.selects v = true := by
  obtain ⟨results, found, once, members⟩ := knows.search inColumns opens nulFree clean
  refine ⟨matchRows results, ?_, once, members⟩
  simp only [Searcher.search, found, Except.mapError, bind, Except.bind, matchesToRecordBatch_eq]

variable {S : Type} {frames : DataFrames S} {engine : QueryEngine S}

/-- A query only loads FSTs, and leaves the schema. -/
theorem query_loads (frames : DataFrames S) (calculateFileHash : Path → Str) (tree : FileTree)
    (root : IndexRoot) (engine : QueryEngine S) (column : Column) (term : Str) :
    IndexQueryEngine.Loads root engine.provider.indexEngine
        (engine.query frames calculateFileHash tree root column term).2.provider.indexEngine ∧
      (engine.query frames calculateFileHash tree root column term).2.provider.schema =
        engine.provider.schema := by
  unfold QueryEngine.query
  split
  · exact ⟨.refl root _, rfl⟩
  · exact ⟨scan_loads calculateFileHash (frames.session engine.provider.schema) tree root _ _, rfl⟩

/-- **A query with a QueryEngine** returns the rows with the term of the files it knows
that are indexed by the column. -/
theorem query_of_knows {hasColumn : S → Column → Prop} (plans : frames.Plans hasColumn)
    (knows : Knows calculateFileHash tree columns indexed known root engine.provider.indexEngine)
    (inColumns : column ∈ columns) (stores : ∀ path ∈ known, tree.Stores path)
    (typed : ∀ path ∈ known, indexed path column → ∀ file, tree.dataFile? path = some file →
      file.content.Utf8Column column)
    (has : hasColumn engine.provider.schema column) (term : Str) :
    ∃ rows, (engine.query frames calculateFileHash tree root column term).1 = .ok rows ∧
      ∃ files : List Path, files.Nodup ∧
        (∀ path, path ∈ files ↔ path ∈ known ∧ indexed path column) ∧
        rows.Perm ((files.flatMap (rowsAt tree)).filter
          (frames.semantics.holds (queryFilter column term))) := by
  have planned := plans.filters engine.provider.schema column term has
  have accepts := plans.accepts engine.provider.schema column term has
  have equality : (queryFilter column term).IsEquality column (.string .utf8 (some term)) :=
    Or.inl rfl
  obtain ⟨plan, read, returned, collected, files, nodup, listed, same⟩ :=
    knows.scan inColumns equality stores typed accepts frames.semantics
  have scanned : (engine.provider.scan calculateFileHash frames.session tree root
      [queryFilter column term]).1 = .ok plan := returned
  refine ⟨_, ?_, files, nodup, listed, same⟩
  simp only [QueryEngine.query, planned, scanned, collected, Except.mapError, bind, Except.bind,
    pure, Except.pure, satisfiesAll_singleton]

end Calls

/-! ## Sessions -/

/-- What a program sees; handles have names. -/
inductive Call (H : Type) where
  | filesCame (tree : FileTree)
  | buildIndex (dataDir : Path) (column : Column)
  | newSearcher (h : H)
  | search (h : H) (column : Column) (request : SearchRequest)
      (answer : Except SearcherError (List (Path × Nat)))
  | newQueryEngine (h : H) (dataDir : Path)
  | query (h : H) (column : Column) (term : Str) (answer : Except QueryEngineError (List Row))

structure Interpreter (H S : Type) where
  tree : FileTree
  root : IndexRoot
  searchers : H → Option Searcher
  queryEngines : H → Option (QueryEngine S)

/-- The data files of these paths stay as they are. -/
def Stay (paths : Set Path) (tree tree' : FileTree) : Prop :=
  ∀ path ∈ paths, ∀ file, tree.dataFile? path = some file → tree'.dataFile? path = some file

section Machine

variable {H S : Type} [DecidableEq H] (calculateFileHash : Path → Str) (paths : Set Path)
  (columns : Set Column) (schemaOf : ParquetFile → S) (tryMerge : S → S → Option S)
  (frames : DataFrames S)

/-- Calls on handles, whatever they answer, and builds and new handles that return. -/
inductive Step : Interpreter H S → Call H → Interpreter H S → Prop
  | filesCame {s : Interpreter H S} {tree : FileTree} (stay : Stay paths s.tree tree) :
      Step s (.filesCame tree) { s with tree := tree }
  | buildIndex {s : Interpreter H S} {dataDir : Path} {column : Column} {root : IndexRoot}
      (inColumns : column ∈ columns)
      (walked : ∀ path ∈ s.tree.parquetEntries dataDir, path ∈ paths)
      (ok : buildIndex calculateFileHash s.tree s.root dataDir column = .ok root) :
      Step s (.buildIndex dataDir column) { s with root := root }
  | newSearcher (s : Interpreter H S) (h : H) :
      Step s (.newSearcher h)
        { s with searchers := Function.update s.searchers h (some (.new s.root)) }
  | search {s : Interpreter H S} {h : H} {searcher : Searcher} {column : Column}
      (inColumns : column ∈ columns) (request : SearchRequest)
      (made : s.searchers h = some searcher) :
      Step s (.search h column request (searcher.search s.root column request).1)
        { s with
          searchers := Function.update s.searchers h
            (some (searcher.search s.root column request).2) }
  | newQueryEngine {s : Interpreter H S} (h : H) {dataDir : Path} {engine : QueryEngine S}
      (ok : QueryEngine.new schemaOf tryMerge s.tree s.root dataDir = .ok engine) :
      Step s (.newQueryEngine h dataDir)
        { s with queryEngines := Function.update s.queryEngines h (some engine) }
  | query {s : Interpreter H S} {h : H} {engine : QueryEngine S} {column : Column}
      (inColumns : column ∈ columns) (term : Str) (made : s.queryEngines h = some engine) :
      Step s (.query h column term
          (engine.query frames calculateFileHash s.tree s.root column term).1)
        { s with
          queryEngines := Function.update s.queryEngines h
            (some (engine.query frames calculateFileHash s.tree s.root column term).2) }

/-- A program that starts without an index and without handles. -/
def interpreter : Machine (Interpreter H S) (Call H) where
  start s := s.root = ∅ ∧ s.searchers = (fun _ => none) ∧ s.queryEngines = fun _ => none
  step := Step calculateFileHash paths columns schemaOf tryMerge frames

end Machine

/-- The files, by which columns each is indexed, and which of them a handle knows; a
QueryEngine has a schema besides. -/
structure Oracle (H S : Type) where
  tree : FileTree
  indexed : Path → Column → Prop
  searchers : H → Option (Set Path)
  queryEngines : H → Option (S × Set Path)

namespace Oracle

variable {H S : Type}

/-- The files that are indexed by some column. -/
def known (o : Oracle H S) : Set Path := {path | ∃ column, o.indexed path column}

/-- Every file that is indexed by the column is such a file. -/
def EveryIndexed (o : Oracle H S) (column : Column) (such : ParquetFile → Column → Prop) : Prop :=
  ∀ path file, o.indexed path column → o.tree.dataFile? path = some file → such file.content column

/-- The rows are the row groups that the search is meant to find, each once. -/
def Finds (o : Oracle H S) (known : Set Path) (column : Column) (request : SearchRequest)
    (rows : List (Path × Nat)) : Prop :=
  rows.Nodup ∧ ∀ path g, (path, g) ∈ rows ↔ path ∈ known ∧ o.indexed path column ∧
    ∃ file, o.tree.dataFile? path = some file ∧
      ∃ v, file.content.HoldsValue column g v ∧ request.selects v = true

/-- The rows are those with the term, of all the files. -/
def Reads (o : Oracle H S) (semantics : FilterSemantics) (known : Set Path) (column : Column)
    (term : Str) (rows : List Row) : Prop :=
  ∃ files : List Path, files.Nodup ∧
    (∀ path, path ∈ files ↔ path ∈ known ∧ o.indexed path column) ∧
    rows.Perm ((files.flatMap (rowsAt o.tree)).filter
      (semantics.holds (queryFilter column term)))

end Oracle

section OracleMachine

variable {H S : Type} [DecidableEq H] (schemaOf : ParquetFile → S) (tryMerge : S → S → Option S)
  (semantics : FilterSemantics) (hasColumn : S → Column → Prop)

/-- An answer is promised to a clean search by a column without NUL whose name opens, and
to a query by a column of strings that the table has and `col` names, of files the store
keeps. -/
inductive OracleStep : Oracle H S → Call H → Oracle H S → Prop
  | filesCame (o : Oracle H S) (tree : FileTree) :
      OracleStep o (.filesCame tree) { o with tree := tree }
  | buildIndex (o : Oracle H S) (dataDir : Path) (column : Column) :
      OracleStep o (.buildIndex dataDir column)
        { o with
          indexed := fun p c =>
            o.indexed p c ∨ p ∈ o.tree.parquetEntries dataDir ∧ c = column }
  | newSearcher (o : Oracle H S) (h : H) :
      OracleStep o (.newSearcher h)
        { o with searchers := Function.update o.searchers h (some o.known) }
  | search {o : Oracle H S} {h : H} {known : Set Path} {column : Column}
      {request : SearchRequest} {answer : Except SearcherError (List (Path × Nat))}
      (made : o.searchers h = some known)
      (promised : Opens column → request.Clean → o.EveryIndexed column NulFree →
        ∃ rows, answer = .ok rows ∧ o.Finds known column request rows) :
      OracleStep o (.search h column request answer) o
  | newQueryEngine (o : Oracle H S) (h : H) {dataDir : Path} {schema : S}
      (inferred : PdqTableProvider.inferSchemaFromDirectory schemaOf tryMerge o.tree dataDir =
        .ok schema) :
      OracleStep o (.newQueryEngine h dataDir)
        { o with queryEngines := Function.update o.queryEngines h (some (schema, o.known)) }
  | query {o : Oracle H S} {h : H} {schema : S} {known : Set Path} {column : Column} {term : Str}
      {answer : Except QueryEngineError (List Row)} (made : o.queryEngines h = some (schema, known))
      (promised : hasColumn schema column → o.EveryIndexed column ParquetFile.Utf8Column →
        (∀ path ∈ known, o.tree.Stores path) →
        ∃ rows, answer = .ok rows ∧ o.Reads semantics known column term rows) :
      OracleStep o (.query h column term answer) o

def oracle : Machine (Oracle H S) (Call H) where
  start o := o.indexed = (fun _ _ => False) ∧ o.searchers = (fun _ => none) ∧
    o.queryEngines = fun _ => none
  step := OracleStep schemaOf tryMerge semantics hasColumn

end OracleMachine

/-! ## The refinement -/

section Refines

set_option linter.unusedSectionVars false

variable {H S : Type} [DecidableEq H] {calculateFileHash : Path → Str} {paths : Set Path}
  {columns : Set Column} {schemaOf : ParquetFile → S} {tryMerge : S → S → Option S}
  {frames : DataFrames S} {hasColumn : S → Column → Prop} {s s' : Interpreter H S}
  {o : Oracle H S}

/-- Handles that are related stay so when one of them is replaced by a related one. -/
theorem rel_update {A B : Type} {related : A → B → Prop} {l : H → Option A} {r : H → Option B}
    (all : ∀ h, Option.Rel related (l h) (r h)) (h : H) {a : Option A} {b : Option B}
    (one : Option.Rel related a b) (h' : H) :
    Option.Rel related (Function.update l h a h') (Function.update r h b h') := by
  by_cases same : h' = h
  · subst same
    rwa [Function.update_self, Function.update_self]
  · rw [Function.update_of_ne same, Function.update_of_ne same]
    exact all h'

theorem rel_some {A B : Type} {related : A → B → Prop} {l : Option A} {r : Option B} {a : A}
    (rel : Option.Rel related l r) (made : l = some a) : ∃ b, r = some b ∧ related a b := by
  subst made
  cases rel with
  | some held => exact ⟨_, rfl, held⟩

theorem rel_imp {A B : Type} {related related' : A → B → Prop} {l : Option A} {r : Option B}
    (rel : Option.Rel related l r) (imp : ∀ a b, related a b → related' a b) :
    Option.Rel related' l r := by
  cases rel with
  | some held => exact .some (imp _ _ held)
  | none => exact .none

/-- An engine knows what the oracle says it knows. -/
def Follows (calculateFileHash : Path → Str) (paths : Set Path) (columns : Set Column)
    (tree : FileTree) (root : IndexRoot) (indexed : Path → Column → Prop)
    (engine : IndexQueryEngine) (known : Set Path) : Prop :=
  known ⊆ paths ∧ Knows calculateFileHash tree columns indexed known root engine

/-- The interpreter is as the oracle describes it. -/
structure Shows (calculateFileHash : Path → Str) (paths : Set Path) (columns : Set Column)
    (s : Interpreter H S) (o : Oracle H S) : Prop where
  tree : s.tree = o.tree
  leaves : Leaves calculateFileHash s.tree paths o.indexed s.root
  within : ∀ path column, o.indexed path column → column ∈ columns
  searchers : ∀ h, Option.Rel (fun searcher known =>
    Follows calculateFileHash paths columns s.tree s.root o.indexed searcher.inner known)
      (s.searchers h) (o.searchers h)
  queryEngines : ∀ h, Option.Rel (fun engine table => engine.provider.schema = table.1 ∧
    Follows calculateFileHash paths columns s.tree s.root o.indexed engine.provider.indexEngine
      table.2)
      (s.queryEngines h) (o.queryEngines h)

/-- **What was added leaves every handle as the oracle describes it.** -/
theorem Shows.later (own : OwnFiles columns)
    (shows : Shows calculateFileHash paths columns s o) {tree : FileTree} {root : IndexRoot}
    {indexed : Path → Column → Prop} (stay : Stay paths s.tree tree)
    (more : ∀ path column, o.indexed path column → indexed path column)
    (leaves : Leaves calculateFileHash tree paths indexed root)
    (within : ∀ path column, indexed path column → column ∈ columns) :
    Shows calculateFileHash paths columns { s with tree := tree, root := root }
      { o with tree := tree, indexed := indexed } := by
  have follows : ∀ engine known,
      Follows calculateFileHash paths columns s.tree s.root o.indexed engine known →
        Follows calculateFileHash paths columns tree root indexed engine known := by
    rintro engine known ⟨inside, knows⟩
    exact ⟨inside, knows.later own inside
      (fun path member file found => stay path (inside member) file found) more leaves within⟩
  exact ⟨rfl, leaves, within, fun h => rel_imp (shows.searchers h) fun _ _ => follows _ _,
    fun h => rel_imp (shows.queryEngines h) fun _ _ both => ⟨both.1, follows _ _ both.2⟩⟩

theorem leaves_of_stay {tree tree' : FileTree} {root : IndexRoot}
    {indexed : Path → Column → Prop} (stay : Stay paths tree tree')
    (leaves : Leaves calculateFileHash tree paths indexed root) :
    Leaves calculateFileHash tree' paths indexed root where
  inside := leaves.inside
  covered path column visit := by
    obtain ⟨file, found, rest⟩ := leaves.covered path column visit
    exact ⟨file, stay path (leaves.inside path column visit) file found, rest⟩
  noOther := leaves.noOther
  present := leaves.present

/-- A new engine knows what is indexed. -/
theorem Shows.follows_new (own : OwnFiles columns) (oneLine : ∀ path ∈ paths, OneLine path)
    (shows : Shows calculateFileHash paths columns s o) :
    Follows calculateFileHash paths columns s.tree s.root o.indexed (.new s.root) o.known := by
  refine ⟨?_, knows_new own oneLine shows.leaves shows.within⟩
  rintro path ⟨column, visit⟩
  exact shows.leaves.inside path column visit

/-- **One call**: the oracle makes the same, and describes what comes of it. -/
theorem simulates_step (own : OwnFiles columns) (distinct : Set.InjOn calculateFileHash paths)
    (oneLine : ∀ path ∈ paths, OneLine path) (plans : frames.Plans hasColumn) {call : Call H}
    (shows : Shows calculateFileHash paths columns s o)
    (step : Step calculateFileHash paths columns schemaOf tryMerge frames s call s') :
    ∃ o', OracleStep schemaOf tryMerge frames.semantics hasColumn o call o' ∧
      Shows calculateFileHash paths columns s' o' := by
  obtain ⟨tree, root, searchers, queryEngines⟩ := s
  obtain ⟨_, indexed, searchKnown, queryKnown⟩ := o
  obtain rfl : tree = _ := shows.tree
  cases step with
  | @filesCame tree' stay =>
      exact ⟨_, .filesCame _ tree', shows.later own stay (fun _ _ visit => visit)
        (leaves_of_stay stay shows.leaves) shows.within⟩
  | @buildIndex dataDir column root' inColumns walked ok =>
      refine ⟨_, .buildIndex _ dataDir column, shows.later own (fun _ _ _ found => found)
        (fun _ _ => Or.inl) (shows.leaves.build own distinct shows.within
          (fun path inWalk => ⟨walked path inWalk, inColumns⟩) ok) ?_⟩
      rintro path other (visit | ⟨-, rfl⟩)
      · exact shows.within path other visit
      · exact inColumns
  | newSearcher h =>
      exact ⟨_, .newSearcher _ h, rfl, shows.leaves, shows.within,
        rel_update shows.searchers h (.some (shows.follows_new own oneLine)), shows.queryEngines⟩
  | @search h searcher column inColumns request made =>
      obtain ⟨known, sameKnown, inside, knows⟩ := rel_some (shows.searchers h) made
      refine ⟨_, .search sameKnown fun opens clean nulFree => ?_, rfl, shows.leaves,
        shows.within, ?_, shows.queryEngines⟩
      · exact search_of_knows knows inColumns opens
          (fun path _ visit file => nulFree path file visit) clean
      · have followed := rel_update shows.searchers h
          (.some ⟨inside, knows.loads (search_loads root searcher column request)⟩)
        rwa [← sameKnown, Function.update_eq_self] at followed
  | @newQueryEngine h dataDir engine ok =>
      obtain ⟨provider, made, ok⟩ := bind_eq_ok_iff.mp ok
      obtain ⟨schema, inferred, made⟩ := bind_eq_ok_iff.mp made
      cases made
      cases ok
      exact ⟨_, .newQueryEngine _ h inferred, rfl, shows.leaves, shows.within, shows.searchers,
        rel_update shows.queryEngines h (.some ⟨rfl, shows.follows_new own oneLine⟩)⟩
  | @query h engine column inColumns term made =>
      obtain ⟨⟨schema, known⟩, sameKnown, rfl, inside, knows⟩ :=
        rel_some (shows.queryEngines h) made
      refine ⟨_, .query sameKnown fun has typed stores => ?_, rfl, shows.leaves, shows.within,
        shows.searchers, ?_⟩
      · exact query_of_knows plans knows inColumns stores
          (fun path _ visit file => typed path file visit) has term
      · obtain ⟨loads, sameSchema⟩ := query_loads frames calculateFileHash tree root engine column
          term
        have followed := rel_update shows.queryEngines h
          (.some ⟨sameSchema, inside, knows.loads loads⟩)
        rwa [← sameKnown, Function.update_eq_self] at followed

/-- The interpreter is simulated by the oracle. -/
theorem interpreter_simulates (own : OwnFiles columns)
    (distinct : Set.InjOn calculateFileHash paths) (oneLine : ∀ path ∈ paths, OneLine path)
    (plans : frames.Plans hasColumn) :
    (interpreter (H := H) calculateFileHash paths columns schemaOf tryMerge frames).Simulates
      (oracle schemaOf tryMerge frames.semantics hasColumn)
      (Shows calculateFileHash paths columns) where
  start := by
    rintro ⟨tree, root, searchers, queryEngines⟩ ⟨rfl, rfl, rfl⟩
    exact ⟨⟨tree, fun _ _ => False, fun _ => none, fun _ => none⟩, ⟨rfl, rfl, rfl⟩, rfl,
      leaves_empty calculateFileHash tree paths, fun _ _ none => none.elim, fun _ => .none,
      fun _ => .none⟩
  step _ _ _ _ shows steps := simulates_step own distinct oneLine plans shows steps

end Refines

/-! ## A sample session -/

/-- A DataFusion that plans every filter. -/
def sampleFrames : DataFrames (List Column) where
  session := acceptsAll
  semantics := equalitySemantics
  filters _ column term := some [queryFilter column term]

theorem plans_sampleFrames : sampleFrames.Plans fun schema column => column ∈ schema where
  filters _ _ _ _ := rfl
  accepts _ _ _ _ := rfl

end Python

end Pdq
