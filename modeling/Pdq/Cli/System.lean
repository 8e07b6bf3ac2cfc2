/- Pdq.Cli.System -- the program over a life of its index.

Data files come, change and go; `pdq index` runs, with or without `--prune`;
`pdq search` answers, each time with a new engine.  What a user sees of this is a
trace of events.  Every trace is one of a catalogue that knows for each path and
column what was last indexed, and answers by reading all of it
(`system_refines`): no search fails, and none tells of a file that was pruned, of
a version that was replaced, or of fewer row groups than there are.  The columns of a
life have FST files of their own, and an index run by one of them moves alone. -/
import Pdq.Query.Maintained
import Pdq.Theory.Simulation

namespace Pdq

open Theory KeyFormat

set_option autoImplicit false

/-! ## Two machines -/

/-- What a user sees. -/
inductive Event where
  | changed (tree : FileTree)
  | indexed (prune : Bool) (dataDir : Path) (column : Column)
  | searched (column searchType term : Str)
      (answer : Except QueryError (Set (Path × Nat)))

section Machines

variable (calculateFileHash : Path → Str) (history : Path → Set FileTree.DataFile)
  (paths : Set Path) (columns : Set Column)

inductive CliStep : World → Event → World → Prop
  | change {world : World} {tree : FileTree} (known : Known history tree) :
      CliStep world (.changed tree) ⟨tree, world.root⟩
  | index {world : World} {prune : Bool} {dataDir : Path} {column : Column} {root : IndexRoot}
      (visited : ∀ path ∈ world.tree.parquetEntries dataDir, path ∈ paths)
      (may : MovesAlone calculateFileHash columns world dataDir column)
      (ok : indexCommand calculateFileHash world.tree world.root prune dataDir column = .ok root) :
      CliStep world (.indexed prune dataDir column) ⟨world.tree, root⟩
  | search {world : World} {column : Column} (inColumns : column ∈ columns)
      (opens : Opens column) {searchType term : Str} {request : SearchRequest}
      (asked : SearchRequest.ofCli searchType term = some request) (clean : request.Clean) :
      CliStep world (.searched column searchType term
        ((request.run world.root (.new world.root) column).1.map namedPairs)) world

/-- The program, from an empty index directory. -/
def cli : Machine World Event where
  start world := Known history world.tree ∧ world.root = ∅
  step := CliStep calculateFileHash history paths columns

end Machines

inductive CatalogueStep : Catalogue → Event → Catalogue → Prop
  | change (catalogue : Catalogue) (tree : FileTree) :
      CatalogueStep catalogue (.changed tree) ⟨tree, catalogue.snapshot⟩
  | index (catalogue : Catalogue) (prune : Bool) (dataDir : Path) (column : Column) :
      CatalogueStep catalogue (.indexed prune dataDir column)
        (catalogue.after prune dataDir column)
  | search (catalogue : Catalogue) (column : Column) {searchType term : Str}
      {request : SearchRequest} (asked : SearchRequest.ofCli searchType term = some request) :
      CatalogueStep catalogue
        (.searched column searchType term (.ok (catalogue.finds column request))) catalogue

def cataloguing : Machine Catalogue Event where
  start catalogue := ∃ tree, catalogue = .empty tree
  step := CatalogueStep

/-! ## The refinement -/

section Refines

variable {calculateFileHash : Path → Str} {history : Path → Set FileTree.DataFile}
  {paths : Set Path} {columns : Set Column}

/-- The program is simulated by the catalogue. -/
theorem cli_simulates (differ : StampsDiffer history) (own : OwnFiles columns)
    (distinct : Set.InjOn calculateFileHash paths) (noFeed : ∀ path ∈ paths, ¬ '\n' ∈ path)
    (nulFree : ∀ path, ∀ file ∈ history path, ∀ column ∈ columns, NulFree file.content column) :
    (cli calculateFileHash history paths columns).Simulates cataloguing
      (Maintains calculateFileHash history paths columns) := by
  constructor
  · rintro ⟨tree, root⟩ ⟨known, rfl⟩
    exact ⟨.empty tree, ⟨tree, rfl⟩, maintains_start known⟩
  · intro world catalogue event world' maintains step
    cases step with
    | @change tree known =>
        exact ⟨_, .change catalogue tree, maintains_change maintains known⟩
    | @index prune dataDir column root visited may ok =>
        exact ⟨_, .index catalogue prune dataDir column,
          maintains_indexCommand differ own distinct noFeed maintains visited may ok⟩
    | @search column inColumns opens searchType term request asked clean =>
        rw [search_of_maintains distinct noFeed
          (fun path file inHistory => nulFree path file inHistory column inColumns) maintains
          inColumns opens clean]
        exact ⟨_, .search catalogue column asked, maintains⟩

/-- Whatever the values are, the index of every state reached is that of some
catalogue. -/
theorem maintains_of_reaches (differ : StampsDiffer history) (own : OwnFiles columns)
    (distinct : Set.InjOn calculateFileHash paths) (noFeed : ∀ path ∈ paths, ¬ '\n' ∈ path)
    {trace : List Event} {world : World}
    (reached : (cli calculateFileHash history paths columns).Reaches trace world) :
    ∃ catalogue, Maintains calculateFileHash history paths columns world catalogue := by
  induction reached with
  | @start world starts =>
      obtain ⟨tree, root⟩ := world
      obtain ⟨known, rfl⟩ := starts
      exact ⟨_, maintains_start known⟩
  | step _ steps ih =>
      obtain ⟨catalogue, maintains⟩ := ih
      cases steps with
      | change known => exact ⟨_, maintains_change maintains known⟩
      | index visited may ok =>
          exact ⟨_, maintains_indexCommand differ own distinct noFeed maintains visited may ok⟩
      | search inColumns opens asked clean => exact ⟨catalogue, maintains⟩

/-- **Every trace of the program is a trace of the catalogue.** -/
theorem system_refines (differ : StampsDiffer history) (own : OwnFiles columns)
    (distinct : Set.InjOn calculateFileHash paths) (noFeed : ∀ path ∈ paths, ¬ '\n' ∈ path)
    (nulFree : ∀ path, ∀ file ∈ history path, ∀ column ∈ columns, NulFree file.content column)
    {trace : List Event} (traced : (cli calculateFileHash history paths columns).Traces trace) :
    cataloguing.Traces trace :=
  (cli_simulates differ own distinct noFeed nulFree).traces traced

end Refines

theorem nulFree_persons (path : Path) (file : FileTree.DataFile)
    (member : file ∈ personHistory path) (column : Column) (inColumns : column ∈ personColumns) :
    NulFree file.content column := by
  have persons : ∀ mtime name city, ¬ valueRgSeparator ∈ name → ¬ valueRgSeparator ∈ city →
      NulFree (personFile mtime name city).content column := by
    intro mtime name city cleanName cleanCity g v holds
    rcases inColumns with rfl | rfl
    · obtain ⟨values, position, rfl⟩ := holdsValue_pairFile.mp holds
      rw [List.mem_singleton.mp (List.mem_of_getElem? position)]
      exact cleanName
    · obtain ⟨values, position, rfl⟩ := (holdsValue_pairFile_ne (by decide)).mp holds
      rw [List.mem_singleton.mp (List.mem_of_getElem? position)]
      exact cleanCity
  rcases member with rfl | rfl
  · exact persons _ _ _ (by decide) (by decide)
  · exact persons _ _ _ (by decide) (by decide)

/-- Indexed, rewritten, indexed again and searched. -/
theorem system_refines_sample :
    ∃ answer, cataloguing.Traces [.indexed true sampleDir sampleColumn,
      .changed (singleTree samplePath bob), .indexed false sampleDir sampleColumn,
      .searched sampleColumn "prefix".toList "bo".toList answer] := by
  have first : CliStep sampleHash personHistory {samplePath} personColumns
      ⟨singleTree samplePath alice, ∅⟩
      (.indexed true sampleDir sampleColumn)
      ⟨singleTree samplePath alice, .indexed ∅ samplePath alice sampleColumn⟩ :=
    .index (visited_sample alice) (movesAlone_empty alice)
      (buildIndex_single named_sampleColumn (parquetEntries_sample alice) rfl)
  have may : MovesAlone sampleHash personColumns ⟨singleTree samplePath bob,
      .indexed ∅ samplePath alice sampleColumn⟩ sampleDir sampleColumn := by
    refine ⟨Or.inl rfl, fun path member => ?_⟩
    rw [List.mem_singleton.mp member]
    refine ⟨by decide, fun _ _ => Or.inr fun other inColumns ne => ?_⟩
    exact singleRoot_fst_ne (ownFiles_person.ne (Or.inl rfl) inColumns named_sampleColumn ne) _
  have second : CliStep sampleHash personHistory {samplePath} personColumns
      ⟨singleTree samplePath bob, .indexed ∅ samplePath alice sampleColumn⟩
      (.indexed false sampleDir sampleColumn)
      ⟨singleTree samplePath bob,
        .indexed (.indexed ∅ samplePath alice sampleColumn) samplePath bob sampleColumn⟩ :=
    .index (visited_sample bob) may
      (buildIndex_single named_sampleColumn (parquetEntries_sample bob) rfl)
  have clean : (SearchRequest.startsWith "bo".toList).Clean := ⟨by decide, by decide, by decide⟩
  have started : (cli sampleHash personHistory {samplePath} personColumns).start
      ⟨singleTree samplePath alice, ∅⟩ := ⟨known_singleTree (Or.inl rfl), rfl⟩
  have reached :=
    (((Machine.Reaches.start started).step first).step (.change known_bob)).step second
  exact ⟨_, system_refines personHistory_differ ownFiles_person (Set.injOn_singleton _ _)
    (fun path member => by rw [Set.mem_singleton_iff.mp member]; decide) nulFree_persons
    ⟨_, reached.step (.search (Or.inl rfl) (by decide) rfl clean)⟩⟩

end Pdq
