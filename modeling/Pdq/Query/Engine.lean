/- Pdq.Query.Engine -- the query engine over an index directory.

The engine reads every metadata.txt once, when it is made, and every FST at its
first lookup; what it has read it keeps.  A missing FST is no error, a name that
`File::open` refuses is one.  A lookup therefore threads the engine.  `Loads` says
what threading can change: it adds to the cache FSTs that are on disk, and nothing
else.  So the FST a lookup sees (`fstFor`) is the same all through a search, and the
answer of a search is a function of it (`mem_exactSearch`, `exactSearch_error_iff`). -/
import Pdq.Index.Indexer

namespace Pdq

open Theory KeyFormat

set_option autoImplicit false

/-! ## The engine -/

/-- Matching row groups of one file. -/
structure FileMatches where
  filePath : Path
  rowGroups : List Nat
  deriving DecidableEq, Repr

/-- The engine; a resident FST is the key set that was mapped, and stands for the mapping
while nothing rewrites the file. -/
structure IndexQueryEngine where
  fileMap : FiniteMap Str Path
  rowGroupCounts : FiniteMap Str Nat
  fstCache : FiniteMap (Str × Column) FstSet

/-- `format!("file-{}", file_hash)` -/
def fallbackPath (fileHash : Str) : Path := ['f', 'i', 'l', 'e', '-'] ++ fileHash

/-- What `build_file_map` takes from one sub-directory. -/
def IndexDir.mapEntry (fileHash : Str) (indexDir : IndexDir) : Path × Option Nat :=
  match indexDir.metadata with
  | some (.text contents) => (fileMapEntry contents).getD (fallbackPath fileHash, none)
  | _ => (fallbackPath fileHash, none)

/-- What it takes from a sub-directory that records a path of one line. -/
theorem IndexDir.mapEntry_recorded {indexDir : IndexDir} {filePath : Path} (one : OneLine filePath)
    {mtime size : UInt64} {numRowGroups : Nat}
    (written : indexDir.metadata = some (.text (metadataContent filePath mtime size numRowGroups)))
    (fileHash : Str) :
    indexDir.mapEntry fileHash = (filePath, parseUnsigned usizeBound (decimal numRowGroups)) := by
  simp [IndexDir.mapEntry, written, fileMapEntry, lines_metadataContent one]

/-- `IndexQueryEngine::build_file_map` -/
def buildFileMap (root : IndexRoot) : FiniteMap Str Path × FiniteMap Str Nat :=
  (FiniteMap.collect (fun fileHash indexDir => some (indexDir.mapEntry fileHash).1) root,
    FiniteMap.collect (fun fileHash indexDir => (indexDir.mapEntry fileHash).2) root)

/-- Insert the row group of one key, when it has one. -/
def insertRowGroup (rowGroups : SortedSet Nat) (key : Bytes) :
    Except QueryError (SortedSet Nat) := do
  match ← parseRowGroupFromKey key with
  | some rowGroupId => return rowGroups.insert rowGroupId
  | none => return rowGroups

/-- `IndexQueryEngine::search_set` -/
def searchSet (set : FstSet) (term : Str) : Except QueryError (List Nat) := do
  let rowGroups ← (set.range (startKey term) (endKey term)).foldlM insertRowGroup SortedSet.empty
  return rowGroups.toList

namespace IndexQueryEngine

/-- `IndexQueryEngine::new` -/
def new (root : IndexRoot) : IndexQueryEngine where
  fileMap := (buildFileMap root).1
  rowGroupCounts := (buildFileMap root).2
  fstCache := ∅

/-- `IndexQueryEngine::num_row_groups` -/
def numRowGroups (engine : IndexQueryEngine) (fileHash : Str) : Option Nat :=
  engine.rowGroupCounts.lookup fileHash

/-- `IndexQueryEngine::get_or_load_set`; a missing FST is no error, a refused name is one. -/
def getOrLoadSet (root : IndexRoot) (engine : IndexQueryEngine) (fileHash : Str)
    (column : Column) : Except QueryError (Option FstSet) × IndexQueryEngine :=
  match engine.fstCache.lookup (fileHash, column) with
  | some set => (.ok (some set), engine)
  | none =>
      if Opens column then
        match (root.dir fileHash).fst column with
        | none => (.ok none, engine)
        | some .invalid => (.error .invalidFst, engine)
        | some (.valid set) =>
            (.ok (some set),
              { engine with fstCache := engine.fstCache.insert (fileHash, column) set })
      else (.error .cannotOpen, engine)

/-- The parallel map of `search_all`: every file is looked up and searched, files
without matches are dropped, and any error is the error of the whole. -/
def searchFiles (root : IndexRoot) (column : Column)
    (search : FstSet → Except QueryError (List Nat)) :
    List Str → IndexQueryEngine → Except QueryError (List (Str × List Nat)) × IndexQueryEngine
  | [], engine => (.ok [], engine)
  | fileHash :: rest, engine =>
      let (loaded, engine) := getOrLoadSet root engine fileHash column
      let (later, engine) := searchFiles root column search rest engine
      let here : Except QueryError (List Nat) :=
        match loaded with
        | .error e => .error e
        | .ok none => .ok []
        | .ok (some set) => search set
      let results := do
        let rowGroups ← here
        let later ← later
        return if rowGroups.isEmpty then later else (fileHash, rowGroups) :: later
      (results, engine)

/-- `IndexQueryEngine::search_all` -/
def searchAll (root : IndexRoot) (engine : IndexQueryEngine) (column : Column)
    (search : FstSet → Except QueryError (List Nat)) :
    Except QueryError (List FileMatches) × IndexQueryEngine :=
  let searched := searchFiles root column search engine.fileMap.keys engine
  let results := do
    let found ← searched.1
    return found.map fun hit => ⟨(engine.fileMap.lookup hit.1).getD (fallbackPath hit.1), hit.2⟩
  (results, searched.2)

/-- `IndexQueryEngine::exact_search` -/
def exactSearch (root : IndexRoot) (engine : IndexQueryEngine) (column : Column) (term : Str) :
    Except QueryError (List FileMatches) × IndexQueryEngine :=
  searchAll root engine column fun set => searchSet set term

end IndexQueryEngine

/-! ## The answer of one FST -/

/-- **A loop that inserts what each key names** returns the set of what they name. -/
theorem rowGroupLoop_ok (body : SortedSet Nat → Bytes → Except QueryError (SortedSet Nat))
    (names : Bytes → Option Nat) {keys : List Bytes}
    (step : ∀ key ∈ keys, ∀ t : SortedSet Nat,
      body t key = .ok ((names key).elim t fun g => t.insert g)) (s : SortedSet Nat) :
    ∃ rowGroups, keys.foldlM body s = .ok rowGroups ∧
      ∀ g, g ∈ rowGroups ↔ (∃ key ∈ keys, names key = some g) ∨ g ∈ s := by
  induction keys generalizing s with
  | nil => exact ⟨s, rfl, by simp⟩
  | cons key keys ih =>
      obtain ⟨rowGroups, rest, members⟩ :=
        ih (fun other member => step other (List.mem_cons_of_mem key member))
          ((names key).elim s fun g => s.insert g)
      refine ⟨rowGroups, ?_, fun g => ?_⟩
      · rw [List.foldlM_cons, step key List.mem_cons_self s]
        exact rest
      · rw [members g, List.exists_mem_cons_iff, or_assoc, or_left_comm]
        cases names key with
        | none => simp
        | some g' => simp [eq_comm (a := g)]

/-- Decode a key that is known to decode. -/
def rowGroupOfKey (key : Bytes) : Nat :=
  match parseRowGroupFromKey key with
  | .ok (some rowGroup) => rowGroup
  | _ => 0

theorem rowGroupOfKey_key (v : Str) {g : Nat} (fits : g < usizeBound) :
    rowGroupOfKey (keyBytes v g) = g := by
  simp only [rowGroupOfKey, parseRowGroupFromKey_key v fits]

/-- The same over a byte range of an index FST, where a key that is kept names the
row group it was written for. -/
theorem rangeLoop_columnKeys (body : SortedSet Nat → Bytes → Except QueryError (SortedSet Nat))
    (keep : Bytes → Bool) (file : ParquetFile) (column : Column) (lo hi : Bytes)
    (step : ∀ v g, g < usizeBound → ∀ t : SortedSet Nat,
      body t (keyBytes v g) = .ok (if keep (keyBytes v g) then t.insert g else t)) :
    ∃ rowGroups, ((columnKeys file column).range lo hi).foldlM body SortedSet.empty =
        .ok rowGroups ∧
      ∀ g, g ∈ rowGroups ↔ ∃ v, file.HoldsValue column g v ∧
        (lo ≤ keyBytes v g ∧ keyBytes v g < hi) ∧ keep (keyBytes v g) = true := by
  have numbered : ∀ {g v}, file.HoldsValue column g v → g < usizeBound := fun holds =>
    (rowGroup_lt_of_holdsValue holds).trans file.fits
  obtain ⟨rowGroups, returned, members⟩ := rowGroupLoop_ok body
    (fun key => if keep key then some (rowGroupOfKey key) else none)
    (fun key (member : key ∈ (columnKeys file column).range lo hi) t => by
      obtain ⟨g, v, holds, rfl⟩ := mem_columnKeys.mp (SortedSet.mem_range.mp member).1
      rw [step v g (numbered holds), rowGroupOfKey_key v (numbered holds)]
      split <;> rfl) SortedSet.empty
  refine ⟨rowGroups, returned, fun g => (members g).trans ?_⟩
  simp only [SortedSet.not_mem_empty, or_false, SortedSet.mem_range, mem_columnKeys,
    Option.ite_none_right_eq_some, Option.some.injEq]
  constructor
  · rintro ⟨_, ⟨⟨g', v, holds, rfl⟩, inRange⟩, kept, named⟩
    rw [rowGroupOfKey_key v (numbered holds)] at named
    subst named
    exact ⟨v, holds, inRange, kept⟩
  · rintro ⟨v, holds, inRange, kept⟩
    exact ⟨_, ⟨⟨g, v, holds, rfl⟩, inRange⟩, kept, rowGroupOfKey_key v (numbered holds)⟩

theorem insertRowGroup_key (v : Str) {g : Nat} (fits : g < usizeBound) (t : SortedSet Nat) :
    insertRowGroup t (keyBytes v g) = .ok (t.insert g) := by
  simp [insertRowGroup, parseRowGroupFromKey_key v fits, bind, Except.bind, pure, Except.pure]

/-- **The answer of an index FST**: the row groups that hold a value that is the
term, or continues it with a NUL. -/
theorem searchSet_columnKeys (file : ParquetFile) (column : Column) (term : Str) :
    ∃ rowGroups, searchSet (columnKeys file column) term = .ok rowGroups ∧
      rowGroups.SortedLT ∧
      ∀ g, g ∈ rowGroups ↔
        ∃ v, file.HoldsValue column g v ∧ (v = term ∨ term ++ [valueRgSeparator] <+: v) := by
  obtain ⟨rowGroups, returned, members⟩ := rangeLoop_columnKeys insertRowGroup (fun _ => true)
    file column (startKey term) (endKey term) fun v g fits t => insertRowGroup_key v fits t
  refine ⟨rowGroups.toList, by simp only [searchSet, returned]; rfl, rowGroups.sorted, fun g => ?_⟩
  simp only [SortedSet.mem_toList, members, range_key_iff, and_true]

/-- What one key adds. -/
theorem mem_insertRowGroup {rowGroups rowGroups' : SortedSet Nat} {key : Bytes}
    (ok : insertRowGroup rowGroups key = .ok rowGroups') (g : Nat) :
    g ∈ rowGroups' ↔ g ∈ rowGroups ∨ parseRowGroupFromKey key = .ok (some g) := by
  obtain ⟨named, parsed, added⟩ := bind_eq_ok_iff.mp ok
  rw [parsed]
  cases named with
  | none =>
      cases added
      simp
  | some rowGroup =>
      cases added
      simp [or_comm, eq_comm (a := g)]

/-- **The answer of any FST**, when there is one: the row groups of the keys that continue
the term and a NUL. -/
theorem mem_searchSet {set : FstSet} {term : Str} {rowGroups : List Nat}
    (ok : searchSet set term = .ok rowGroups) (g : Nat) :
    g ∈ rowGroups ↔
      ∃ key ∈ set, startKey term <+: key ∧ parseRowGroupFromKey key = .ok (some g) := by
  obtain ⟨found, looped, same⟩ := bind_eq_ok_iff.mp ok
  cases same
  have members := foldlM_ok_induction
    (fun done now => ∀ g, g ∈ now ↔ ∃ key ∈ done, parseRowGroupFromKey key = .ok (some g))
    (fun done key now next held inserted g => by
      rw [mem_insertRowGroup inserted, held]
      simp [or_and_right, exists_or])
    _ [] _ _ (fun g => by simp) looped g
  rw [SortedSet.mem_toList, members]
  simp only [List.nil_append, SortedSet.mem_range, range_iff, and_assoc]

theorem searchSet_empty (term : Str) : searchSet SortedSet.empty term = .ok [] := rfl

/-- What loading the FST of a column returns, when there is such a file or none. -/
def loadFst (column : Column) : Option FstFile → Except QueryError (Option FstSet)
  | none => if Opens column then .ok none else .error .cannotOpen
  | some .invalid => .error .invalidFst
  | some (.valid set) => .ok (some set)

/-! ## What threading the engine changes -/

namespace IndexQueryEngine

/-- Lookups over the index directory `root` turn `before` into `after`: only FSTs
that are on disk are added to the cache. -/
structure Loads (root : IndexRoot) (before after : IndexQueryEngine) : Prop where
  fileMap : after.fileMap = before.fileMap
  counts : after.rowGroupCounts = before.rowGroupCounts
  retained : ∀ key set, before.fstCache.lookup key = some set →
    after.fstCache.lookup key = some set
  introduced : ∀ key set, after.fstCache.lookup key = some set →
    before.fstCache.lookup key = some set ∨ (root.dir key.1).fst key.2 = some (.valid set)

theorem Loads.refl (root : IndexRoot) (engine : IndexQueryEngine) : Loads root engine engine :=
  ⟨rfl, rfl, fun _ _ found => found, fun _ _ found => Or.inl found⟩

theorem Loads.trans {root : IndexRoot} {before middle after : IndexQueryEngine}
    (first : Loads root before middle) (second : Loads root middle after) :
    Loads root before after where
  fileMap := second.fileMap.trans first.fileMap
  counts := second.counts.trans first.counts
  retained key set found := second.retained key set (first.retained key set found)
  introduced key set found := by
    rcases second.introduced key set found with earlier | disk
    · exact first.introduced key set earlier
    · exact Or.inr disk

/-- The FST a lookup sees: the resident one, else the file. -/
def fstFor (engine : IndexQueryEngine) (root : IndexRoot) (fileHash : Str) (column : Column) :
    Option FstFile :=
  match engine.fstCache.lookup (fileHash, column) with
  | some set => some (.valid set)
  | none => (root.dir fileHash).fst column

/-- Lookups do not change what later lookups see. -/
theorem Loads.fstFor {root : IndexRoot} {before after : IndexQueryEngine}
    (loads : Loads root before after) (fileHash : Str) (column : Column) :
    after.fstFor root fileHash column = before.fstFor root fileHash column := by
  unfold IndexQueryEngine.fstFor
  cases earlier : before.fstCache.lookup (fileHash, column) with
  | some set => simp only [loads.retained _ set earlier]
  | none =>
      cases later : after.fstCache.lookup (fileHash, column) with
      | none => rfl
      | some set =>
          rcases loads.introduced _ set later with resident | disk
          · rw [earlier] at resident
            cases resident
          · exact disk.symm

theorem getOrLoadSet_loads (root : IndexRoot) (engine : IndexQueryEngine) (fileHash : Str)
    (column : Column) : Loads root engine (getOrLoadSet root engine fileHash column).2 := by
  unfold getOrLoadSet
  split
  · exact Loads.refl root engine
  · rename_i missing
    split
    case isFalse => exact Loads.refl root engine
    split
    · exact Loads.refl root engine
    · exact Loads.refl root engine
    · rename_i set disk
      refine ⟨rfl, rfl, fun key set' found => ?_, fun key set' found => ?_⟩
      · have other : key ≠ (fileHash, column) := by
          rintro rfl
          rw [missing] at found
          cases found
        rw [AList.lookup_insert_ne other, found]
      · by_cases same : key = (fileHash, column)
        · subst same
          rw [AList.lookup_insert] at found
          cases found
          exact Or.inr disk
        · rw [AList.lookup_insert_ne same] at found
          exact Or.inl found

theorem searchFiles_loads (root : IndexRoot) (column : Column)
    (search : FstSet → Except QueryError (List Nat)) (l : List Str) (engine : IndexQueryEngine) :
    Loads root engine (searchFiles root column search l engine).2 := by
  induction l generalizing engine with
  | nil => exact Loads.refl root engine
  | cons fileHash l ih => exact (getOrLoadSet_loads root engine fileHash column).trans (ih _)

theorem exactSearch_loads (root : IndexRoot) (engine : IndexQueryEngine) (column : Column)
    (term : Str) : Loads root engine (exactSearch root engine column term).2 :=
  searchFiles_loads root column _ _ engine

/-! ## The answer of a search -/

/-- What a search finds in one file. -/
def fileAnswer (root : IndexRoot) (engine : IndexQueryEngine) (column : Column)
    (search : FstSet → Except QueryError (List Nat)) (fileHash : Str) :
    Except QueryError (List Nat) :=
  match engine.fstFor root fileHash column with
  | none => if Opens column then .ok [] else .error .cannotOpen
  | some .invalid => .error .invalidFst
  | some (.valid set) => search set

/-- An answer that is not empty is that of an FST. -/
theorem fst_of_fileAnswer {root : IndexRoot} {engine : IndexQueryEngine} {column : Column}
    {search : FstSet → Except QueryError (List Nat)} {fileHash : Str} {rowGroups : List Nat}
    (answered : fileAnswer root engine column search fileHash = .ok rowGroups)
    (nonempty : rowGroups ≠ []) :
    ∃ set, engine.fstFor root fileHash column = some (.valid set) ∧
      search set = .ok rowGroups := by
  unfold fileAnswer at answered
  cases seen : engine.fstFor root fileHash column with
  | none =>
      simp only [seen] at answered
      split at answered
      · exact absurd (Except.ok.inj answered).symm nonempty
      · cases answered
  | some fst =>
      cases fst with
      | invalid => simp [seen] at answered
      | valid set => exact ⟨set, rfl, by simpa only [seen] using answered⟩

/-- The answers of a list of files, without the empty ones. -/
def collectAnswers (answer : Str → Except QueryError (List Nat)) :
    List Str → Except QueryError (List (Str × List Nat))
  | [] => .ok []
  | fileHash :: rest => do
      let rowGroups ← answer fileHash
      let later ← collectAnswers answer rest
      return if rowGroups.isEmpty then later else (fileHash, rowGroups) :: later

theorem Loads.fileAnswer {root : IndexRoot} {before after : IndexQueryEngine}
    (loads : Loads root before after) (column : Column)
    (search : FstSet → Except QueryError (List Nat)) :
    fileAnswer root after column search = fileAnswer root before column search := by
  funext fileHash
  simp only [IndexQueryEngine.fileAnswer, loads.fstFor]

/-- What loading the FST of a file returns. -/
theorem getOrLoadSet_result (root : IndexRoot) (engine : IndexQueryEngine) (fileHash : Str)
    (column : Column) :
    (getOrLoadSet root engine fileHash column).1 =
      loadFst column (engine.fstFor root fileHash column) := by
  unfold getOrLoadSet IndexQueryEngine.fstFor
  cases engine.fstCache.lookup (fileHash, column) with
  | some set => rfl
  | none =>
      cases held : (root.dir fileHash).fst column with
      | none => by_cases opens : Opens column <;> simp only [loadFst, opens, if_true, if_false]
      | some file =>
          simp only [if_pos (IndexDir.opens_of_fst held)]
          cases file <;> rfl

theorem searchFiles_result (root : IndexRoot) (column : Column)
    (search : FstSet → Except QueryError (List Nat)) (l : List Str) (engine : IndexQueryEngine) :
    (searchFiles root column search l engine).1 =
      collectAnswers (fileAnswer root engine column search) l := by
  induction l generalizing engine with
  | nil => rfl
  | cons fileHash l ih =>
      have loads := getOrLoadSet_loads root engine fileHash column
      have here : (match (getOrLoadSet root engine fileHash column).1 with
          | .error e => .error e
          | .ok none => .ok []
          | .ok (some set) => search set) = fileAnswer root engine column search fileHash := by
        rw [getOrLoadSet_result, fileAnswer]
        cases engine.fstFor root fileHash column with
        | none => by_cases opens : Opens column <;> simp only [loadFst, opens, if_true, if_false]
        | some file => cases file <;> rfl
      simp only [searchFiles, collectAnswers, ih, loads.fileAnswer, here]

theorem collectAnswers_ok {answer : Str → Except QueryError (List Nat)} {l : List Str}
    {found : List (Str × List Nat)} (ok : collectAnswers answer l = .ok found) :
    (∀ fileHash ∈ l, ∃ rowGroups, answer fileHash = .ok rowGroups) ∧
      ∀ hit, hit ∈ found ↔ hit.1 ∈ l ∧ answer hit.1 = .ok hit.2 ∧ hit.2 ≠ [] := by
  induction l generalizing found with
  | nil =>
      cases ok
      simp
  | cons fileHash l ih =>
      obtain ⟨rowGroups, here, ok⟩ := bind_eq_ok_iff.mp ok
      obtain ⟨later, rest, ok⟩ := bind_eq_ok_iff.mp ok
      obtain ⟨allOk, members⟩ := ih rest
      refine ⟨fun other member => ?_, fun hit => ?_⟩
      · rcases List.mem_cons.mp member with rfl | member
        · exact ⟨rowGroups, here⟩
        · exact allOk other member
      · have first : hit.1 = fileHash → answer hit.1 = .ok hit.2 → hit.2 = rowGroups := by
          rintro rfl answered
          rw [here] at answered
          exact (Except.ok.inj answered).symm
        cases ok
        cases rowGroups with
        | nil =>
            simp only [List.isEmpty_nil, if_true, members hit, List.mem_cons]
            constructor
            · rintro ⟨member, rest⟩
              exact ⟨Or.inr member, rest⟩
            · rintro ⟨rfl | member, answered, nonempty⟩
              · exact absurd (first rfl answered) nonempty
              · exact ⟨member, answered, nonempty⟩
        | cons g rowGroups =>
            simp only [List.isEmpty_cons, Bool.false_eq_true, if_false, List.mem_cons, members hit]
            constructor
            · rintro (rfl | ⟨member, rest⟩)
              · exact ⟨Or.inl rfl, here, by simp⟩
              · exact ⟨Or.inr member, rest⟩
            · rintro ⟨same | member, answered, nonempty⟩
              · exact Or.inl (Prod.ext same (first same answered))
              · exact Or.inr ⟨member, answered, nonempty⟩

theorem collectAnswers_error_iff {answer : Str → Except QueryError (List Nat)} {l : List Str} :
    (∃ e, collectAnswers answer l = .error e) ↔ ∃ fileHash ∈ l, ∃ e, answer fileHash = .error e := by
  induction l with
  | nil => simp [collectAnswers]
  | cons fileHash l ih =>
      simp only [List.mem_cons, exists_eq_or_imp, ← ih, collectAnswers]
      cases answer fileHash with
      | error e => simp [bind, Except.bind]
      | ok rowGroups =>
          cases collectAnswers answer l with
          | error e => simp [bind, Except.bind]
          | ok later => simp [bind, Except.bind, pure, Except.pure]

theorem exactSearch_result (root : IndexRoot) (engine : IndexQueryEngine) (column : Column)
    (term : Str) :
    (exactSearch root engine column term).1 =
      (collectAnswers (fileAnswer root engine column fun set => searchSet set term)
        engine.fileMap.keys).map fun found => found.map fun hit =>
          ⟨(engine.fileMap.lookup hit.1).getD (fallbackPath hit.1), hit.2⟩ := by
  simp only [exactSearch, searchAll, searchFiles_result]
  rfl

/-- **What a search returns**: the files of the file map whose FST answers with
some row group. -/
theorem mem_exactSearch {root : IndexRoot} {engine : IndexQueryEngine} {column : Column}
    {term : Str} {results : List FileMatches}
    (ok : (exactSearch root engine column term).1 = .ok results) (fileMatch : FileMatches) :
    fileMatch ∈ results ↔ ∃ fileHash, engine.fileMap.lookup fileHash = some fileMatch.filePath ∧
      fileAnswer root engine column (fun set => searchSet set term) fileHash =
        .ok fileMatch.rowGroups ∧ fileMatch.rowGroups ≠ [] := by
  rw [exactSearch_result] at ok
  cases answers : collectAnswers (fileAnswer root engine column fun set => searchSet set term)
      engine.fileMap.keys with
  | error e =>
      rw [answers] at ok
      cases ok
  | ok found =>
      rw [answers] at ok
      cases ok
      simp only [List.mem_map, (collectAnswers_ok answers).2]
      constructor
      · rintro ⟨hit, ⟨known, answered, nonempty⟩, rfl⟩
        obtain ⟨path, mapped⟩ := FiniteMap.mem_iff_lookup.mp known
        exact ⟨hit.1, by simp [mapped], answered, nonempty⟩
      · rintro ⟨fileHash, mapped, answered, nonempty⟩
        refine ⟨(fileHash, fileMatch.rowGroups), ⟨?_, answered, nonempty⟩, by simp [mapped]⟩
        exact FiniteMap.mem_of_lookup mapped

/-- **When a search fails**: some file of the file map has an FST that fails. -/
theorem exactSearch_error_iff {root : IndexRoot} {engine : IndexQueryEngine} {column : Column}
    {term : Str} :
    (∃ e, (exactSearch root engine column term).1 = .error e) ↔
      ∃ fileHash ∈ engine.fileMap, ∃ e,
        fileAnswer root engine column (fun set => searchSet set term) fileHash = .error e := by
  rw [exactSearch_result]
  refine Iff.trans ?_ (collectAnswers_error_iff (l := engine.fileMap.keys))
  cases collectAnswers (fileAnswer root engine column fun set => searchSet set term)
    engine.fileMap.keys <;> simp [Except.map]

theorem Loads.exactSearch {root : IndexRoot} {before after : IndexQueryEngine}
    (loads : Loads root before after) (column : Column) (term : Str) :
    (exactSearch root after column term).1 = (exactSearch root before column term).1 := by
  rw [exactSearch_result, exactSearch_result, loads.fileMap, loads.fileAnswer]

/-! ## A fresh engine -/

theorem new_fileMap (root : IndexRoot) (fileHash : Str) :
    (new root).fileMap.lookup fileHash =
      (root.lookup fileHash).map fun indexDir => (indexDir.mapEntry fileHash).1 := by
  simp only [new, buildFileMap, FiniteMap.lookup_collect]
  cases root.lookup fileHash <;> rfl

theorem new_numRowGroups (root : IndexRoot) (fileHash : Str) :
    (new root).numRowGroups fileHash =
      (root.lookup fileHash).bind fun indexDir => (indexDir.mapEntry fileHash).2 := by
  simp only [numRowGroups, new, buildFileMap, FiniteMap.lookup_collect]

theorem new_fstFor (root : IndexRoot) (fileHash : Str) (column : Column) :
    (new root).fstFor root fileHash column = (root.dir fileHash).fst column := by
  simp [IndexQueryEngine.fstFor, new]

end IndexQueryEngine

end Pdq
