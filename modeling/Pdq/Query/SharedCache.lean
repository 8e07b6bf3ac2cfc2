/- Pdq.Query.SharedCache -- many searches through one engine and its clones.

Clones share the file map and the resident FSTs.  Each call looks its files up in
any order, and a lookup is three steps: it reads the cache, on a miss it opens the
file, and it publishes what it opened unless another call was first.  Index runs
that add columns may complete in between.  `Coherent` follows the runs: a resident
FST is the one on disk, and what a call has loaded was on disk when it began or is
there now.  So a call answers as an engine made at that moment would
(`shared_search_fresh`), and no resident FST is ever replaced. -/
import Mathlib.Algebra.Order.BigOperators.Group.List
import Pdq.Index.Incremental
import Pdq.Index.Rebuild
import Pdq.Query.Batch
import Pdq.Query.PrefixSearch
import Pdq.Query.RangeSearch

namespace Pdq

open Theory

set_option autoImplicit false

/-! ## Index runs that add columns -/

/-- The directory has grown by FSTs only: every record and every FST is still there. -/
structure Extends (before after : IndexRoot) : Prop where
  records : ∀ fileHash,
    (after.lookup fileHash).map IndexDir.metadata = (before.lookup fileHash).map IndexDir.metadata
  kept : ∀ fileHash column fst, (before.dir fileHash).fst column = some fst →
    (after.dir fileHash).fst column = some fst

theorem Extends.refl (root : IndexRoot) : Extends root root :=
  ⟨fun _ => rfl, fun _ _ _ held => held⟩

theorem Extends.trans {before middle after : IndexRoot} (first : Extends before middle)
    (second : Extends middle after) : Extends before after where
  records fileHash := (second.records fileHash).trans (first.records fileHash)
  kept _ _ _ held := second.kept _ _ _ (first.kept _ _ _ held)

section AddsColumn

variable {calculateFileHash : Path → Str} {tree : FileTree} {root root' : IndexRoot}
  {dataDir : Path} {column : Column}

/-- Every entry of the walk is a file that is on record as it is, and the column is
new to it, or its FST is that of the file or one that `needs_indexing` passes over. -/
def AddsColumn (calculateFileHash : Path → Str) (tree : FileTree) (root : IndexRoot)
    (dataDir : Path) (column : Column) : Prop :=
  ∀ path ∈ tree.parquetEntries dataDir, ∀ file, tree.dataFile? path = some file →
    (∃ indexDir, root.lookup (calculateFileHash path) = some indexDir ∧
      indexDir.metadata = some (.text
        (metadataContent path file.mtime file.size file.content.numRowGroups))) ∧
    ∀ fst, (root.dir (calculateFileHash path)).fst column = some fst →
      fst = .valid (columnKeys file.content column) ∨
        needsIndexing calculateFileHash tree root path column = .ok false

/-- What `needs_indexing` passes over it passes over later. -/
theorem Extends.skipped {now : IndexRoot} (grown : Extends root now) {path : Path}
    (skipped : needsIndexing calculateFileHash tree root path column = .ok false) :
    needsIndexing calculateFileHash tree now path column = .ok false := by
  have recorded : ∀ either : IndexRoot, (either.dir (calculateFileHash path)).metadata =
      ((either.lookup (calculateFileHash path)).map IndexDir.metadata).getD none := by
    intro either
    rw [IndexRoot.dir]
    cases either.lookup (calculateFileHash path) <;> rfl
  obtain ⟨fst, held⟩ := Option.ne_none_iff_exists'.mp (fst_of_skipped skipped)
  rw [← skipped, needsIndexing, needsIndexing, held, grown.kept _ _ _ held, recorded now,
    grown.records, recorded root]

/-- Indexing one of those files keeps what was there. -/
theorem Extends.indexed {now : IndexRoot} (grown : Extends root now) {path : Path}
    {file : FileTree.DataFile}
    (present : ∃ indexDir, root.lookup (calculateFileHash path) = some indexDir ∧
      indexDir.metadata = some (.text
        (metadataContent path file.mtime file.size file.content.numRowGroups)))
    (named : fstFile column ≠ none)
    (same : ∀ fst, (root.dir (calculateFileHash path)).fst column = some fst →
      fst = .valid (columnKeys file.content column)) :
    Extends root (now.insert (calculateFileHash path)
      ((now.dir (calculateFileHash path)).indexed path file column)) := by
  obtain ⟨indexDir, present, recorded⟩ := present
  constructor
  · intro fileHash
    by_cases here : fileHash = calculateFileHash path
    · subst here
      rw [AList.lookup_insert, present, Option.map_some, Option.map_some, recorded,
        IndexDir.indexed_metadata]
    · rw [AList.lookup_insert_ne here]
      exact grown.records fileHash
  · intro fileHash other fst held
    by_cases own : fileHash = calculateFileHash path ∧ fstFile other = fstFile column
    · obtain ⟨rfl, leads⟩ := own
      rw [IndexRoot.dir_insert_self, IndexDir.indexed_fst_same _ _ _ named leads,
        same fst (by rw [← IndexDir.fst_congr _ leads, held])]
    · rw [IndexRoot.fst_insert_indexed_ne _ _ _ (not_and_or.mp own)]
      exact grown.kept _ _ _ held

/-- Visiting one of them does. -/
theorem Extends.visited (adds : AddsColumn calculateFileHash tree root dataDir column)
    {now next : IndexRoot} (grown : Extends root now) {path : Path}
    (visited : path ∈ tree.parquetEntries dataDir)
    (ok : indexEntry calculateFileHash tree column false now path = .ok next) :
    Extends root next := by
  rcases indexEntry_cases ok with ⟨rfl, -, -⟩ | ⟨named, file, found, rfl, decided⟩
  · exact grown
  · obtain ⟨present, same⟩ := adds path visited file found
    refine grown.indexed present named fun fst held =>
      (same fst held).resolve_right fun skipped => ?_
    rw [grown.skipped skipped] at decided
    rcases decided with forced | needed
    · cases forced
    · cases needed

/-- **A run that adds a column to indexed, unchanged files** leaves every record and
every FST in place. -/
theorem extends_buildIndex (adds : AddsColumn calculateFileHash tree root dataDir column)
    (ok : buildIndex calculateFileHash tree root dataDir column = .ok root') :
    Extends root root' :=
  foldlM_ok_invariant (Extends root)
    (fun _ visited _ _ grown visit => grown.visited adds visited visit) (Extends.refl root) ok

end AddsColumn

/-! ## Searches -/

/-- The two ways a call uses the FSTs of a column: `search_all` with a search of one
FST, and `exact_search_multi`. -/
inductive Search where
  | all (search : FstSet → Except QueryError (List Nat))
  | multi (terms : List Str)

namespace Search

def exact (term : Str) : Search := .all fun set => searchSet set term

def startsWith (pfx : Str) : Search := .all fun set => prefixSearchSet set pfx

def range (start last : Str) : Search := .all fun set => rangeSearchSet set start last

end Search

inductive Answer where
  | files (found : List FileMatches)
  | count (pairs : Nat)

/-- What a search makes of a loaded FST. -/
def searchLoaded (search : FstSet → Except QueryError (List Nat)) :
    Except QueryError (Option FstSet) → Except QueryError (List Nat)
  | .error e => .error e
  | .ok none => .ok []
  | .ok (some set) => search set

namespace Search

/-- The lookup of a file makes the call fail. -/
def Fails (loaded : Except QueryError (Option FstSet)) (e : QueryError) : Search → Prop
  | .all search => searchLoaded search loaded = .error e
  | .multi terms => fileHits terms loaded = .error e

/-- The answer over a file map, from what its files have loaded. -/
def answer (fileMap : FiniteMap Str Path) (loaded : Str → Except QueryError (Option FstSet)) :
    Search → Except QueryError Answer
  | .all search => do
      let found ← IndexQueryEngine.collectAnswers
        (fun fileHash => searchLoaded search (loaded fileHash)) fileMap.keys
      return .files (found.map fun hit =>
        ⟨(fileMap.lookup hit.1).getD (fallbackPath hit.1), hit.2⟩)
  | .multi terms => do
      let counts ← fileMap.keys.mapM fun fileHash => fileHits terms (loaded fileHash)
      return .count counts.sum

/-- The answer of an engine. -/
def through (root : IndexRoot) (engine : IndexQueryEngine) (column : Column) :
    Search → Except QueryError Answer
  | .all search => (engine.searchAll root column search).1.map .files
  | .multi terms => (engine.exactSearchMulti root column terms).1.map .count

/-- The answer of an engine made over the directory. -/
def fresh (root : IndexRoot) (column : Column) (search : Search) : Except QueryError Answer :=
  search.through root (.new root) column

end Search

/-- Two answers name the same files with the same row groups, in any order, or the
same count, or are both errors. -/
def Agree : Except QueryError Answer → Except QueryError Answer → Prop
  | .ok (.files found), .ok (.files found') => found.Perm found'
  | .ok (.count pairs), .ok (.count pairs') => pairs = pairs'
  | .error _, .error _ => True
  | _, _ => False

/-! ## The machine -/

/-- Where the lookup of one file stands. -/
inductive Lookup where
  | waiting
  /-- The cache had no entry. -/
  | missed
  /-- The file is mapped and validated, and not published. -/
  | opened (set : FstSet)
  | loaded (result : Except QueryError (Option FstSet))

/-- One call; `began` is a ghost, the directory when it began. -/
structure Call where
  column : Column
  search : Search
  began : IndexRoot
  lookups : Str → Lookup

/-- A call before its first lookup. -/
def Call.start (root : IndexRoot) (column : Column) (search : Search) : Call :=
  ⟨column, search, root, fun _ => .waiting⟩

def Call.setLookup (call : Call) (fileHash : Str) (lookup : Lookup) : Call :=
  { call with lookups := Function.update call.lookups fileHash lookup }

theorem Call.setLookup_self (call : Call) (fileHash : Str) (lookup : Lookup) :
    (call.setLookup fileHash lookup).lookups fileHash = lookup :=
  Function.update_self _ _ _

theorem Call.setLookup_ne (call : Call) {fileHash other : Str} (lookup : Lookup)
    (ne : other ≠ fileHash) :
    (call.setLookup fileHash lookup).lookups other = call.lookups other :=
  Function.update_of_ne ne _ _

/-- What a call can return: the answer when every lookup is done, or the error of
one that failed. -/
inductive Call.Returns (fileMap : FiniteMap Str Path) (call : Call) :
    Except QueryError Answer → Prop where
  | done (loaded : Str → Except QueryError (Option FstSet))
      (all : ∀ fileHash ∈ fileMap, call.lookups fileHash = .loaded (loaded fileHash)) :
      Returns fileMap call (call.search.answer fileMap loaded)
  | failed {fileHash : Str} (known : fileHash ∈ fileMap)
      {result : Except QueryError (Option FstSet)}
      (loaded : call.lookups fileHash = .loaded result) {e : QueryError}
      (fails : call.search.Fails result e) : Returns fileMap call (.error e)

/-- What the engine and its clones share, and the calls under way. -/
structure Shared where
  root : IndexRoot
  cache : FiniteMap (Str × Column) FstSet
  calls : Nat → Option Call

namespace Shared

def start (root : IndexRoot) : Shared := ⟨root, ∅, fun _ => none⟩

/-- One step of `get_or_load_set`. -/
def advance (root : IndexRoot) (key : Str × Column) (cache : FiniteMap (Str × Column) FstSet) :
    Lookup → FiniteMap (Str × Column) FstSet × Lookup
  | .waiting =>
      match cache.lookup key with
      | some set => (cache, .loaded (.ok (some set)))
      | none => (cache, .missed)
  | .missed =>
      if Opens key.2 then
        match (root.dir key.1).fst key.2 with
        | none => (cache, .loaded (.ok none))
        | some .invalid => (cache, .loaded (.error .invalidFst))
        | some (.valid set) => (cache, .opened set)
      else (cache, .loaded (.error .cannotOpen))
  | .opened set =>
      -- `cache.entry(key).or_insert(set)`
      match cache.lookup key with
      | some resident => (cache, .loaded (.ok (some resident)))
      | none => (cache.insert key set, .loaded (.ok (some set)))
  | .loaded result => (cache, .loaded result)

def setCall (s : Shared) (id : Nat) (call : Option Call) : Shared :=
  { s with calls := Function.update s.calls id call }

theorem setCall_self (s : Shared) (id : Nat) (call : Option Call) :
    (s.setCall id call).calls id = call :=
  Function.update_self _ _ _

theorem setCall_ne (s : Shared) {id other : Nat} (call : Option Call) (ne : other ≠ id) :
    (s.setCall id call).calls other = s.calls other :=
  Function.update_of_ne ne _ _

/-- One step of the lookup of a file by a call. -/
def advanceCall (s : Shared) (id : Nat) (call : Call) (fileHash : Str) : Shared :=
  let after := advance s.root (fileHash, call.column) s.cache (call.lookups fileHash)
  { s with cache := after.1 }.setCall id (some (call.setLookup fileHash after.2))

/-- The steps of the calls over one file map, and whole index runs. -/
inductive Step (calculateFileHash : Path → Str) (fileMap : FiniteMap Str Path) :
    Shared → Shared → Prop where
  | start {s : Shared} {id : Nat} (idle : s.calls id = none) (column : Column) (search : Search) :
      Step calculateFileHash fileMap s (s.setCall id (some (Call.start s.root column search)))
  | lookup {s : Shared} {id : Nat} {call : Call} (running : s.calls id = some call)
      {fileHash : Str} (known : fileHash ∈ fileMap) :
      Step calculateFileHash fileMap s (s.advanceCall id call fileHash)
  | finish {s : Shared} {id : Nat} {call : Call} (running : s.calls id = some call)
      {answer : Except QueryError Answer} (returns : call.Returns fileMap answer) :
      Step calculateFileHash fileMap s (s.setCall id none)
  | build {s : Shared} {tree : FileTree} {dataDir : Path} {column : Column} {root' : IndexRoot}
      (adds : AddsColumn calculateFileHash tree s.root dataDir column)
      (ok : buildIndex calculateFileHash tree s.root dataDir column = .ok root') :
      Step calculateFileHash fileMap s { s with root := root' }

abbrev Run (calculateFileHash : Path → Str) (fileMap : FiniteMap Str Path) :
    Shared → Shared → Prop :=
  Relation.ReflTransGen (Step calculateFileHash fileMap)

end Shared

/-! ## What one lookup step does -/

/-- Every resident FST is the one on disk. -/
def Resident (root : IndexRoot) (cache : FiniteMap (Str × Column) FstSet) : Prop :=
  ∀ key set, cache.lookup key = some set → (root.dir key.1).fst key.2 = some (.valid set)

/-- What a lookup has opened is on disk, and what it has loaded was there when the
call began or is there now. -/
def Lookup.Fits (began root : IndexRoot) (key : Str × Column) : Lookup → Prop
  | .waiting => True
  | .missed => True
  | .opened set => (root.dir key.1).fst key.2 = some (.valid set)
  | .loaded result => result = loadFst key.2 ((began.dir key.1).fst key.2) ∨
      result = loadFst key.2 ((root.dir key.1).fst key.2)

section Advance

variable {began root root' : IndexRoot} {key : Str × Column}
  {cache : FiniteMap (Str × Column) FstSet} {lookup : Lookup}

theorem Resident.insert (resident : Resident root cache) {set : FstSet}
    (disk : (root.dir key.1).fst key.2 = some (.valid set)) :
    Resident root (cache.insert key set) :=
  FiniteMap.forall_lookup_insert disk fun key' set' _ found => resident key' set' found

/-- The FST is opened, or what there is in its place decides. -/
theorem advance_missed (root : IndexRoot) (key : Str × Column)
    (cache : FiniteMap (Str × Column) FstSet) :
    Shared.advance root key cache .missed =
      (cache, match (root.dir key.1).fst key.2 with
        | some (.valid set) => .opened set
        | fst => .loaded (loadFst key.2 fst)) := by
  unfold Shared.advance
  cases held : (root.dir key.1).fst key.2 with
  | none => by_cases opens : Opens key.2 <;> simp only [loadFst, opens, if_true, if_false]
  | some fst =>
      simp only [if_pos (IndexDir.opens_of_fst held)]
      cases fst <;> rfl

/-- A step publishes only what is on disk, and the lookup goes on to fit. -/
theorem advance_fits (resident : Resident root cache) (fits : lookup.Fits began root key) :
    Resident root (Shared.advance root key cache lookup).1 ∧
      (Shared.advance root key cache lookup).2.Fits began root key := by
  cases lookup with
  | waiting =>
      unfold Shared.advance
      cases found : cache.lookup key with
      | none => exact ⟨resident, trivial⟩
      | some set => exact ⟨resident, .inr (by rw [resident key set found]; rfl)⟩
  | missed =>
      rw [advance_missed]
      refine ⟨resident, ?_⟩
      cases disk : (root.dir key.1).fst key.2 with
      | none => exact .inr (by rw [disk])
      | some fst =>
          cases fst with
          | invalid => exact .inr (by rw [disk])
          | valid set => exact disk
  | opened set =>
      have disk : (root.dir key.1).fst key.2 = some (.valid set) := fits
      unfold Shared.advance
      cases found : cache.lookup key with
      | none => exact ⟨resident.insert disk, .inr (by rw [disk]; rfl)⟩
      | some first => exact ⟨resident, .inr (by rw [resident key first found]; rfl)⟩
  | loaded result => exact ⟨resident, fits⟩

/-- A step replaces no entry. -/
theorem advance_retains {key' : Str × Column} {set : FstSet}
    (found : cache.lookup key' = some set) :
    (Shared.advance root key cache lookup).1.lookup key' = some set := by
  cases lookup with
  | waiting =>
      unfold Shared.advance
      cases cache.lookup key <;> exact found
  | missed =>
      rw [advance_missed]
      exact found
  | opened opened =>
      unfold Shared.advance
      cases missing : cache.lookup key with
      | some first => exact found
      | none =>
          have other : key' ≠ key := by
            rintro rfl
            rw [missing] at found
            cases found
          rw [← found]
          exact AList.lookup_insert_ne other
  | loaded result => exact found

/-- Three steps that nothing comes between are `get_or_load_set`. -/
theorem advance_getOrLoadSet (root : IndexRoot) (engine : IndexQueryEngine) (fileHash : Str)
    (column : Column) :
    let advance := fun state => Shared.advance root (fileHash, column) state.1 state.2
    advance (advance (advance (engine.fstCache, .waiting))) =
      ((engine.getOrLoadSet root fileHash column).2.fstCache,
        .loaded (engine.getOrLoadSet root fileHash column).1) := by
  unfold IndexQueryEngine.getOrLoadSet
  cases found : engine.fstCache.lookup (fileHash, column) with
  | some set => simp [Shared.advance, found]
  | none =>
      cases disk : (root.dir fileHash).fst column with
      | none => by_cases opens : Opens column <;> simp [Shared.advance, found, disk, opens]
      | some fst =>
          have opens := IndexDir.opens_of_fst disk
          cases fst <;> simp [Shared.advance, found, disk, opens]

/-- FSTs that are added leave what a lookup has as it was. -/
theorem Lookup.Fits.extend (fits : lookup.Fits began root key) (grown : Extends began root)
    (later : Extends root root') : lookup.Fits began root' key := by
  cases lookup with
  | waiting => trivial
  | missed => trivial
  | opened set => exact later.kept _ _ _ fits
  | loaded result =>
      rcases fits with before | now
      · exact .inl before
      · cases held : (root.dir key.1).fst key.2 with
        | some fst => exact .inr (by rw [later.kept _ _ _ held, now, held])
        | none =>
            -- Nothing was there, so nothing was there at the start.
            have absent : (began.dir key.1).fst key.2 = none := by
              by_contra present
              obtain ⟨fst, present⟩ := Option.ne_none_iff_exists'.mp present
              rw [grown.kept _ _ _ present] at held
              cases held
            exact .inl (by rw [now, held, absent])

theorem Resident.extend (resident : Resident root cache) (later : Extends root root') :
    Resident root' cache :=
  fun key set found => later.kept _ _ _ (resident key set found)

end Advance

/-! ## Whole runs -/

/-- The state is as runs from an empty cache over `base` leave it. -/
structure Coherent (base : IndexRoot) (s : Shared) : Prop where
  grown : Extends base s.root
  resident : Resident s.root s.cache
  began : ∀ id call, s.calls id = some call → Extends call.began s.root
  fits : ∀ id call, s.calls id = some call → ∀ fileHash,
    (call.lookups fileHash).Fits call.began s.root (fileHash, call.column)

section Runs

variable {calculateFileHash : Path → Str} {fileMap : FiniteMap Str Path} {base : IndexRoot}
  {s s' : Shared}

theorem coherent_start (base : IndexRoot) : Coherent base (.start base) where
  grown := Extends.refl base
  resident := fun key set found => by
    rw [show (Shared.start base).cache = ∅ from rfl, AList.lookup_empty] at found
    cases found
  began := fun id call running => by cases running
  fits := fun id call running => by cases running

/-- A call that fits takes the place of another. -/
theorem Coherent.setCall (coherent : Coherent base s) (id : Nat) {call : Option Call}
    (began : ∀ call' ∈ call, Extends call'.began s.root)
    (fits : ∀ call' ∈ call, ∀ fileHash,
      (call'.lookups fileHash).Fits call'.began s.root (fileHash, call'.column)) :
    Coherent base (s.setCall id call) where
  grown := coherent.grown
  resident := coherent.resident
  began other call' running := by
    by_cases same : other = id
    · subst same
      rw [Shared.setCall_self] at running
      exact began call' running
    · rw [Shared.setCall_ne s call same] at running
      exact coherent.began other call' running
  fits other call' running := by
    by_cases same : other = id
    · subst same
      rw [Shared.setCall_self] at running
      exact fits call' running
    · rw [Shared.setCall_ne s call same] at running
      exact coherent.fits other call' running

theorem Coherent.step (coherent : Coherent base s)
    (step : Shared.Step calculateFileHash fileMap s s') : Coherent base s' := by
  cases step with
  | start idle column search =>
      refine coherent.setCall _ ?_ ?_
      · rintro call' ⟨⟩
        exact Extends.refl _
      · rintro call' ⟨⟩ fileHash
        trivial
  | @lookup id call running fileHash known =>
      obtain ⟨resident, fits⟩ :=
        advance_fits coherent.resident (coherent.fits id call running fileHash)
      have published : Coherent base { s with cache := (Shared.advance s.root
          (fileHash, call.column) s.cache (call.lookups fileHash)).1 } :=
        ⟨coherent.grown, resident, coherent.began, coherent.fits⟩
      refine published.setCall id ?_ ?_
      · rintro call' ⟨⟩
        exact coherent.began id call running
      · rintro call' ⟨⟩ other
        by_cases same : other = fileHash
        · subst same
          rw [Call.setLookup_self]
          exact fits
        · rw [Call.setLookup_ne _ _ same]
          exact coherent.fits id call running other
  | finish running returns => exact coherent.setCall _ (by simp) (by simp)
  | build adds ok =>
      have later := extends_buildIndex adds ok
      exact ⟨coherent.grown.trans later, coherent.resident.extend later,
        fun id call running => (coherent.began id call running).trans later,
        fun id call running fileHash => (coherent.fits id call running fileHash).extend
          (coherent.began id call running) later⟩

/-- **Every reachable state is coherent.** -/
theorem coherent_of_run (run : Shared.Run calculateFileHash fileMap (.start base) s) :
    Coherent base s := by
  induction run with
  | refl => exact coherent_start base
  | tail _ step ih => exact ih.step step

theorem cache_of_step {key : Str × Column} {set : FstSet} (found : s.cache.lookup key = some set)
    (step : Shared.Step calculateFileHash fileMap s s') : s'.cache.lookup key = some set := by
  cases step with
  | start idle column search => exact found
  | lookup running known => exact advance_retains found
  | finish running returns => exact found
  | build adds ok => exact found

/-- **No run replaces a published entry.** -/
theorem cache_of_run {key : Str × Column} {set : FstSet} (found : s.cache.lookup key = some set)
    (run : Shared.Run calculateFileHash fileMap s s') : s'.cache.lookup key = some set := by
  induction run with
  | refl => exact found
  | tail _ step ih => exact cache_of_step ih step

end Runs

/-! ## Answers -/

section Answers

variable {root : IndexRoot} {engine : IndexQueryEngine} {column : Column}

theorem fileAnswer_eq_searchLoaded (search : FstSet → Except QueryError (List Nat))
    (fileHash : Str) :
    engine.fileAnswer root column search fileHash =
      searchLoaded search (loadFst column (engine.fstFor root fileHash column)) := by
  unfold IndexQueryEngine.fileAnswer
  cases engine.fstFor root fileHash column with
  | none =>
      by_cases opens : Opens column <;>
        simp only [loadFst, searchLoaded, opens, if_true, if_false]
  | some fst => cases fst <;> rfl

theorem countFiles_result (terms : List Str) (l : List Str) (engine : IndexQueryEngine) :
    (engine.countFiles root column terms l).1 =
      l.mapM fun fileHash =>
        fileHits terms (loadFst column (engine.fstFor root fileHash column)) := by
  induction l generalizing engine with
  | nil => rfl
  | cons fileHash l ih =>
      have loads := IndexQueryEngine.getOrLoadSet_loads root engine fileHash column
      have here := IndexQueryEngine.getOrLoadSet_result root engine fileHash column
      simp only [IndexQueryEngine.countFiles, List.mapM_cons, ih, loads.fstFor, here]

/-- The answer of an engine comes from the FSTs its lookups see. -/
theorem Search.through_eq_answer (search : Search) (root : IndexRoot) (engine : IndexQueryEngine)
    (column : Column) :
    search.through root engine column =
      search.answer engine.fileMap fun fileHash =>
        loadFst column (engine.fstFor root fileHash column) := by
  cases search with
  | all search =>
      simp only [Search.through, Search.answer, IndexQueryEngine.searchAll,
        IndexQueryEngine.searchFiles_result, ← fileAnswer_eq_searchLoaded]
      cases IndexQueryEngine.collectAnswers _ _ <;> rfl
  | multi terms =>
      simp only [Search.through, Search.answer, IndexQueryEngine.exactSearchMulti,
        countFiles_result]
      cases engine.fileMap.keys.mapM fun fileHash =>
        fileHits terms (loadFst column (engine.fstFor root fileHash column)) <;> rfl

/-- The answers of the four kinds of lookup. -/
theorem Search.through_eq (root : IndexRoot) (engine : IndexQueryEngine) (column : Column) :
    (∀ term, (Search.exact term).through root engine column =
      (engine.exactSearch root column term).1.map .files) ∧
    (∀ pfx, (Search.startsWith pfx).through root engine column =
      (engine.prefixSearch root column pfx).1.map .files) ∧
    (∀ start last, (Search.range start last).through root engine column =
      (engine.rangeSearch root column start last).1.map .files) ∧
    ∀ terms, (Search.multi terms).through root engine column =
      (engine.exactSearchMulti root column terms).1.map .count :=
  ⟨fun _ => rfl, fun _ => rfl, fun _ _ => rfl, fun _ => rfl⟩

/-- Answers over two file maps with the same entries, from the same FSTs, agree. -/
theorem Search.answer_agree (search : Search) {fileMap fileMap' : FiniteMap Str Path}
    {loaded loaded' : Str → Except QueryError (Option FstSet)}
    (sameFiles : ∀ fileHash, fileMap'.lookup fileHash = fileMap.lookup fileHash)
    (sameFsts : ∀ fileHash ∈ fileMap, loaded fileHash = loaded' fileHash) :
    Agree (search.answer fileMap loaded) (search.answer fileMap' loaded') := by
  have sameKeys : fileMap.keys.Perm fileMap'.keys := by
    refine (List.perm_ext_iff_of_nodup fileMap.nodupKeys fileMap'.nodupKeys).mpr fun fileHash => ?_
    show fileHash ∈ fileMap ↔ fileHash ∈ fileMap'
    rw [FiniteMap.mem_iff_lookup, FiniteMap.mem_iff_lookup, sameFiles]
  cases search with
  | all search =>
      rcases forall_ok_or_error_perm sameKeys fun fileHash member =>
        congrArg (searchLoaded search) (sameFsts fileHash member) with
        ⟨rows, all, all'⟩ | ⟨failing, failing'⟩
      · simp only [answer, IndexQueryEngine.collectAnswers_of_ok all,
          IndexQueryEngine.collectAnswers_of_ok all', sameFiles]
        exact (sameKeys.filterMap _).map _
      · obtain ⟨e, error⟩ := IndexQueryEngine.collectAnswers_error_iff.mpr failing
        obtain ⟨e', error'⟩ := IndexQueryEngine.collectAnswers_error_iff.mpr failing'
        simp only [answer, error, error']
        trivial
  | multi terms =>
      rcases forall_ok_or_error_perm sameKeys fun fileHash member =>
        congrArg (fileHits terms) (sameFsts fileHash member) with
        ⟨hits, all, all'⟩ | ⟨failing, failing'⟩
      · simp only [answer, mapM_eq_ok all, mapM_eq_ok all']
        exact (sameKeys.map hits).sum_eq
      · obtain ⟨e, error⟩ := mapM_error_iff.mpr failing
        obtain ⟨e', error'⟩ := mapM_error_iff.mpr failing'
        simp only [answer, error, error']
        trivial

/-- A lookup that makes a call fail makes the whole answer an error. -/
theorem Search.answer_of_fails {search : Search} {fileMap : FiniteMap Str Path}
    {loaded : Str → Except QueryError (Option FstSet)} {fileHash : Str}
    (known : fileHash ∈ fileMap) {e : QueryError} (fails : search.Fails (loaded fileHash) e) :
    ∃ e', search.answer fileMap loaded = .error e' := by
  cases search with
  | all search =>
      have failing : ∃ fileHash ∈ fileMap.keys, ∃ e,
          searchLoaded search (loaded fileHash) = .error e :=
        ⟨fileHash, known, e, fails⟩
      obtain ⟨e', error⟩ := IndexQueryEngine.collectAnswers_error_iff.mpr failing
      exact ⟨e', by simp only [answer, error]; rfl⟩
  | multi terms =>
      have failing : ∃ fileHash ∈ fileMap.keys, ∃ e,
          fileHits terms (loaded fileHash) = .error e :=
        ⟨fileHash, known, e, fails⟩
      obtain ⟨e', error⟩ := mapM_error_iff.mpr failing
      exact ⟨e', by simp only [answer, error]; rfl⟩

end Answers

/-! ## The cache never changes an answer -/

/-- The FSTs of a column are those that were there before. -/
def SameFsts (before after : IndexRoot) (column : Column) : Prop :=
  ∀ fileHash, (after.dir fileHash).fst column = (before.dir fileHash).fst column

/-- The FST of each file is the one that was there before, or the one that is there
after. -/
def Between (before after : IndexRoot) (column : Column) (seen : Str → Option FstFile) : Prop :=
  ∀ fileHash, seen fileHash = (before.dir fileHash).fst column ∨
    seen fileHash = (after.dir fileHash).fst column

/-- An index run by one column leaves the FSTs under other names. -/
theorem sameFsts_buildIndex {calculateFileHash : Path → Str} {tree : FileTree}
    {root root' : IndexRoot} {dataDir : Path} {column other : Column}
    (ne : fstFile other ≠ fstFile column)
    (ok : buildIndex calculateFileHash tree root dataDir column = .ok root') :
    SameFsts root root' other := by
  refine buildIndexExt_invariant (fun now => SameFsts root now other)
    (fun path _ file _ _ now same fileHash => ?_) (fun _ => rfl) ok
  rw [IndexRoot.fst_insert_indexed_ne _ _ _ (Or.inr ne)]
  exact same fileHash

theorem mapEntry_of_metadata {indexDir indexDir' : IndexDir}
    (same : indexDir.metadata = indexDir'.metadata) (fileHash : Str) :
    indexDir.mapEntry fileHash = indexDir'.mapEntry fileHash := by
  rw [IndexDir.mapEntry, IndexDir.mapEntry, same]

/-- Engines made before and after FSTs were added know the same files. -/
theorem Extends.fileMap {before after : IndexRoot} (grown : Extends before after)
    (fileHash : Str) :
    (IndexQueryEngine.new after).fileMap.lookup fileHash =
      (IndexQueryEngine.new before).fileMap.lookup fileHash := by
  have records := grown.records fileHash
  rw [IndexQueryEngine.new_fileMap, IndexQueryEngine.new_fileMap]
  cases present : before.lookup fileHash with
  | none =>
      rw [present] at records
      rw [Option.map_eq_none_iff.mp records]
  | some indexDir =>
      rw [present] at records
      obtain ⟨indexDir', present', same⟩ := Option.map_eq_some_iff.mp records
      rw [present', Option.map_some, Option.map_some, mapEntry_of_metadata same]

section Transparent

variable {calculateFileHash : Path → Str} {base : IndexRoot} {s : Shared}

/-- A call of a coherent state answers from FSTs that were on disk when it began or
are there now. -/
theorem Coherent.returns_between (coherent : Coherent base s) {id : Nat} {call : Call}
    (running : s.calls id = some call) {answer : Except QueryError Answer}
    (returns : call.Returns (IndexQueryEngine.new base).fileMap answer) :
    ∃ seen, Between call.began s.root call.column seen ∧
      Agree answer (call.search.answer (IndexQueryEngine.new s.root).fileMap fun fileHash =>
        loadFst call.column (seen fileHash)) := by
  have each : ∀ fileHash, ∃ fst, (fst = (call.began.dir fileHash).fst call.column ∨
      fst = (s.root.dir fileHash).fst call.column) ∧
      ∀ result, call.lookups fileHash = .loaded result →
        result = loadFst call.column fst := by
    intro fileHash
    have fits := coherent.fits id call running fileHash
    cases stands : call.lookups fileHash with
    | loaded result =>
        rw [stands] at fits
        rcases fits with before | now
        · exact ⟨_, .inl rfl, by rintro _ ⟨⟩; exact before⟩
        · exact ⟨_, .inr rfl, by rintro _ ⟨⟩; exact now⟩
    | waiting => exact ⟨_, .inl rfl, by rintro _ ⟨⟩⟩
    | missed => exact ⟨_, .inl rfl, by rintro _ ⟨⟩⟩
    | opened set => exact ⟨_, .inl rfl, by rintro _ ⟨⟩⟩
  choose seen between loads using each
  refine ⟨seen, between, ?_⟩
  cases returns with
  | done loaded all =>
      exact call.search.answer_agree coherent.grown.fileMap fun fileHash known =>
        loads fileHash _ (all fileHash known)
  | @failed fileHash known result loaded e fails =>
      have known' : fileHash ∈ (IndexQueryEngine.new s.root).fileMap := by
        rw [FiniteMap.mem_iff_lookup, coherent.grown.fileMap]
        exact FiniteMap.mem_iff_lookup.mp known
      have error : ∃ e', call.search.answer (IndexQueryEngine.new s.root).fileMap
          (fun fileHash => loadFst call.column (seen fileHash)) = .error e' := by
        rw [loads fileHash _ loaded] at fails
        exact Search.answer_of_fails known' fails
      obtain ⟨e', error⟩ := error
      rw [error]
      trivial

/-- The FSTs that a fresh engine answers from are those on disk. -/
theorem Search.fresh_eq_answer (search : Search) (root : IndexRoot) (column : Column) :
    search.fresh root column = search.answer (IndexQueryEngine.new root).fileMap fun fileHash =>
      loadFst column ((root.dir fileHash).fst column) := by
  rw [Search.fresh, Search.through_eq_answer]
  simp only [IndexQueryEngine.new_fstFor]

/-! ## Every call returns -/

/-- The steps a lookup has still to take, at most. -/
def Lookup.remaining : Lookup → Nat
  | .waiting => 3
  | .missed => 2
  | .opened _ => 1
  | .loaded _ => 0

def Call.remaining (fileMap : FiniteMap Str Path) (call : Call) : Nat :=
  (fileMap.keys.map fun fileHash => (call.lookups fileHash).remaining).sum

theorem advance_remaining (root : IndexRoot) (key : Str × Column)
    (cache : FiniteMap (Str × Column) FstSet) (lookup : Lookup) :
    (Shared.advance root key cache lookup).2.remaining ≤ lookup.remaining - 1 := by
  cases lookup with
  | waiting =>
      unfold Shared.advance
      cases cache.lookup key <;> simp [Lookup.remaining]
  | missed =>
      rw [advance_missed]
      cases (root.dir key.1).fst key.2 with
      | none => exact Nat.zero_le _
      | some fst => cases fst <;> simp [Lookup.remaining]
  | opened set =>
      unfold Shared.advance
      cases cache.lookup key <;> simp [Lookup.remaining]
  | loaded result => simp [Shared.advance, Lookup.remaining]

/-- A call with no step left returns. -/
theorem Call.returns_of_remaining {fileMap : FiniteMap Str Path} {call : Call}
    (none : call.remaining fileMap = 0) : ∃ answer, call.Returns fileMap answer := by
  have each : ∀ fileHash, ∃ result, fileHash ∈ fileMap →
      call.lookups fileHash = .loaded result := by
    intro fileHash
    by_cases known : fileHash ∈ fileMap
    · have zero : (call.lookups fileHash).remaining = 0 :=
        List.sum_eq_zero_iff.mp none _ (List.mem_map_of_mem known)
      cases stands : call.lookups fileHash with
      | loaded result => exact ⟨result, fun _ => rfl⟩
      | waiting => rw [stands] at zero; cases zero
      | missed => rw [stands] at zero; cases zero
      | opened set => rw [stands] at zero; cases zero
    · exact ⟨.ok Option.none, fun member => absurd member known⟩
  choose loaded all using each
  exact ⟨_, .done loaded all⟩

theorem Call.busy_of_remaining {fileMap : FiniteMap Str Path} {call : Call}
    (some : call.remaining fileMap ≠ 0) :
    ∃ fileHash ∈ fileMap, (call.lookups fileHash).remaining ≠ 0 := by
  by_contra idle
  apply some
  apply List.sum_eq_zero
  intro remaining member
  obtain ⟨fileHash, known, rfl⟩ := List.mem_map.mp member
  by_contra busy
  exact idle ⟨fileHash, known, busy⟩

/-- A step of a lookup that is not done brings the call nearer to its answer. -/
theorem Call.remaining_advance {fileMap : FiniteMap Str Path} (call : Call) (s : Shared)
    {fileHash : Str} (known : fileHash ∈ fileMap)
    (busy : (call.lookups fileHash).remaining ≠ 0) :
    (call.setLookup fileHash (Shared.advance s.root (fileHash, call.column) s.cache
      (call.lookups fileHash)).2).remaining fileMap < call.remaining fileMap := by
  have less := advance_remaining s.root (fileHash, call.column) s.cache (call.lookups fileHash)
  apply List.sum_lt_sum
  · intro other _
    by_cases same : other = fileHash
    · subst same
      rw [Call.setLookup_self]
      omega
    · rw [Call.setLookup_ne _ _ same]
  · refine ⟨fileHash, known, ?_⟩
    rw [Call.setLookup_self]
    omega

/-- **No call ever waits for another**: from any state it can take its own steps to
an answer. -/
theorem returns_after {calculateFileHash : Path → Str} {fileMap : FiniteMap Str Path} {s : Shared}
    {id : Nat} {call : Call} (running : s.calls id = some call) :
    ∃ s' call' answer, Shared.Run calculateFileHash fileMap s s' ∧ s'.calls id = some call' ∧
      call'.column = call.column ∧ call'.search = call.search ∧ call'.Returns fileMap answer := by
  induction left : call.remaining fileMap using Nat.strong_induction_on generalizing s call with
  | _ left ih =>
      by_cases finished : call.remaining fileMap = 0
      · obtain ⟨answer, returns⟩ := Call.returns_of_remaining finished
        exact ⟨s, call, answer, .refl, running, rfl, rfl, returns⟩
      · obtain ⟨fileHash, known, busy⟩ := Call.busy_of_remaining finished
        have step : Shared.Step calculateFileHash fileMap s (s.advanceCall id call fileHash) :=
          .lookup running known
        obtain ⟨s', call', answer, run, running', column, search, returns⟩ :=
          ih _ (left ▸ call.remaining_advance s known busy)
            (Shared.setCall_self _ id _ : (s.advanceCall id call fileHash).calls id = _) rfl
        exact ⟨s', call', answer, .head step run, running', column, search, returns⟩

/-- **The resident FSTs never change an answer.**  In every state a run reaches, every
call can go on to return; what it returns is what an engine made over the directory
then would return, or, where FSTs of its column were added while it ran, it has seen
each file as it was before or as it is now.  And no later step replaces a resident
FST. -/
theorem shared_search_fresh
    (run : Shared.Run calculateFileHash (IndexQueryEngine.new base).fileMap (.start base) s) :
    (∀ id call answer, s.calls id = some call →
      call.Returns (IndexQueryEngine.new base).fileMap answer →
      (SameFsts call.began s.root call.column →
        Agree answer (call.search.fresh s.root call.column)) ∧
      ∃ seen, Between call.began s.root call.column seen ∧
        Agree answer (call.search.answer (IndexQueryEngine.new s.root).fileMap fun fileHash =>
          loadFst call.column (seen fileHash))) ∧
    (∀ id call, s.calls id = some call → ∃ s' call' answer,
      Shared.Run calculateFileHash (IndexQueryEngine.new base).fileMap s s' ∧
        s'.calls id = some call' ∧ call'.column = call.column ∧ call'.search = call.search ∧
        call'.Returns (IndexQueryEngine.new base).fileMap answer) ∧
    ∀ s', Shared.Run calculateFileHash (IndexQueryEngine.new base).fileMap s s' →
      ∀ key set, s.cache.lookup key = some set → s'.cache.lookup key = some set := by
  have coherent := coherent_of_run run
  refine ⟨?_, ?_, ?_⟩
  · intro id call answer running returns
    obtain ⟨seen, between, agree⟩ := coherent.returns_between running returns
    refine ⟨fun same => ?_, seen, between, agree⟩
    have disk : seen = fun fileHash => (s.root.dir fileHash).fst call.column := by
      funext fileHash
      rcases between fileHash with before | now
      · rw [before, same fileHash]
      · exact now
    rw [Search.fresh_eq_answer]
    rw [disk] at agree
    exact agree
  · intro id call running
    exact returns_after running
  · intro s' later key set found
    exact cache_of_run found later

end Transparent

/-! ## Two calls that miss the same entry -/

/-- The next lookup step of a call, if it is under way. -/
def Shared.advanceBy (s : Shared) (id : Nat) (fileHash : Str) : Shared :=
  match s.calls id with
  | some call => s.advanceCall id call fileHash
  | none => s

def sampleRoot : IndexRoot := singleRoot samplePath sampleFile sampleColumn

/-- The same with the file indexed by city as well. -/
def sampleRoot' : IndexRoot := sampleRoot.indexed samplePath sampleFile cityColumn

/-- Two calls look the sample name up, and both miss the cache. -/
def bothMissed : Shared :=
  ((((Shared.start sampleRoot).setCall 0
    (some (.start sampleRoot sampleColumn (.exact "alice".toList)))).setCall 1
    (some (.start sampleRoot sampleColumn (.multi ["alice".toList])))).advanceBy 0
    (sampleHash samplePath)).advanceBy 1 (sampleHash samplePath)

/-- An index run by city completes, then the calls go on in turn: the second finds
the entry the first has published. -/
def bothLoaded : Shared :=
  (((({ bothMissed with root := sampleRoot' } : Shared).advanceBy 0
    (sampleHash samplePath)).advanceBy 1 (sampleHash samplePath)).advanceBy 0
    (sampleHash samplePath)).advanceBy 1 (sampleHash samplePath)

theorem build_city :
    buildIndex sampleHash (singleTree samplePath sampleFile) sampleRoot sampleDir cityColumn =
      .ok sampleRoot' := by
  rw [buildIndex, buildIndex_of_single (parquetEntries_sample sampleFile)]
  exact indexEntry_of_needed (dataFile_singleTree _ _) named_cityColumn rfl

theorem adds_city :
    AddsColumn sampleHash (singleTree samplePath sampleFile) sampleRoot sampleDir cityColumn := by
  intro path visited file found
  rw [parquetEntries_sample, List.mem_singleton] at visited
  subst visited
  rw [dataFile_singleTree] at found
  cases found
  refine ⟨⟨_, rfl, rfl⟩, fun fst held => ?_⟩
  rw [sampleRoot, singleRoot_fst_ne (by decide)] at held
  cases held

theorem keys_sampleRoot :
    (IndexQueryEngine.new sampleRoot).fileMap.keys = [sampleHash samplePath] := rfl

theorem known_sample : sampleHash samplePath ∈ (IndexQueryEngine.new sampleRoot).fileMap := by
  show sampleHash samplePath ∈ (IndexQueryEngine.new sampleRoot).fileMap.keys
  rw [keys_sampleRoot]
  exact List.mem_singleton_self _

theorem run_bothLoaded :
    Shared.Run sampleHash (IndexQueryEngine.new sampleRoot).fileMap (.start sampleRoot)
      bothLoaded := by
  have missed : Shared.Run sampleHash (IndexQueryEngine.new sampleRoot).fileMap (.start sampleRoot)
      bothMissed :=
    .tail (.tail (.tail (.tail .refl (.start rfl _ _)) (.start rfl _ _))
      (.lookup rfl known_sample)) (.lookup rfl known_sample)
  exact .tail (.tail (.tail (.tail (.tail missed (.build adds_city build_city))
    (.lookup rfl known_sample)) (.lookup rfl known_sample)) (.lookup rfl known_sample))
    (.lookup rfl known_sample)

theorem returns_of_sample {call : Call} (set : FstSet)
    (loaded : call.lookups (sampleHash samplePath) = .loaded (.ok (some set))) :
    call.Returns (IndexQueryEngine.new sampleRoot).fileMap
      (call.search.answer (IndexQueryEngine.new sampleRoot).fileMap fun _ => .ok (some set)) := by
  refine .done _ fun fileHash known => ?_
  have member : fileHash ∈ (IndexQueryEngine.new sampleRoot).fileMap.keys := known
  rw [keys_sampleRoot, List.mem_singleton] at member
  rw [member, loaded]

/-- Both calls answer as a fresh engine would, although an index run completed between
the misses and the lookups. -/
theorem shared_search_fresh_sample :
    ∃ single batch, bothLoaded.calls 0 = some single ∧ bothLoaded.calls 1 = some batch ∧
      Agree (.ok (.files [⟨samplePath, [0]⟩])) (single.search.fresh bothLoaded.root single.column) ∧
      Agree (.ok (.count 1)) (batch.search.fresh bothLoaded.root batch.column) := by
  have same : SameFsts sampleRoot sampleRoot' sampleColumn :=
    sameFsts_buildIndex (by decide) build_city
  have settled := (shared_search_fresh run_bothLoaded).1
  let keys := columnKeys sampleFile.content sampleColumn
  refine ⟨_, _, rfl, rfl, ?_, ?_⟩
  · exact (settled 0 _ _ rfl (returns_of_sample keys rfl)).1 same
  · exact (settled 1 _ _ rfl (returns_of_sample keys rfl)).1 same

end Pdq
