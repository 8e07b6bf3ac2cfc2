/- Pdq.Shootout.BloomProbe -- bloom filters beside the index.

A probe asks the bloom filter of every row group for a value; the watchlist probe
asks each filter for every value not yet found.  It counts the values that a probe of
their own would find somewhere, and fails when the filters of some row group cannot be
read (`probeBloomsMulti_eq`).  A filter never denies a value
that is there, so over a directory the filters name at least the files the index
names, and the index names those that hold the value and no other
(`index_beside_blooms`). -/
import Pdq.Query.Maintained

namespace Pdq

open Theory KeyFormat

set_option autoImplicit false

namespace Shootout

/-- What the Parquet files say besides their rows: the leaf columns of the schema, and
for each row group whose filters can be read, `Sbbf::check` of the columns that have
one. -/
structure BloomFilters where
  columns : Path → List Column
  rowGroup : Path → Nat → Option (Column → Option (Str → Bool))

inductive ProbeError where
  | reader (e : IndexError)
  /-- `column {column} not found` -/
  | columnNotFound (column : Column)
  | rowGroup (rg : Nat)
  deriving DecidableEq, Repr

/-- `get_row_group` of a reader that reads bloom filters. -/
def BloomFilters.getRowGroup (filters : BloomFilters) (path : Path) (rg : Nat) :
    Except ProbeError (Column → Option (Str → Bool)) :=
  match filters.rowGroup path rg with
  | some rgReader => .ok rgReader
  | none => .error (.rowGroup rg)

section Probe

variable (tree : FileTree) (filters : BloomFilters)

/-- Open a file and look for the column in its schema. -/
def openColumn (path : Path) (column : Column) : Except ProbeError ParquetFile := do
  let reader ← (tree.openParquet path).mapError .reader
  if (filters.columns path).contains column then return reader else .error (.columnNotFound column)

/-- `probe_bloom`: the row groups whose filter does not deny the value. -/
def probeBloom (path : Path) (column : Column) (value : Str) : Except ProbeError (List Nat) := do
  let reader ← openColumn tree filters path column
  (List.range reader.numRowGroups).foldlM (fun matched rg => do
    let rgReader ← filters.getRowGroup path rg
    return match rgReader column with
      | some sbbf => if sbbf value then matched ++ [rg] else matched
      | none => matched) []

/-- The loop over the values in `probe_blooms_multi`, against one filter. -/
def probeValues (sbbf : Str → Bool) (values : List (Str × Nat)) (hit : List Bool) : List Bool :=
  values.foldl (fun hit value =>
    if !hit.getD value.2 false && sbbf value.1 then hit.set value.2 true else hit) hit

/-- `probe_blooms_multi`: how many of the values some filter does not deny. -/
def probeBloomsMulti (path : Path) (column : Column) (values : List Str) :
    Except ProbeError Nat := do
  let reader ← openColumn tree filters path column
  let hit ← (List.range reader.numRowGroups).foldlM (fun hit rg => do
    let rgReader ← filters.getRowGroup path rg
    return match rgReader column with
      | some sbbf => probeValues sbbf values.zipIdx hit
      | none => hit) (List.replicate values.length false)
  return (hit.filter fun h => h).length

/-- The single workload of the pruning bench: the files with some candidate. -/
def bloomMatched (files : List Path) (column : Column) (needle : Str) : Except ProbeError Nat :=
  files.foldlM (fun hits path => do
    let rgs ← probeBloom tree filters path column needle
    return if rgs.isEmpty then hits else hits + 1) 0

/-- The watchlist workload. -/
def bloomMatchedMulti (files : List Path) (column : Column) (iocs : List Str) :
    Except ProbeError Nat :=
  files.foldlM (fun hits path => do
    let h ← probeBloomsMulti tree filters path column iocs
    return hits + h) 0

end Probe

/-! ## The watchlist probe is many probes -/

/-- The filter of a row group for a column, where there is one that can be read. -/
def BloomFilters.check (filters : BloomFilters) (path : Path) (rg : Nat) (column : Column) :
    Option (Str → Bool) :=
  (filters.rowGroup path rg).bind fun rgReader => rgReader column

/-- The row groups below `n` whose filter does not deny the value. -/
def candidates (filters : BloomFilters) (path : Path) (column : Column) (n : Nat) (value : Str) :
    List Nat :=
  (List.range n).filter fun rg =>
    ((filters.check path rg column).map fun sbbf => sbbf value).getD false

section Loops

variable {filters : BloomFilters} {path : Path} {column : Column}

theorem length_probeValues (sbbf : Str → Bool) (values : List (Str × Nat)) (hit : List Bool) :
    (probeValues sbbf values hit).length = hit.length := by
  unfold probeValues
  induction values generalizing hit with
  | nil => rfl
  | cons value values ih =>
      rw [List.foldl_cons, ih]
      split
      · exact List.length_set
      · rfl

/-- One value: its flag goes up when the filter does not deny it. -/
theorem getD_set_flag {hit : List Bool} {k : Nat} (inRange : k < hit.length) (found : Bool)
    (i : Nat) :
    (if !hit.getD k false && found then hit.set k true else hit).getD i false =
      (hit.getD i false || decide (k = i) && found) := by
  simp only [List.getD_eq_getElem?_getD]
  by_cases here : k = i
  · subst here
    cases up : hit[k] <;> cases found <;> simp [up, inRange]
  · split
    · rw [List.getElem?_set_ne here]
      simp [here]
    · simp [here]

/-- One filter: a flag is up when it was, or when the filter does not deny a value that
has the flag. -/
theorem getD_probeValues (sbbf : Str → Bool) (values : List (Str × Nat)) (hit : List Bool)
    (inRange : ∀ value ∈ values, value.2 < hit.length) (i : Nat) :
    (probeValues sbbf values hit).getD i false =
      (hit.getD i false || values.any fun value => decide (value.2 = i) && sbbf value.1) := by
  unfold probeValues
  induction values generalizing hit with
  | nil => simp
  | cons value values ih =>
      have length : (if !hit.getD value.2 false && sbbf value.1 then hit.set value.2 true
          else hit).length = hit.length := by
        split
        · exact List.length_set
        · rfl
      rw [List.foldl_cons, ih _ fun later member => by
          rw [length]
          exact inRange later (List.mem_cons_of_mem value member),
        getD_set_flag (inRange value List.mem_cons_self), List.any_cons, Bool.or_assoc]

/-- The value whose flag is `i` is the one at `i`. -/
theorem any_zipIdx (p : Str → Bool) (values : List Str) (i : Nat) :
    (values.zipIdx.any fun value => decide (value.2 = i) && p value.1) =
      ((values[i]?).map p).getD false := by
  rw [Bool.eq_iff_iff, List.any_eq_true]
  constructor
  · rintro ⟨⟨v, k⟩, member, held⟩
    obtain ⟨same, selected⟩ := Bool.and_eq_true_iff.mp held
    obtain rfl : k = i := of_decide_eq_true same
    have position : values[k]? = some v := List.mem_zipIdx_iff_getElem?.mp member
    rw [position]
    exact selected
  · intro held
    cases position : values[i]? with
    | none =>
        rw [position] at held
        cases held
    | some v =>
        rw [position] at held
        refine ⟨(v, i), List.mem_zipIdx_iff_getElem?.mpr position, ?_⟩
        rw [decide_eq_true rfl, Bool.true_and]
        exact held

/-- All filters of the first `n` row groups. -/
theorem probeLoop_eq (values : List Str) (n : Nat) :
    (List.range n).foldl (fun hit rg =>
      match filters.check path rg column with
      | some sbbf => probeValues sbbf values.zipIdx hit
      | none => hit) (List.replicate values.length false) =
      values.map fun value => !(candidates filters path column n value).isEmpty := by
  induction n with
  | zero => exact List.map_const.symm
  | succ n ih =>
      have more : ∀ v, (!(candidates filters path column (n + 1) v).isEmpty) =
          (!(candidates filters path column n v).isEmpty ||
            ((filters.check path n column).map fun sbbf => sbbf v).getD false) := by
        intro v
        have last : candidates filters path column (n + 1) v = candidates filters path column n v ++
            if ((filters.check path n column).map fun sbbf => sbbf v).getD false then [n]
            else [] := by
          rw [candidates, List.range_succ, List.filter_append, List.filter_cons, List.filter_nil,
            candidates]
        rw [last]
        cases candidates filters path column n v with
        | nil => cases ((filters.check path n column).map fun sbbf => sbbf v).getD false <;> rfl
        | cons rg rgs => rfl
      rw [List.range_succ, List.foldl_append, ih, List.foldl_cons, List.foldl_nil]
      cases filter : filters.check path n column with
      | none =>
          refine List.map_congr_left fun v _ => ?_
          rw [more v, filter, Option.map_none, Option.getD_none, Bool.or_false]
      | some sbbf =>
          have inRange : ∀ value ∈ values.zipIdx,
              value.2 < (values.map fun value =>
                !(candidates filters path column n value).isEmpty).length := by
            intro value member
            have position := List.mem_zipIdx_iff_getElem?.mp member
            rw [List.length_map]
            exact (List.getElem?_eq_some_iff.mp position).1
          refine List.ext_getElem (by simp [length_probeValues]) fun i here there => ?_
          have bound : i < values.length := by simpa using there
          have flag := getD_probeValues sbbf values.zipIdx _ inRange i
          rw [any_zipIdx, List.getD_eq_getElem?_getD, List.getElem?_eq_getElem here,
            Option.getD_some] at flag
          rw [flag, List.getElem_map, more, filter]
          simp [bound]

theorem matchedLoop_eq (value : Str) (l matched : List Nat) :
    l.foldl (fun matched rg =>
      match filters.check path rg column with
      | some sbbf => if sbbf value then matched ++ [rg] else matched
      | none => matched) matched =
      matched ++ l.filter fun rg =>
        ((filters.check path rg column).map fun sbbf => sbbf value).getD false := by
  induction l generalizing matched with
  | nil => simp
  | cons rg l ih =>
      rw [List.foldl_cons, ih, List.filter_cons]
      cases filters.check path rg column with
      | none => simp
      | some sbbf => cases found : sbbf value <;> simp [found]

end Loops

section Multi

variable {tree : FileTree} {filters : BloomFilters} {path : Path} {column : Column}

/-- A loop over row groups that can be read. -/
theorem rowGroupLoop_of_reads {β : Type} (column : Column) {n : Nat}
    (reads : ∀ rg < n, (filters.rowGroup path rg).isSome = true)
    (use : β → Nat → Option (Str → Bool) → β) (b : β) :
    (List.range n).foldlM (fun b rg => do
      let rgReader ← filters.getRowGroup path rg
      return use b rg (rgReader column)) b =
      .ok ((List.range n).foldl (fun b rg => use b rg (filters.check path rg column)) b) := by
  refine foldlM_eq_ok_of_step (fun rg member b => ?_) b
  obtain ⟨rgReader, read⟩ := Option.isSome_iff_exists.mp (reads rg (List.mem_range.mp member))
  simp only [BloomFilters.getRowGroup, BloomFilters.check, read]
  rfl

theorem probeBloom_of_openColumn {reader : ParquetFile}
    (opened : openColumn tree filters path column = .ok reader)
    (reads : ∀ rg < reader.numRowGroups, (filters.rowGroup path rg).isSome = true) (value : Str) :
    probeBloom tree filters path column value =
      .ok (candidates filters path column reader.numRowGroups value) := by
  have loop := rowGroupLoop_of_reads column reads (fun matched rg sbbf =>
    match sbbf with
    | some sbbf => if sbbf value then matched ++ [rg] else matched
    | none => matched) []
  rw [probeBloom, opened]
  refine loop.trans (congrArg Except.ok ?_)
  rw [matchedLoop_eq, List.nil_append, candidates]

theorem probeBloomsMulti_of_openColumn {reader : ParquetFile}
    (opened : openColumn tree filters path column = .ok reader)
    (reads : ∀ rg < reader.numRowGroups, (filters.rowGroup path rg).isSome = true)
    (values : List Str) :
    probeBloomsMulti tree filters path column values =
      .ok (values.filter fun value =>
        !(candidates filters path column reader.numRowGroups value).isEmpty).length := by
  have loop := rowGroupLoop_of_reads column reads (fun hit _ sbbf =>
    match sbbf with
    | some sbbf => probeValues sbbf values.zipIdx hit
    | none => hit) (List.replicate values.length false)
  rw [probeBloomsMulti, opened]
  have counted := congrArg (Except.map fun hit => (hit.filter fun h => h).length) loop
  refine counted.trans (congrArg Except.ok ?_)
  simp only [probeLoop_eq, List.filter_map, List.length_map]
  rfl

/-- **The watchlist probe counts the values that a probe of their own finds**, and
fails exactly when the file cannot be opened, has no such column, or has a row group
that cannot be read. -/
theorem probeBloomsMulti_eq (values : List Str) :
    probeBloomsMulti tree filters path column values = (do
      let reader ← openColumn tree filters path column
      let _ ← (List.range reader.numRowGroups).mapM (filters.getRowGroup path)
      let found ← values.mapM (probeBloom tree filters path column)
      return (found.filter fun rgs => !rgs.isEmpty).length) := by
  cases opened : openColumn tree filters path column with
  | error e =>
      rw [probeBloomsMulti, opened]
      rfl
  | ok reader =>
      cases read : (List.range reader.numRowGroups).mapM (filters.getRowGroup path) with
      | error e =>
          have failed := foldlM_error_of_mapM (fun hit _ rgReader =>
            match rgReader column with
            | some sbbf => probeValues sbbf values.zipIdx hit
            | none => hit) read (List.replicate values.length false)
          rw [probeBloomsMulti, opened]
          have counted := congrArg (Except.map fun hit => (hit.filter fun h => h).length) failed
          refine counted.trans ?_
          simp only [bind, Except.bind, read, Except.map]
      | ok rgReaders =>
          have reads : ∀ rg < reader.numRowGroups, (filters.rowGroup path rg).isSome = true := by
            intro rg inRange
            by_contra unread
            have failed : filters.getRowGroup path rg = .error (.rowGroup rg) := by
              rw [BloomFilters.getRowGroup, Option.not_isSome_iff_eq_none.mp unread]
            obtain ⟨e, fails⟩ := mapM_error_iff.mpr ⟨rg, List.mem_range.mpr inRange, _, failed⟩
            rw [read] at fails
            cases fails
          rw [probeBloomsMulti_of_openColumn opened reads]
          have each : values.mapM (probeBloom tree filters path column) =
              .ok (values.map (candidates filters path column reader.numRowGroups)) :=
            mapM_eq_ok fun value _ => probeBloom_of_openColumn opened reads value
          simp only [bind, Except.bind, read, each, pure, Except.pure, List.filter_map,
            List.length_map]
          rfl

end Multi

/-! ## Over a directory -/

/-- The file at the path holds the value. -/
def holding (tree : FileTree) (column : Column) (v : Str) (path : Path) : Bool :=
  match tree.dataFile? path with
  | some file => !(rowGroupsHolding file.content column fun w => decide (w = v)).isEmpty
  | none => false

/-- Some filter of the file at the path does not deny the value. -/
def notDenied (tree : FileTree) (filters : BloomFilters) (column : Column) (v : Str) (path : Path) :
    Bool :=
  match tree.dataFile? path with
  | some file => !(candidates filters path column file.content.numRowGroups v).isEmpty
  | none => false

/-- The files were written with the column and its filters, all of which can be read,
and no filter denies a value that is in its row group. -/
structure Bloomed (tree : FileTree) (filters : BloomFilters) (column : Column) (path : Path)
    (file : FileTree.DataFile) : Prop where
  found : tree.dataFile? path = some file
  inSchema : (filters.columns path).contains column = true
  present : ∀ g < file.content.numRowGroups, (filters.check path g column).isSome = true
  noFalseNegative : ∀ g v, file.content.HoldsValue column g v → ∀ sbbf,
    filters.check path g column = some sbbf → sbbf v = true

section Directory

variable {tree : FileTree} {filters : BloomFilters} {column : Column}

theorem foldl_add_count {α : Type} (f : α → Nat) (l : List α) (n : Nat) :
    l.foldl (fun n a => n + f a) n = n + (l.map f).sum := by
  induction l generalizing n with
  | nil => rfl
  | cons a l ih => rw [List.foldl_cons, ih, List.map_cons, List.sum_cons, Nat.add_assoc]

theorem length_filter_eq_sum {α : Type} (p : α → Bool) (l : List α) :
    (l.filter p).length = (l.map fun a => if p a then 1 else 0).sum := by
  induction l with
  | nil => rfl
  | cons a l ih =>
      rw [List.filter_cons, List.map_cons, List.sum_cons, ← ih]
      cases p a
      · exact (Nat.zero_add _).symm
      · exact Nat.add_comm _ 1

theorem Bloomed.openColumn {path : Path} {file : FileTree.DataFile}
    (bloomed : Bloomed tree filters column path file) :
    openColumn tree filters path column = .ok file.content := by
  rw [Shootout.openColumn, FileTree.openParquet_of_dataFile bloomed.found]
  simp only [Except.mapError, bind, Except.bind, bloomed.inSchema, if_true]
  rfl

theorem Bloomed.reads {path : Path} {file : FileTree.DataFile}
    (bloomed : Bloomed tree filters column path file) :
    ∀ rg < file.content.numRowGroups, (filters.rowGroup path rg).isSome = true := by
  intro rg inRange
  have present := bloomed.present rg inRange
  rw [BloomFilters.check] at present
  cases read : filters.rowGroup path rg with
  | none =>
      rw [read] at present
      cases present
  | some rgReader => rfl

/-- A file that holds the value is not denied. -/
theorem Bloomed.notDenied {path : Path} {file : FileTree.DataFile}
    (bloomed : Bloomed tree filters column path file) {v : Str}
    (holds : holding tree column v path = true) : notDenied tree filters column v path = true := by
  unfold holding at holds
  unfold Shootout.notDenied
  rw [bloomed.found] at holds ⊢
  simp only [Bool.not_eq_true', List.isEmpty_eq_false_iff] at holds ⊢
  obtain ⟨g, member⟩ := List.exists_mem_of_ne_nil _ holds
  obtain ⟨w, held, same⟩ := mem_rowGroupsHolding.mp member
  obtain rfl := of_decide_eq_true same
  have inRange := rowGroup_lt_of_holdsValue held
  obtain ⟨sbbf, filter⟩ := Option.isSome_iff_exists.mp (bloomed.present g inRange)
  refine List.ne_nil_of_mem (a := g) (List.mem_filter.mpr ⟨List.mem_range.mpr inRange, ?_⟩)
  rw [filter]
  exact bloomed.noFalseNegative g w held sbbf filter

/-- The filters of a file count no less than the file does. -/
theorem Bloomed.count_le {path : Path} {file : FileTree.DataFile}
    (bloomed : Bloomed tree filters column path file) (v : Str) :
    (if holding tree column v path then 1 else 0) ≤
      if Shootout.notDenied tree filters column v path then 1 else 0 := by
  cases holds : holding tree column v path with
  | false => exact Nat.zero_le _
  | true => rw [bloomed.notDenied holds]

/-- The single workload over files that have the column. -/
theorem bloomMatched_eq {files : List Path}
    (all : ∀ path ∈ files, ∃ file, Bloomed tree filters column path file) (v : Str) :
    bloomMatched tree filters files column v =
      .ok (files.map fun path => if notDenied tree filters column v path then 1 else 0).sum := by
  have loop := foldlM_eq_ok_of_step (l := files)
    (f := fun hits path => do
      let rgs ← probeBloom tree filters path column v
      return if rgs.isEmpty then hits else hits + 1)
    (g := fun hits path => hits + if notDenied tree filters column v path then 1 else 0)
    (fun path member hits => by
      obtain ⟨file, bloomed⟩ := all path member
      rw [probeBloom_of_openColumn bloomed.openColumn bloomed.reads]
      refine congrArg Except.ok ?_
      simp only [Shootout.notDenied, bloomed.found]
      cases (candidates filters path column file.content.numRowGroups v).isEmpty <;> rfl) 0
  rw [bloomMatched, loop, foldl_add_count, Nat.zero_add]

/-- The watchlist workload. -/
theorem bloomMatchedMulti_eq {files : List Path}
    (all : ∀ path ∈ files, ∃ file, Bloomed tree filters column path file) (iocs : List Str) :
    bloomMatchedMulti tree filters files column iocs =
      .ok (files.map fun path =>
        (iocs.map fun v => if notDenied tree filters column v path then 1 else 0).sum).sum := by
  have loop := foldlM_eq_ok_of_step (l := files)
    (f := fun hits path => do
      let h ← probeBloomsMulti tree filters path column iocs
      return hits + h)
    (g := fun hits path => hits +
      (iocs.map fun v => if notDenied tree filters column v path then 1 else 0).sum)
    (fun path member hits => by
      obtain ⟨file, bloomed⟩ := all path member
      rw [probeBloomsMulti_of_openColumn bloomed.openColumn bloomed.reads]
      refine congrArg (fun h => Except.ok (hits + h)) ?_
      simp only [Shootout.notDenied, bloomed.found]
      exact length_filter_eq_sum _ iocs) 0
  rw [bloomMatchedMulti, loop, foldl_add_count, Nat.zero_add]

end Directory

/-! ## The index beside the filters -/

section Index

variable {calculateFileHash : Path → Str} {tree : FileTree} {dataDir : Path}
  {columns : List Column} {root : IndexRoot} {column : Column}

/-- The engine has one entry for each file of the directory. -/
theorem keys_perm
    (distinct : Set.InjOn calculateFileHash {path | path ∈ tree.parquetEntries dataDir})
    (once : (tree.parquetEntries dataDir).Nodup) {visited : Path → Column → Prop}
    (known : ∀ path column', visited path column' ↔
      path ∈ tree.parquetEntries dataDir ∧ column' ∈ columns)
    (indexed : column ∈ columns) {paths : Set Path}
    (leaves : Leaves calculateFileHash tree paths visited root) :
    (IndexQueryEngine.new root).fileMap.keys.Perm
      ((tree.parquetEntries dataDir).map calculateFileHash) := by
  refine (List.perm_ext_iff_of_nodup (AList.keys_nodup _) (once.map_on fun path inWalk other inWalk'
    same => distinct inWalk inWalk' same)).mpr fun fileHash => ?_
  rw [← AList.mem_keys, FiniteMap.mem_iff_lookup, List.mem_map]
  simp only [IndexQueryEngine.new_fileMap, Option.map_eq_some_iff]
  constructor
  · rintro ⟨path, indexDir, present, -⟩
    obtain ⟨path', column', visit, hashed⟩ := leaves.present fileHash indexDir present
    exact ⟨path', ((known path' column').mp visit).1, hashed⟩
  · rintro ⟨path, inWalk, rfl⟩
    obtain ⟨file, -, -, keys⟩ :=
      leaves.covered path column ((known path column).mpr ⟨inWalk, indexed⟩)
    obtain ⟨indexDir, present, -⟩ := IndexRoot.lookup_of_fst keys
    exact ⟨_, indexDir, present, rfl⟩

/-- About a file it has content of, the index answers as the file does. -/
theorem termAnswer_isEmpty {path : Path} {file : FileTree.DataFile}
    (found : tree.dataFile? path = some file) (nulFree : NulFree file.content column)
    {content : Str → Column → Option ParquetFile} {fileHash : Str}
    (held : content fileHash column = some file.content) {v : Str} :
    (IndexQueryEngine.termAnswer content column v fileHash).isEmpty =
      !holding tree column v path := by
  simp only [IndexQueryEngine.termAnswer, contentAnswer, held, Option.map_some, Option.getD_some,
    rowGroupsHolding_matchesTerm nulFree, holding, found, Bool.not_not]

/-- **What the engine has of the directory**: one entry for each file, which opens and
answers as the file does. -/
theorem entries_of_build (own : OwnFiles {other | other ∈ columns})
    (distinct : Set.InjOn calculateFileHash {path | path ∈ tree.parquetEntries dataDir})
    (once : (tree.parquetEntries dataDir).Nodup)
    (ok : buildAll calculateFileHash tree ∅
      (columns.map fun column => ⟨dataDir, column, false⟩) = .ok root)
    (indexed : column ∈ columns)
    (readable : ∀ path ∈ tree.parquetEntries dataDir, ∃ file,
      tree.dataFile? path = some file ∧ NulFree file.content column) :
    (IndexQueryEngine.new root).fileMap.keys.Perm
        ((tree.parquetEntries dataDir).map calculateFileHash) ∧
      (∀ fileHash ∈ (IndexQueryEngine.new root).fileMap, Opens column) ∧
      ∃ content, WrittenFrom root content ∧ ∀ v, ∀ path ∈ tree.parquetEntries dataDir,
        (IndexQueryEngine.termAnswer content column v (calculateFileHash path)).isEmpty =
          !holding tree column v path := by
  have known : ∀ path column', Requested tree
      (columns.map fun column => ⟨dataDir, column, false⟩) path column' ↔
      path ∈ tree.parquetEntries dataDir ∧ column' ∈ columns := fun path column' =>
    requested_columns_iff
  have within : ∀ path column', Requested tree
      (columns.map fun column => ⟨dataDir, column, false⟩) path column' → column' ∈ columns :=
    fun path column' asked => ((known path column').mp asked).2
  have leaves := leaves_of_buildAll
    (own.mono fun column' asked => asked.elim fun path => within path column')
    (distinct.mono requested_columns_subset) ok
  choose content written content_iff using
    leaves.content own within (distinct.mono requested_columns_subset) indexed
  obtain ⟨any, writtenAny⟩ := writtenFrom_of_buildAll ok
  have keys := keys_perm distinct once known indexed leaves
  refine ⟨keys, fun fileHash member => ?_, _, writtenAny.update written, fun v path member => ?_⟩
  · obtain ⟨path, inWalk, -⟩ := List.mem_map.mp (keys.mem_iff.mp (AList.mem_keys.mp member))
    exact leaves.opens ((known path column).mpr ⟨inWalk, indexed⟩)
  obtain ⟨file, found, nulFree⟩ := readable path member
  have visit := (known path column).mpr ⟨member, indexed⟩
  have held := (content_iff (calculateFileHash path) path ⟨column, visit⟩ rfl
    file.content).mpr ⟨visit, file, found, rfl⟩
  exact termAnswer_isEmpty found nulFree (by rw [Function.update_self, held])

/-- Summing over the engine's entries is summing over the files. -/
theorem sum_keys_eq {keys : List Str} {files : List Path}
    (perm : keys.Perm (files.map calculateFileHash)) {ofKey : Str → Nat} {ofPath : Path → Nat}
    (same : ∀ path ∈ files, ofKey (calculateFileHash path) = ofPath path) :
    (keys.map ofKey).sum = (files.map ofPath).sum := by
  rw [(perm.map ofKey).sum_eq, List.map_map]
  exact congrArg List.sum (List.map_congr_left same)

/-- The pairs of a file and a value can be counted by file or by value. -/
theorem sum_by_value (files : List Path) (iocs : List Str) (holds : Path → Str → Bool) :
    (files.map fun path => (iocs.map fun v => if holds path v then 1 else 0).sum).sum =
      (iocs.map fun v => (files.filter fun path => holds path v).length).sum := by
  have exchanged := Multiset.sum_map_sum_map files iocs
    (f := fun path v => if holds path v then 1 else 0)
  simp only [Multiset.map_coe, Multiset.sum_coe] at exchanged
  rw [exchanged]
  exact congrArg List.sum (List.map_congr_left fun v _ => (length_filter_eq_sum _ _).symm)

/-- **The index is exact, and names no more than the filters do**: each lookup reports the
files that hold the value, and each workload finds at least as many with the filters as
with the index. -/
theorem index_beside_blooms (own : OwnFiles {other | other ∈ columns})
    (distinct : Set.InjOn calculateFileHash {path | path ∈ tree.parquetEntries dataDir})
    (once : (tree.parquetEntries dataDir).Nodup)
    (ok : buildAll calculateFileHash tree ∅
      (columns.map fun column => ⟨dataDir, column, false⟩) = .ok root)
    (indexed : column ∈ columns) {filters : BloomFilters}
    (bloomed : ∀ path ∈ tree.parquetEntries dataDir, ∃ file,
      Bloomed tree filters column path file ∧ NulFree file.content column)
    (needle : Str) (iocs : List Str) :
    ∃ results hits count hitsMulti,
      ((IndexQueryEngine.new root).exactSearch root column needle).1 = .ok results ∧
      results.length = ((tree.parquetEntries dataDir).filter (holding tree column needle)).length ∧
      bloomMatched tree filters (tree.parquetEntries dataDir) column needle = .ok hits ∧
      results.length ≤ hits ∧
      ((IndexQueryEngine.new root).exactSearchMulti root column iocs).1 = .ok count ∧
      count = (iocs.map fun v =>
        ((tree.parquetEntries dataDir).filter (holding tree column v)).length).sum ∧
      bloomMatchedMulti tree filters (tree.parquetEntries dataDir) column iocs = .ok hitsMulti ∧
      count ≤ hitsMulti := by
  obtain ⟨keys, opens, content, written, answers⟩ := entries_of_build own distinct once ok indexed
    fun path member => by
      obtain ⟨file, held, nulFree⟩ := bloomed path member
      exact ⟨file, held.found, nulFree⟩
  have counts : ∀ v, ∀ path ∈ tree.parquetEntries dataDir,
      (if (IndexQueryEngine.termAnswer content column v (calculateFileHash path)).isEmpty
        then 0 else 1) = if holding tree column v path then 1 else 0 := by
    intro v path member
    rw [answers v path member]
    cases holding tree column v path <;> rfl
  have filtered : ∀ path ∈ tree.parquetEntries dataDir,
      ∃ file, Bloomed tree filters column path file := by
    intro path member
    obtain ⟨file, held, -⟩ := bloomed path member
    exact ⟨file, held⟩
  have fewer : ∀ v, ∀ path ∈ tree.parquetEntries dataDir,
      (if holding tree column v path then 1 else 0) ≤
        if notDenied tree filters column v path then 1 else 0 := by
    intro v path member
    obtain ⟨file, held⟩ := filtered path member
    exact held.count_le v
  refine ⟨_, _, ((tree.parquetEntries dataDir).map fun path =>
      (iocs.map fun v => if holding tree column v path then 1 else 0).sum).sum, _,
    IndexQueryEngine.exactSearch_written written (.refl _ _) opens needle, ?_,
    bloomMatched_eq filtered needle, ?_, ?_, ?_, bloomMatchedMulti_eq filtered iocs, ?_⟩
  · rw [length_reported, sum_keys_eq keys (counts needle), length_filter_eq_sum]
  · rw [length_reported, sum_keys_eq keys (counts needle)]
    exact List.sum_le_sum (fewer needle)
  · simp only [IndexQueryEngine.exactSearchMulti,
      IndexQueryEngine.countFiles_written written iocs _ opens (.refl _ _)]
    refine congrArg Except.ok (sum_keys_eq keys fun path member => ?_)
    exact congrArg List.sum (List.map_congr_left fun v _ => counts v path member)
  · exact sum_by_value _ iocs fun path v => holding tree column v path
  · exact List.sum_le_sum fun path member => List.sum_le_sum fun v _ => fewer v path member

end Index

/-- Filters that go by the first character: `alan` is not denied where `alice` is. -/
def initialFilters : BloomFilters where
  columns _ := [sampleColumn]
  rowGroup _ g := some fun column => some fun v =>
    (sampleFile.content.rowGroups[g]?.toList.flatMap fun rowGroup =>
      RowGroup.values rowGroup column).any fun w => decide (w.head? = v.head?)

theorem bloomed_initialFilters :
    Bloomed (singleTree samplePath sampleFile) initialFilters sampleColumn samplePath
      sampleFile where
  found := dataFile_singleTree samplePath sampleFile
  inSchema := by decide
  present _ _ := rfl
  noFalseNegative g v holds sbbf filter := by
    cases filter
    obtain ⟨rowGroup, position, member⟩ := holdsValue_iff.mp holds
    rw [position]
    exact List.any_eq_true.mpr ⟨v, by simpa using member, decide_eq_true rfl⟩

/-- The filters do not deny `alan`, which the index does not find. -/
theorem index_beside_blooms_sample :
    ∃ root results hits count hitsMulti,
      ((IndexQueryEngine.new root).exactSearch root sampleColumn "alan".toList).1 = .ok results ∧
      bloomMatched (singleTree samplePath sampleFile) initialFilters [samplePath] sampleColumn
        "alan".toList = .ok hits ∧ results.length ≤ hits ∧
      ((IndexQueryEngine.new root).exactSearchMulti root sampleColumn
        ["alice".toList, "alan".toList]).1 = .ok count ∧
      bloomMatchedMulti (singleTree samplePath sampleFile) initialFilters [samplePath] sampleColumn
        ["alice".toList, "alan".toList] = .ok hitsMulti ∧ count ≤ hitsMulti := by
  obtain ⟨root, ok⟩ : ∃ root, buildAll sampleHash (singleTree samplePath sampleFile) ∅
      ([sampleColumn].map fun column => ⟨sampleDir, column, false⟩) = .ok root := ⟨_, rfl⟩
  have nulFree : NulFree sampleFile.content sampleColumn := forall_holdsValue_iff.mpr (by decide)
  have distinct : Set.InjOn sampleHash
      {path | path ∈ (singleTree samplePath sampleFile).parquetEntries sampleDir} := by
    intro path member other member' _
    rw [List.mem_singleton.mp member, List.mem_singleton.mp member']
  have own : OwnFiles {other | other ∈ [sampleColumn]} :=
    ownFiles_sampleColumn.mono fun other member => List.mem_singleton.mp member
  have once : ((singleTree samplePath sampleFile).parquetEntries sampleDir).Nodup :=
    List.nodup_singleton _
  obtain ⟨results, hits, count, hitsMulti, searched, -, probed, fewer, batch, -, probes, less⟩ :=
    index_beside_blooms own distinct once ok (List.mem_singleton_self _)
      (fun path member => by
        rw [List.mem_singleton.mp member]
        exact ⟨sampleFile, bloomed_initialFilters, nulFree⟩)
      "alan".toList ["alice".toList, "alan".toList]
  exact ⟨root, results, hits, count, hitsMulti, searched, probed, fewer, batch, probes, less⟩

end Shootout

end Pdq
