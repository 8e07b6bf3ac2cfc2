/- Pdq.Index.Overlap -- index_file, step by step, beside a writer.

`index_file` opens the file, reads each row group through a handle of its own,
then asks for modification time and size, then writes.  A writer may replace the
file between any two of these steps.  `seen` and `stamped` are ghosts: the
versions the content was read from, and the version the stamp was read from.
`phaseInvariant_of_run` follows them through any interleaving.  The stamp is
read last, so it can name a version newer than the content; when it does not
name the final version without all of the content being from that version, the
next run leaves the index right (`overlap_caught`). -/
import Pdq.Index.Incremental

namespace Pdq

open Theory

set_option autoImplicit false

/-! ## The machine -/

/-- Where `index_file` stands. -/
inductive Phase where
  | opening
  /-- `next` is the row group to be read. -/
  | reading (numRowGroups next : Nat) (keys : FstSet)
  /-- The stamp is read, metadata.txt is not written. -/
  | recording (mtime size : UInt64) (numRowGroups : Nat) (keys : FstSet)
  /-- metadata.txt is written, the FST is not. -/
  | storing (keys : FstSet)
  | done
  | failed

structure Overlap where
  current : FileTree.DataFile
  indexDir : IndexDir
  phase : Phase
  seen : List FileTree.DataFile
  stamped : Option FileTree.DataFile

namespace Overlap

def start (file : FileTree.DataFile) (indexDir : IndexDir) : Overlap :=
  ⟨file, indexDir, .opening, [], none⟩

section Machine

variable (filePath : Path) (column : Column)

/-- One step of `Indexer::index_file`. -/
def advance (s : Overlap) : Overlap :=
  match s.phase with
  | .opening =>
      { s with phase := .reading s.current.content.numRowGroups 0 SortedSet.empty
               seen := [s.current] }
  | .reading numRowGroups next keys =>
      if next < numRowGroups then
        match s.current.content.rowGroups[next]? with
        | some rowGroup =>
            { s with phase := .reading numRowGroups (next + 1)
                       (keys.insertAll (rowGroupKeys column next rowGroup))
                     seen := s.current :: s.seen }
        | none => { s with phase := .failed }
      else
        { s with phase := .recording s.current.mtime s.current.size numRowGroups keys
                 stamped := some s.current }
  | .recording mtime size numRowGroups keys =>
      { s with phase := .storing keys
               indexDir := { s.indexDir with
                 metadata := some (.text (metadataContent filePath mtime size numRowGroups)) } }
  | .storing keys =>
      if fstFile column = none then { s with phase := .failed }
      else { s with phase := .done
                    indexDir := s.indexDir.withFst column (.valid keys) }
  | .done | .failed => s

/-- The states reached when the writer may replace the file by any version of
`versions` between two steps of the indexer. -/
inductive Run (versions : Set FileTree.DataFile) (s₀ : Overlap) : Overlap → Prop
  | refl : Run versions s₀ s₀
  | advance {s : Overlap} (run : Run versions s₀ s) : Run versions s₀ (s.advance filePath column)
  | replace {s : Overlap} (run : Run versions s₀ s) (file : FileTree.DataFile)
      (known : file ∈ versions) : Run versions s₀ { s with current := file }

/-- The keys of the row groups below `next`. -/
def KeysBelow (content : ParquetFile) (next : Nat) (keys : FstSet) : Prop :=
  ∀ key, key ∈ keys ↔ ∃ g v, g < next ∧ content.HoldsValue column g v ∧ key = keyBytes v g

/-- The content so far is that of `file`, if every part of it was read from
`file`. -/
def ReadFrom (seen : List FileTree.DataFile) (numRowGroups next : Nat) (keys : FstSet) : Prop :=
  ∀ file, (∀ version ∈ seen, version = file) →
    numRowGroups = file.content.numRowGroups ∧ KeysBelow column file.content next keys

/-- What holds at each phase. -/
def PhaseInvariant (indexDir : IndexDir) (s : Overlap) : Prop :=
  match s.phase with
  | .opening => s.indexDir = indexDir ∧ s.stamped = none
  | .failed => (s.indexDir = indexDir ∧ s.stamped = none) ∨ fstFile column = none
  | .reading numRowGroups next keys =>
      s.indexDir = indexDir ∧ s.stamped = none ∧ s.seen ≠ [] ∧ next ≤ numRowGroups ∧
        ReadFrom column s.seen numRowGroups next keys
  | .recording mtime size numRowGroups keys =>
      s.indexDir = indexDir ∧ s.seen ≠ [] ∧
        ReadFrom column s.seen numRowGroups numRowGroups keys ∧
        ∃ file, s.stamped = some file ∧ file.mtime = mtime ∧ file.size = size
  | .storing keys =>
      ∃ file numRowGroups, s.stamped = some file ∧ s.seen ≠ [] ∧
        ReadFrom column s.seen numRowGroups numRowGroups keys ∧
        s.indexDir = { indexDir with
          metadata := some (.text (metadataContent filePath file.mtime file.size numRowGroups)) }
  | .done =>
      ∃ file numRowGroups keys, s.stamped = some file ∧ s.seen ≠ [] ∧
        ReadFrom column s.seen numRowGroups numRowGroups keys ∧
        s.indexDir = { indexDir with
          metadata := some (.text (metadataContent filePath file.mtime file.size numRowGroups))
          }.withFst column (.valid keys)

end Machine

section Invariant

variable {filePath : Path} {column : Column} {versions : Set FileTree.DataFile} {s₀ s : Overlap}
  {indexDir : IndexDir}

theorem keysBelow_zero (content : ParquetFile) :
    KeysBelow column content 0 SortedSet.empty := by
  intro key
  simp

/-- Reading one more row group. -/
theorem keysBelow_succ {content : ParquetFile} {next : Nat} {keys : FstSet} {rowGroup : RowGroup}
    (below : KeysBelow column content next keys)
    (position : content.rowGroups[next]? = some rowGroup) :
    KeysBelow column content (next + 1) (keys.insertAll (rowGroupKeys column next rowGroup)) := by
  intro key
  rw [SortedSet.mem_insertAll, below key, mem_rowGroupKeys]
  constructor
  · rintro (⟨row, member, v, held, rfl⟩ | ⟨g, v, lower, holds, rfl⟩)
    · exact ⟨next, v, Nat.lt_succ_self next, ⟨rowGroup, position, row, member, held⟩, rfl⟩
    · exact ⟨g, v, Nat.lt_succ_of_lt lower, holds, rfl⟩
  · rintro ⟨g, v, lower, holds, rfl⟩
    rcases Nat.lt_succ_iff_lt_or_eq.mp lower with lower | rfl
    · exact Or.inr ⟨g, v, lower, holds, rfl⟩
    · obtain ⟨rowGroup', position', row, member, held⟩ := holds
      rw [position] at position'
      cases position'
      exact Or.inl ⟨row, member, v, held, rfl⟩

/-- When all row groups are read the keys are those of the column. -/
theorem eq_columnKeys {content : ParquetFile} {keys : FstSet}
    (below : KeysBelow column content content.numRowGroups keys) :
    keys = columnKeys content column := by
  refine SortedSet.ext_mem fun key => ?_
  rw [below key, mem_columnKeys]
  constructor
  · rintro ⟨g, v, -, holds, rfl⟩
    exact ⟨g, v, holds, rfl⟩
  · rintro ⟨g, v, holds, rfl⟩
    exact ⟨g, v, rowGroup_lt_of_holdsValue holds, holds, rfl⟩

/-- One step of the indexer keeps the invariant. -/
theorem phaseInvariant_advance (held : PhaseInvariant filePath column indexDir s) :
    PhaseInvariant filePath column indexDir (s.advance filePath column) := by
  obtain ⟨current, dir, phase, seen, stamped⟩ := s
  cases phase with
  | opening =>
      obtain ⟨same, unstamped⟩ := held
      refine ⟨same, unstamped, List.cons_ne_nil _ _, Nat.zero_le _, fun file all => ?_⟩
      obtain rfl := all current List.mem_cons_self
      exact ⟨rfl, keysBelow_zero _⟩
  | reading numRowGroups next keys =>
      obtain ⟨same, unstamped, nonempty, bound, readFrom⟩ := held
      by_cases more : next < numRowGroups
      · cases position : current.content.rowGroups[next]? with
        | none =>
            simp only [advance, if_pos more, position]
            exact Or.inl ⟨same, unstamped⟩
        | some rowGroup =>
            simp only [advance, if_pos more, position]
            refine ⟨same, unstamped, List.cons_ne_nil _ _, more, fun file all => ?_⟩
            obtain rfl := all current List.mem_cons_self
            obtain ⟨count, below⟩ := readFrom current fun version member =>
              all version (List.mem_cons_of_mem _ member)
            exact ⟨count, keysBelow_succ below position⟩
      · simp only [advance, if_neg more]
        obtain rfl : next = numRowGroups := by omega
        exact ⟨same, nonempty, readFrom, current, rfl, rfl, rfl⟩
  | recording mtime size numRowGroups keys =>
      obtain ⟨same, nonempty, readFrom, file, stamp, rfl, rfl⟩ := held
      have before : dir = indexDir := same
      exact ⟨file, numRowGroups, stamp, nonempty, readFrom, by rw [← before]; rfl⟩
  | storing keys =>
      obtain ⟨file, numRowGroups, stamp, nonempty, readFrom, written⟩ := held
      have before : dir = _ := written
      by_cases noName : fstFile column = none
      · simp only [advance, if_pos noName]
        exact Or.inr noName
      · simp only [advance, if_neg noName]
        exact ⟨file, numRowGroups, keys, stamp, nonempty, readFrom, by rw [before]⟩
  | done => exact held
  | failed => exact held

/-- **The invariant holds at every point of every interleaving.** -/
theorem phaseInvariant_of_run {file : FileTree.DataFile}
    (run : Run filePath column versions (start file indexDir) s) :
    PhaseInvariant filePath column indexDir s := by
  induction run with
  | refl => exact ⟨rfl, rfl⟩
  | advance _ ih => exact phaseInvariant_advance ih
  | replace _ file _ ih => exact ih

/-- The versions read and the current one are versions of the file. -/
theorem known_of_run {file : FileTree.DataFile} (known : file ∈ versions)
    (run : Run filePath column versions (start file indexDir) s) :
    s.current ∈ versions ∧ ∀ version, s.stamped = some version → version ∈ versions := by
  induction run with
  | refl => exact ⟨known, fun _ stamp => nomatch stamp⟩
  | replace _ file known' ih => exact ⟨known', ih.2⟩
  | @advance s _ ih =>
      obtain ⟨current, dir, phase, seen, stamped⟩ := s
      cases phase with
      | reading numRowGroups next keys =>
          by_cases more : next < numRowGroups
          · cases position : current.content.rowGroups[next]? <;>
              simpa only [advance, if_pos more, position] using ih
          · simp only [advance, if_neg more]
            refine ⟨ih.1, fun version stamp => ?_⟩
            cases stamp
            exact ih.1
      | opening => exact ih
      | recording mtime size numRowGroups keys => exact ih
      | storing keys =>
          by_cases noName : fstFile column = none
          · simpa only [advance, if_pos noName] using ih
          · simpa only [advance, if_neg noName] using ih
      | done => exact ih
      | failed => exact ih

/-! ## Without a writer, this is index_file -/

/-- Everything read so far was read from `file`, the current version. -/
def Quiet (file : FileTree.DataFile) (s : Overlap) : Prop :=
  s.current = file ∧ (∀ version ∈ s.seen, version = file) ∧
    ∀ version, s.stamped = some version → version = file

theorem quiet_advance {file : FileTree.DataFile} (quiet : Quiet file s) :
    Quiet file (s.advance filePath column) := by
  obtain ⟨current, dir, phase, seen, stamped⟩ := s
  obtain ⟨rfl, seenSame, stampSame⟩ := quiet
  cases phase with
  | opening => exact ⟨rfl, by simp [advance], stampSame⟩
  | reading numRowGroups next keys =>
      by_cases more : next < numRowGroups
      · cases position : current.content.rowGroups[next]? with
        | none =>
            simp only [advance, if_pos more, position]
            exact ⟨rfl, seenSame, stampSame⟩
        | some rowGroup =>
            simp only [advance, if_pos more, position]
            refine ⟨rfl, fun version member => ?_, stampSame⟩
            rcases List.mem_cons.mp member with rfl | member
            · rfl
            · exact seenSame version member
      · simp only [advance, if_neg more]
        exact ⟨rfl, seenSame, fun version stamp => (Option.some.inj stamp).symm⟩
  | recording mtime size numRowGroups keys => exact ⟨rfl, seenSame, stampSame⟩
  | storing keys =>
      by_cases noName : fstFile column = none
      · simp only [advance, if_pos noName]
        exact ⟨rfl, seenSame, stampSame⟩
      · simp only [advance, if_neg noName]
        exact ⟨rfl, seenSame, stampSame⟩
  | done => exact ⟨rfl, seenSame, stampSame⟩
  | failed => exact ⟨rfl, seenSame, stampSame⟩

/-- Without replacement the row groups are all read, and the writes follow. -/
theorem reading_completes (named : fstFile column ≠ none) (remaining : Nat)
    {numRowGroups next : Nat} {keys : FstSet}
    (phase : s.phase = .reading numRowGroups next keys)
    (count : numRowGroups = s.current.content.numRowGroups)
    (left : next + remaining = numRowGroups) :
    ∃ k, ((advance filePath column)^[k] s).phase = .done := by
  induction remaining generalizing s next keys with
  | zero =>
      have last : ¬ next < numRowGroups := by omega
      exact ⟨3, by simp [advance, phase, last, named]⟩
  | succ remaining ih =>
      have more : next < numRowGroups := by omega
      obtain ⟨rowGroup, position⟩ :
          ∃ rowGroup, s.current.content.rowGroups[next]? = some rowGroup :=
        ⟨_, List.getElem?_eq_getElem (by rw [count] at more; exact more)⟩
      have step : s.advance filePath column =
          { s with phase := .reading numRowGroups (next + 1)
                     (keys.insertAll (rowGroupKeys column next rowGroup))
                   seen := s.current :: s.seen } := by
        simp only [advance, phase, if_pos more, position]
      obtain ⟨k, finished⟩ := ih (s := s.advance filePath column) (by rw [step])
        (by rw [step]; exact count)
        (by omega)
      exact ⟨k + 1, by rwa [Function.iterate_succ_apply]⟩

/-- **Uninterrupted, the machine does what `index_file` does**, when the column names a
file. -/
theorem uninterrupted (filePath : Path) {column : Column} (named : fstFile column ≠ none)
    (file : FileTree.DataFile) (indexDir : IndexDir) :
    ∃ k, ((advance filePath column)^[k] (start file indexDir)).phase = .done ∧
      ((advance filePath column)^[k] (start file indexDir)).indexDir =
        indexDir.indexed filePath file column := by
  obtain ⟨k, finished⟩ := reading_completes named file.content.numRowGroups
    (s := advance filePath column (start file indexDir)) rfl rfl (Nat.zero_add _)
  rw [← Function.iterate_succ_apply] at finished
  have kept : ∀ k, PhaseInvariant filePath column indexDir
      ((advance filePath column)^[k] (start file indexDir)) ∧
      Quiet file ((advance filePath column)^[k] (start file indexDir)) := by
    intro k
    induction k with
    | zero => exact ⟨⟨rfl, rfl⟩, rfl, by simp [start], fun _ stamp => nomatch stamp⟩
    | succ k ih =>
        rw [Function.iterate_succ_apply']
        exact ⟨phaseInvariant_advance ih.1, quiet_advance ih.2⟩
  obtain ⟨held, -, seenSame, stampSame⟩ := kept (k + 1)
  refine ⟨k + 1, finished, ?_⟩
  simp only [PhaseInvariant, finished] at held
  obtain ⟨version, numRowGroups, keys, stamp, -, readFrom, written⟩ := held
  obtain rfl := stampSame version stamp
  obtain ⟨rfl, below⟩ := readFrom version seenSame
  rw [written, eq_columnKeys below]
  rfl

/-! ## The next run -/

variable {calculateFileHash : Path → Str} {tree : FileTree} {root root' : IndexRoot}
  {dataDir : Path} {history : Path → Set FileTree.DataFile}

/-- **An overlap is caught by the next run** when the stamp was not read from the
final version, or all the content was read from it too. -/
theorem overlap_caught (differ : StampsDiffer history) {file : FileTree.DataFile}
    (known : file ∈ history filePath)
    (honest : ∀ version ∈ history filePath, indexDir.UpToDate version column →
      indexDir.fst column = some (.valid (columnKeys version.content column)))
    (run : Run filePath column (history filePath) (start file indexDir) s)
    (returned : s.phase = .done ∨ s.phase = .failed)
    (settled : s.stamped = some s.current → ∀ version ∈ s.seen, version = s.current)
    (found : tree.dataFile? filePath = some s.current)
    (left : root.dir (calculateFileHash filePath) = s.indexDir)
    (noFeed : ¬ '\n' ∈ filePath)
    (distinct : ∀ other ∈ tree.parquetEntries dataDir,
      calculateFileHash other = calculateFileHash filePath → other = filePath)
    (inWalk : filePath ∈ tree.parquetEntries dataDir)
    (ok : buildIndex calculateFileHash tree root dataDir column = .ok root') :
    (root'.dir (calculateFileHash filePath)).fst column =
      some (.valid (columnKeys s.current.content column)) := by
  have named := named_of_buildIndexExt inWalk ok
  rw [buildIndex_keys_iff distinct inWalk found ok, left]
  refine or_iff_not_imp_left.mpr fun vouched => ?_
  have upToDate := not_not.mp vouched
  have held := phaseInvariant_of_run run
  obtain ⟨final, stampKnown⟩ := known_of_run known run
  rcases returned with finished | failed
  · simp only [PhaseInvariant, finished] at held
    obtain ⟨version, numRowGroups, keys, stamp, -, readFrom, written⟩ := held
    have one : OneLine filePath :=
      oneLine_of_hasParquetExtension (List.mem_filter.mp inWalk).2 noFeed
    -- The record vouches for the final version, so the stamp is that version's.
    obtain ⟨-, contents, text, recorded⟩ := upToDate
    rw [written, IndexDir.withFst_metadata] at text
    cases text
    rw [storedStamp_content one] at recorded
    obtain ⟨mtime, size⟩ := Prod.mk.inj (Option.some.inj recorded)
    have same : version = s.current :=
      eq_of_stamp differ (stampKnown version stamp) final mtime size
    subst same
    obtain ⟨rfl, below⟩ := readFrom s.current (settled stamp)
    rw [written, eq_columnKeys below]
    exact IndexDir.withFst_fst_same _ named rfl _
  · simp only [PhaseInvariant, failed] at held
    obtain ⟨same, -⟩ := held.resolve_right named
    rw [same] at upToDate ⊢
    exact honest s.current final upToDate

end Invariant

/-- Open, read the one row group, read the stamp, and only then replace. -/
def replacedAfterStamp : Overlap :=
  let step := advance samplePath sampleColumn
  step (step { step (step (step (start alice .empty))) with current := bob })

/-- Open, read the one row group, replace, and only then read the stamp. -/
def replacedBeforeStamp : Overlap :=
  let step := advance samplePath sampleColumn
  step (step (step { step (step (start alice .empty)) with current := bob }))

theorem overlap_caught_sample :
    ∃ root', buildIndex sampleHash (singleTree samplePath bob)
        (AList.insert (sampleHash samplePath) replacedAfterStamp.indexDir ∅) sampleDir
        sampleColumn = .ok root' ∧
      (root'.dir (sampleHash samplePath)).fst sampleColumn =
        some (.valid (columnKeys bob.content sampleColumn)) := by
  have run : Run samplePath sampleColumn (personHistory samplePath) (start alice .empty)
      replacedAfterStamp :=
    .advance (.advance (.replace (.advance (.advance (.advance .refl))) bob (Or.inr rfl)))
  have built : buildIndex sampleHash (singleTree samplePath bob)
      (AList.insert (sampleHash samplePath) replacedAfterStamp.indexDir ∅) sampleDir
      sampleColumn = .ok _ := buildIndex_single named_sampleColumn (parquetEntries_sample bob) rfl
  have distinct : ∀ other ∈ (singleTree samplePath bob).parquetEntries sampleDir,
      sampleHash other = sampleHash samplePath → other = samplePath :=
    fun other member _ => List.mem_singleton.mp member
  have left : IndexRoot.dir (AList.insert (sampleHash samplePath) replacedAfterStamp.indexDir ∅)
      (sampleHash samplePath) = replacedAfterStamp.indexDir := IndexRoot.dir_insert_self ∅ _ _
  have honest : ∀ version ∈ personHistory samplePath,
      IndexDir.empty.UpToDate version sampleColumn → IndexDir.empty.fst sampleColumn =
        some (.valid (columnKeys version.content sampleColumn)) :=
    fun _ _ upToDate => absurd rfl upToDate.1
  have settled : replacedAfterStamp.stamped = some replacedAfterStamp.current →
      ∀ version ∈ replacedAfterStamp.seen, version = replacedAfterStamp.current := by
    intro stamp
    have mtime : alice.mtime = bob.mtime := congrArg FileTree.DataFile.mtime (Option.some.inj stamp)
    exact absurd mtime (by decide)
  exact ⟨_, built, overlap_caught personHistory_differ (Or.inl rfl) honest run (Or.inl rfl) settled
    (dataFile_singleTree samplePath bob) left (by decide) distinct (List.mem_singleton.mpr rfl)
    built⟩

/-- The FST of the old content stays, under the stamp of the new. -/
theorem overlap_missed_refuted :
    Run samplePath sampleColumn (personHistory samplePath) (start alice .empty)
        replacedBeforeStamp ∧
      replacedBeforeStamp.phase = .done ∧ replacedBeforeStamp.current = bob ∧
      buildIndex sampleHash (singleTree samplePath bob)
          (AList.insert (sampleHash samplePath) replacedBeforeStamp.indexDir ∅) sampleDir
          sampleColumn =
        .ok (AList.insert (sampleHash samplePath) replacedBeforeStamp.indexDir ∅) ∧
      (IndexRoot.dir (AList.insert (sampleHash samplePath) replacedBeforeStamp.indexDir ∅)
          (sampleHash samplePath)).fst sampleColumn ≠
        some (.valid (columnKeys bob.content sampleColumn)) := by
  refine ⟨.advance (.advance (.advance (.replace (.advance (.advance .refl)) bob (Or.inr rfl)))),
    rfl, rfl, ?_, by decide⟩
  rw [buildIndex, buildIndex_of_single (parquetEntries_sample bob)]
  exact indexEntry_of_skipped rfl

end Overlap

end Pdq
