/- Pdq.Index.Processes -- index runs side by side.

Several `build_index_ext` calls run at once over one index directory and the same
data files.  Nothing keeps them apart: each decides from what it finds on disk,
writes metadata.txt and the FST of a file in pieces, and may be killed anywhere.
The decision of `needs_indexing` is one step here.  Files of the index only ever
appear, so the decision is that of the moment of its last look at the disk.

Every process writes the same into the same file.  So when all have finished the
index directory is the one the calls leave one after the other
(`processes_agree`), and a search that meets no torn file is right about every
FST that is there, however many processes are under way or were killed
(`lookup_beside_processes`). -/
import Mathlib.Algebra.Order.BigOperators.Group.Finset
import Mathlib.Data.Fintype.BigOperators
import Pdq.Index.Convergence
import Pdq.Index.Crash
import Pdq.Theory.SharedFiles

namespace Pdq

open Theory KeyFormat SharedFiles

set_option autoImplicit false

/-! ## The machine -/

/-- A file of a sub-directory. -/
inductive IndexFile where
  | metadata
  | fst (name : FstName)
  deriving DecidableEq

/-- A file of the index: the file hash, and the file below it. -/
abbrev Location := Str × IndexFile

/-- The bytes of an FST file: what the builder writes for a key set, and what
opening and validating a file makes of its bytes. -/
structure FstCodec where
  encode : FstSet → Bytes
  decode : Bytes → FstFile

def FstCodec.RoundTrips (codec : FstCodec) : Prop :=
  ∀ set, codec.decode (codec.encode set) = .valid set

/-- Where a process stands with the file it indexes. -/
inductive Stage where
  /-- Between two files. -/
  | walking
  | making (path : Path) (file : FileTree.DataFile)
  | recording (path : Path) (file : FileTree.DataFile)
  | storing (path : Path) (file : FileTree.DataFile)

/-- The file it indexes. -/
def Stage.path? : Stage → Option Path
  | .walking => none
  | .making path _ | .recording path _ | .storing path _ => some path

/-- One `build_index_ext` call under way. -/
structure Process where
  todo : List Path
  stage : Stage

/-- How much a process has before it. -/
def Process.left (process : Process) : Nat :=
  4 * process.todo.length + match process.stage with
    | .walking => 0
    | .storing _ _ => 1
    | .recording _ _ => 2
    | .making _ _ => 3

structure Processes (H : Type) where
  files : Files Location H UInt8
  dirs : Str → Bool
  process : H → Process

section Machine

variable (calculateFileHash : Path → Str) (codec : FstCodec)

/-- The file being written, and what is written into it.  A process that cannot create the
FST has failed, and steps no more. -/
def Stage.writing (column : Column) : Stage → Option (Location × Bytes)
  | .recording path file => some ((calculateFileHash path, .metadata),
      utf8 (metadataContent path file.mtime file.size file.content.numRowGroups))
  | .storing path file => (fstFile column).map fun name =>
      ((calculateFileHash path, .fst name), codec.encode (columnKeys file.content column))
  | .walking | .making _ _ => none

/-- What follows the file being written. -/
def Stage.next : Stage → Stage
  | .recording path file => .storing path file
  | _ => .walking

namespace Processes

variable {H : Type}

def start (tree : FileTree) (calls : H → BuildCall) : Processes H where
  files := Files.start fun _ => none
  dirs _ := false
  process p := ⟨tree.parquetEntries (calls p).dataDir, .walking⟩

/-- A sub-directory, as a reader finds it. -/
def dir (s : Processes H) (fileHash : Str) : IndexDir where
  metadata := (s.files.content (fileHash, .metadata)).map TextFile.ofBytes
  files name := (s.files.content (fileHash, .fst name)).map codec.decode

def lookup (s : Processes H) (fileHash : Str) : Option IndexDir :=
  if s.dirs fileHash then some (s.dir codec fileHash) else none

/-- What `needs_indexing` looks at. -/
def found (s : Processes H) (fileHash : Str) : IndexRoot :=
  (∅ : IndexRoot).insert fileHash (s.dir codec fileHash)

variable [DecidableEq H] (tree : FileTree) (calls : H → BuildCall) (mayDie : Prop)

/-- One step of one process; `mayDie` says whether processes may be killed. -/
inductive Step : Processes H → Processes H → Prop
  | skip {s : Processes H} {p : H} {path : Path} {rest : List Path}
      (stands : s.process p = ⟨path :: rest, .walking⟩) (unforced : (calls p).force = false)
      (upToDate : needsIndexing calculateFileHash tree
        (s.found codec (calculateFileHash path)) path (calls p).column = .ok false) :
      Step s { s with process := Function.update s.process p ⟨rest, .walking⟩ }
  | visit {s : Processes H} {p : H} {path : Path} {rest : List Path} {file : FileTree.DataFile}
      (stands : s.process p = ⟨path :: rest, .walking⟩)
      (needed : (calls p).force = true ∨ needsIndexing calculateFileHash tree
        (s.found codec (calculateFileHash path)) path (calls p).column = .ok true)
      (found : tree.dataFile? path = some file) :
      Step s { s with process := Function.update s.process p ⟨rest, .making path file⟩ }
  | createDirAll {s : Processes H} {p : H} {path : Path} {rest : List Path}
      {file : FileTree.DataFile} (stands : s.process p = ⟨rest, .making path file⟩) :
      Step s { s with
        dirs := Function.update s.dirs (calculateFileHash path) true
        process := Function.update s.process p ⟨rest, .recording path file⟩ }
  | create {s : Processes H} {p : H} {location : Location} {contents : Bytes}
      (writing : (s.process p).stage.writing calculateFileHash codec (calls p).column =
        some (location, contents))
      (closed : s.files.handles p = none) : Step s { s with files := s.files.create p location }
  | write {s : Processes H} {p : H} {location : Location} {contents : Bytes} {position : Nat}
      (writing : (s.process p).stage.writing calculateFileHash codec (calls p).column =
        some (location, contents))
      (opened : s.files.handles p = some (location, position)) (count : Nat) :
      Step s { s with files := s.files.write 0 contents p location position count }
  | close {s : Processes H} {p : H} {location : Location} {contents : Bytes} {position : Nat}
      (writing : (s.process p).stage.writing calculateFileHash codec (calls p).column =
        some (location, contents))
      (opened : s.files.handles p = some (location, position))
      (whole : contents.length ≤ position) :
      Step s { s with
        files := s.files.close p location
        process := Function.update s.process p ⟨(s.process p).todo, (s.process p).stage.next⟩ }
  | kill {s : Processes H} (may : mayDie) (p : H) :
      Step s { s with
        files := s.files.drop p
        process := Function.update s.process p ⟨[], .walking⟩ }

abbrev Run : Processes H → Processes H → Prop :=
  Relation.ReflTransGen (Step calculateFileHash codec tree calls mayDie)

/-- The process has returned, or was killed. -/
def Over (s : Processes H) (p : H) : Prop := s.process p = ⟨[], .walking⟩

end Processes

end Machine

/-! ## What every process keeps -/

/-- Some process indexes the path by the column. -/
def Covered {H : Type} (tree : FileTree) (calls : H → BuildCall) (path : Path) (column : Column) :
    Prop :=
  ∃ p, (calls p).column = column ∧ path ∈ tree.parquetEntries (calls p).dataDir

/-- Some process indexes a data file of that hash by the column. -/
def Asked {H : Type} (calculateFileHash : Path → Str) (tree : FileTree) (calls : H → BuildCall)
    (fileHash : Str) (column : Column) : Prop :=
  ∃ path, Covered tree calls path column ∧ calculateFileHash path = fileHash ∧
    ∃ file, tree.dataFile? path = some file

namespace Processes

section Invariant

variable {H : Type} [DecidableEq H] {calculateFileHash : Path → Str} {codec : FstCodec}
  {tree : FileTree} {calls : H → BuildCall} {mayDie : Prop} {pathOf : Str → Path}
  {columnOf : FstName → Column} {s s' : Processes H}

set_option linter.unusedSectionVars false

/-- `pathOf` and `columnOf` find back what the files of the index are named after. -/
structure NamesBack (calculateFileHash : Path → Str) (tree : FileTree) (calls : H → BuildCall)
    (pathOf : Str → Path) (columnOf : FstName → Column) : Prop where
  path : ∀ path column, Covered tree calls path column → pathOf (calculateFileHash path) = path
  column : ∀ path column, Covered tree calls path column → ∀ name, fstFile column = some name →
    columnOf name = column

/-- What belongs into a file of the index. -/
def right (codec : FstCodec) (tree : FileTree) (pathOf : Str → Path)
    (columnOf : FstName → Column) : Location → Bytes
  | (fileHash, .metadata) => (tree.dataFile? (pathOf fileHash)).elim [] fun file =>
      utf8 (metadataContent (pathOf fileHash) file.mtime file.size file.content.numRowGroups)
  | (fileHash, .fst name) => (tree.dataFile? (pathOf fileHash)).elim [] fun file =>
      codec.encode (columnKeys file.content (columnOf name))

/-- Some process has created the file. -/
def Touched (s : Processes H) (location : Location) : Prop := s.files.mark location ≠ .untouched

/-- Some process has created the FST of the column. -/
def TouchedFst (s : Processes H) (fileHash : Str) (column : Column) : Prop :=
  ∃ name, fstFile column = some name ∧ s.Touched (fileHash, .fst name)

/-- What a process at a stage has done, and which file it may have open. -/
def Standing (calculateFileHash : Path → Str) (tree : FileTree) (s : Processes H)
    (column : Column) (handle : Option (Location × Nat)) : Stage → Prop
  | .walking => handle = none
  | .making path file => tree.dataFile? path = some file ∧ handle = none
  | .recording path file => tree.dataFile? path = some file ∧
      s.dirs (calculateFileHash path) = true ∧
      ∀ location position, handle = some (location, position) →
        location = (calculateFileHash path, .metadata)
  | .storing path file => tree.dataFile? path = some file ∧
      s.dirs (calculateFileHash path) = true ∧ s.Touched (calculateFileHash path, .metadata) ∧
      ∀ location position, handle = some (location, position) →
        ∃ name, fstFile column = some name ∧ location = (calculateFileHash path, .fst name)

theorem Standing.mono {column : Column} {handle : Option (Location × Nat)} {stage : Stage}
    (standing : Standing calculateFileHash tree s column handle stage)
    (dirs : ∀ fileHash, s.dirs fileHash = true → s'.dirs fileHash = true)
    (touched : ∀ location, s.Touched location → s'.Touched location) :
    Standing calculateFileHash tree s' column handle stage := by
  cases stage with
  | walking => exact standing
  | making path file => exact standing
  | recording path file => exact ⟨standing.1, dirs _ standing.2.1, standing.2.2⟩
  | storing path file =>
      exact ⟨standing.1, dirs _ standing.2.1, touched _ standing.2.2.1, standing.2.2.2⟩

structure Inv (calculateFileHash : Path → Str) (codec : FstCodec) (tree : FileTree)
    (calls : H → BuildCall) (mayDie : Prop) (pathOf : Str → Path) (columnOf : FstName → Column)
    (s : Processes H) : Prop where
  files : SharedFiles.Run (right codec tree pathOf columnOf) 0 mayDie (Files.start fun _ => none)
    s.files
  dirs : ∀ fileHash, s.dirs fileHash = true →
    ∃ path column, Covered tree calls path column ∧ calculateFileHash path = fileHash
  metadata : ∀ fileHash, s.Touched (fileHash, .metadata) → s.dirs fileHash = true
  fst : ∀ fileHash name, s.Touched (fileHash, .fst name) → s.Touched (fileHash, .metadata) ∧
    ∃ column, fstFile column = some name ∧ Asked calculateFileHash tree calls fileHash column
  standing : ∀ p, Standing calculateFileHash tree s (calls p).column (s.files.handles p)
    (s.process p).stage
  inWalk : ∀ p path, path ∈ (s.process p).todo ∨ (s.process p).stage.path? = some path →
    path ∈ tree.parquetEntries (calls p).dataDir
  covered : ¬ mayDie → ∀ p, ∀ path ∈ tree.parquetEntries (calls p).dataDir,
    path ∈ (s.process p).todo ∨ (s.process p).stage.path? = some path ∨
      s.TouchedFst (calculateFileHash path) (calls p).column

theorem inv_start :
    Inv calculateFileHash codec tree calls mayDie pathOf columnOf (start tree calls) where
  files := .refl
  dirs _ made := nomatch made
  metadata _ touched := absurd rfl touched
  fst _ _ touched := absurd rfl touched
  standing _ := rfl
  inWalk _ _ pending := pending.resolve_right nofun
  covered _ _ _ inWalk := Or.inl inWalk

/-- **A step of one process**: what has to be shown of it, when the files change by
a step of theirs or not at all. -/
theorem Inv.step (inv : Inv calculateFileHash codec tree calls mayDie pathOf columnOf s) (p : H)
    (files : s'.files = s.files ∨
      SharedFiles.Step (right codec tree pathOf columnOf) 0 mayDie s.files s'.files)
    (dirsKept : ∀ fileHash, s.dirs fileHash = true → s'.dirs fileHash = true)
    (others : ∀ q, q ≠ p →
      s'.process q = s.process q ∧ s'.files.handles q = s.files.handles q)
    (dirs : ∀ fileHash, s'.dirs fileHash = true → s.dirs fileHash = true ∨
      ∃ path column, Covered tree calls path column ∧ calculateFileHash path = fileHash)
    (metadata : ∀ fileHash, s'.Touched (fileHash, .metadata) →
      s.Touched (fileHash, .metadata) ∨ s.dirs fileHash = true)
    (fst : ∀ fileHash name, s'.Touched (fileHash, .fst name) →
      s.Touched (fileHash, .fst name) ∨ s.Touched (fileHash, .metadata) ∧
        ∃ column, fstFile column = some name ∧ Asked calculateFileHash tree calls fileHash column)
    (standing : Standing calculateFileHash tree s' (calls p).column (s'.files.handles p)
      (s'.process p).stage)
    (inWalk : ∀ path, path ∈ (s'.process p).todo ∨ (s'.process p).stage.path? = some path →
      path ∈ (s.process p).todo ∨ (s.process p).stage.path? = some path)
    (covered : ¬ mayDie → ∀ path,
      path ∈ (s.process p).todo ∨ (s.process p).stage.path? = some path →
      path ∈ (s'.process p).todo ∨ (s'.process p).stage.path? = some path ∨
        s'.TouchedFst (calculateFileHash path) (calls p).column) :
    Inv calculateFileHash codec tree calls mayDie pathOf columnOf s' := by
  have touchedKept : ∀ location, s.Touched location → s'.Touched location := by
    intro location touched
    rcases files with same | moved
    · rwa [Touched, same]
    · exact touched_step moved touched
  have fstKept : ∀ {fileHash column}, s.TouchedFst fileHash column →
      s'.TouchedFst fileHash column := by
    rintro fileHash column ⟨name, leads, touched⟩
    exact ⟨name, leads, touchedKept _ touched⟩
  constructor
  · rcases files with same | moved
    · exact same ▸ inv.files
    · exact inv.files.tail moved
  · intro fileHash made
    rcases dirs fileHash made with before | here
    · exact inv.dirs fileHash before
    · exact here
  · intro fileHash touched
    rcases metadata fileHash touched with before | made
    · exact dirsKept _ (inv.metadata fileHash before)
    · exact dirsKept _ made
  · intro fileHash name touched
    rcases fst fileHash name touched with before | ⟨recorded, asked⟩
    · obtain ⟨recorded, asked⟩ := inv.fst fileHash name before
      exact ⟨touchedKept _ recorded, asked⟩
    · exact ⟨touchedKept _ recorded, asked⟩
  · intro q
    by_cases same : q = p
    · subst same
      exact standing
    · obtain ⟨process, handle⟩ := others q same
      rw [process, handle]
      exact (inv.standing q).mono dirsKept touchedKept
  · intro q path pending
    by_cases same : q = p
    · subst same
      exact inv.inWalk q path (inWalk path pending)
    · rw [(others q same).1] at pending
      exact inv.inWalk q path pending
  · intro alive q path member
    by_cases same : q = p
    · subst same
      rcases inv.covered alive q path member with pending | current | touched
      · exact covered alive path (Or.inl pending)
      · exact covered alive path (Or.inr current)
      · exact Or.inr (Or.inr (fstKept touched))
    · rw [(others q same).1]
      rcases inv.covered alive q path member with pending | current | touched
      · exact Or.inl pending
      · exact Or.inr (Or.inl current)
      · exact Or.inr (Or.inr (fstKept touched))

/-- What a process writes is what belongs into the file. -/
theorem right_of_writing (named : NamesBack calculateFileHash tree calls pathOf columnOf)
    (inv : Inv calculateFileHash codec tree calls mayDie pathOf columnOf s) {p : H}
    {location : Location}
    {contents : Bytes}
    (writing : (s.process p).stage.writing calculateFileHash codec (calls p).column =
      some (location, contents)) : contents = right codec tree pathOf columnOf location := by
  have standing := inv.standing p
  have inWalk := inv.inWalk p
  cases stage : (s.process p).stage with
  | walking => simp [stage, Stage.writing] at writing
  | making path file => simp [stage, Stage.writing] at writing
  | recording path file =>
      rw [stage] at standing writing
      have back := named.path path (calls p).column
        ⟨p, rfl, inWalk path (Or.inr (by rw [stage]; rfl))⟩
      simp only [Stage.writing, Option.some.injEq, Prod.mk.injEq] at writing
      obtain ⟨rfl, rfl⟩ := writing
      simp [right, back, standing.1]
  | storing path file =>
      rw [stage] at standing writing
      have covered : Covered tree calls path (calls p).column :=
        ⟨p, rfl, inWalk path (Or.inr (by rw [stage]; rfl))⟩
      obtain ⟨name, leads, same⟩ := Option.map_eq_some_iff.mp writing
      obtain ⟨rfl, rfl⟩ := Prod.mk.inj same
      simp [right, named.path path _ covered, named.column path _ covered name leads, standing.1]

/-- The stages that write, and the file each writes. -/
theorem writing_cases {stage : Stage} {column : Column} {location : Location} {contents : Bytes}
    (writing : stage.writing calculateFileHash codec column = some (location, contents)) :
    (∃ path file, stage = .recording path file ∧
      location = (calculateFileHash path, .metadata)) ∨
    ∃ path file name, stage = .storing path file ∧ fstFile column = some name ∧
      location = (calculateFileHash path, .fst name) := by
  cases stage with
  | walking => cases writing
  | making path file => cases writing
  | recording path file =>
      cases writing
      exact Or.inl ⟨path, file, rfl, rfl⟩
  | storing path file =>
      obtain ⟨name, leads, same⟩ := Option.map_eq_some_iff.mp writing
      exact Or.inr ⟨path, file, name, rfl, leads, (Prod.mk.inj same).1.symm⟩

/-- Creating the file of a stage. -/
theorem inv_create (inv : Inv calculateFileHash codec tree calls mayDie pathOf columnOf s) {p : H}
    {location : Location} {contents : Bytes}
    (writing : (s.process p).stage.writing calculateFileHash codec (calls p).column =
      some (location, contents)) (closed : s.files.handles p = none) :
    Inv calculateFileHash codec tree calls mayDie pathOf columnOf
      { s with files := s.files.create p location } := by
  have created : ∀ other, ({ s with files := s.files.create p location } : Processes H).Touched
      other → s.Touched other ∨ other = location := by
    intro other touched
    by_cases here : other = location
    · exact Or.inr here
    · exact Or.inl (by simpa only [Touched, Files.create, Function.update_of_ne here] using touched)
  have standing := inv.standing p
  have asked := fun path member => inv.inWalk p path (Or.inr member)
  have handle : (s.files.create p location).handles p = some (location, 0) :=
    Function.update_self _ _ _
  have touchedKept : ∀ other, s.Touched other →
      ({ s with files := s.files.create p location } : Processes H).Touched other := by
    have moved : SharedFiles.Step (right codec tree pathOf columnOf) 0 mayDie s.files
        (s.files.create p location) := .create closed location
    exact fun other touched => touched_step moved touched
  refine inv.step p (Or.inr (.create closed location)) (fun _ made => made) (fun q other => ?_)
    (fun _ made => Or.inl made) (fun fileHash touched => ?_) (fun fileHash name touched => ?_) ?_
    (fun _ pending => pending) (fun _ _ pending => or_assoc.mp (Or.inl pending))
  · exact ⟨rfl, Function.update_of_ne other _ _⟩
  · rcases created _ touched with before | rfl
    · exact Or.inl before
    · rcases writing_cases writing with ⟨path, file, stage, same⟩ | ⟨path, file, _, stage, _, same⟩
      · cases same
        rw [stage] at standing
        exact Or.inr standing.2.1
      · cases same
  · rcases created _ touched with before | rfl
    · exact Or.inl before
    · rcases writing_cases writing with
        ⟨path, file, stage, same⟩ | ⟨path, file, _, stage, leads, same⟩
      · cases same
      · cases same
        rw [stage] at standing
        exact Or.inr ⟨standing.2.2.1, _, leads, path, ⟨p, rfl, asked path (by rw [stage]; rfl)⟩,
          rfl, file, standing.1⟩
  · rw [handle]
    show Standing _ _ _ _ _ (s.process p).stage
    rcases writing_cases writing with
      ⟨path, file, stage, rfl⟩ | ⟨path, file, name, stage, leads, rfl⟩
    · rw [stage] at standing ⊢
      exact ⟨standing.1, standing.2.1, fun _ _ opened => by cases opened; rfl⟩
    · rw [stage] at standing ⊢
      exact ⟨standing.1, standing.2.1, touchedKept _ standing.2.2.1,
        fun _ _ opened => by cases opened; exact ⟨name, leads, rfl⟩⟩

/-- Writing a piece into it. -/
theorem inv_write (named : NamesBack calculateFileHash tree calls pathOf columnOf)
    (inv : Inv calculateFileHash codec tree calls mayDie pathOf columnOf s) {p : H}
    {location : Location} {contents : Bytes} {position : Nat}
    (writing : (s.process p).stage.writing calculateFileHash codec (calls p).column =
      some (location, contents))
    (opened : s.files.handles p = some (location, position)) (count : Nat) :
    Inv calculateFileHash codec tree calls mayDie pathOf columnOf
      { s with files := s.files.write 0 contents p location position count } := by
  obtain rfl := right_of_writing named inv writing
  have standing := inv.standing p
  refine inv.step p (Or.inr (.write opened count)) (fun _ made => made) (fun q other => ?_)
    (fun _ made => Or.inl made) (fun _ touched => Or.inl touched)
    (fun _ _ touched => Or.inl touched) ?_
    (fun _ pending => pending) (fun _ _ pending => or_assoc.mp (Or.inl pending))
  · exact ⟨rfl, Function.update_of_ne other _ _⟩
  · show Standing _ _ _ _ (Function.update s.files.handles p _ p) (s.process p).stage
    rw [Function.update_self]
    rcases writing_cases writing with
      ⟨path, file, stage, rfl⟩ | ⟨path, file, name, stage, leads, rfl⟩
    · rw [stage] at standing ⊢
      exact ⟨standing.1, standing.2.1, fun _ _ opened => by cases opened; rfl⟩
    · rw [stage] at standing ⊢
      exact ⟨standing.1, standing.2.1, standing.2.2.1,
        fun _ _ opened => by cases opened; exact ⟨name, leads, rfl⟩⟩

/-- Closing it, and going on. -/
theorem inv_close (named : NamesBack calculateFileHash tree calls pathOf columnOf)
    (inv : Inv calculateFileHash codec tree calls mayDie pathOf columnOf s) {p : H}
    {location : Location} {contents : Bytes} {position : Nat}
    (writing : (s.process p).stage.writing calculateFileHash codec (calls p).column =
      some (location, contents))
    (opened : s.files.handles p = some (location, position))
    (whole : contents.length ≤ position) :
    Inv calculateFileHash codec tree calls mayDie pathOf columnOf
      { s with
        files := s.files.close p location
        process := Function.update s.process p
          ⟨(s.process p).todo, (s.process p).stage.next⟩ } := by
  obtain rfl := right_of_writing named inv writing
  have standing := inv.standing p
  have held : s.Touched location :=
    ((SharedFiles.inv_of_run inv.files).opened p location position opened).2
  have marks : ∀ other, (s.files.close p location).mark other ≠ .untouched ↔
      s.Touched other := by
    intro other
    rcases mark_close s.files p location other with kept | ⟨rfl, -, finished⟩
    · rw [kept, Touched]
    · exact iff_of_true (by rw [finished]; exact nofun) held
  refine inv.step p (Or.inr (.close opened whole)) (fun _ made => made) (fun q other => ?_)
    (fun _ made => Or.inl made) (fun _ touched => Or.inl ((marks _).mp touched))
    (fun _ _ touched => Or.inl ((marks _).mp touched)) ?_ ?_ ?_
  · exact ⟨Function.update_of_ne other _ _, Function.update_of_ne other _ _⟩
  · show Standing _ _ _ _ (Function.update s.files.handles p none p)
      (Function.update s.process p _ p).stage
    rw [Function.update_self, Function.update_self]
    rcases writing_cases writing with
      ⟨path, file, stage, rfl⟩ | ⟨path, file, name, stage, leads, rfl⟩
    · rw [stage] at standing ⊢
      exact ⟨standing.1, standing.2.1, (marks _).mpr held, nofun⟩
    · rw [stage]
      exact rfl
  · intro path pending
    simp only [Function.update_self] at pending
    refine pending.imp_right fun current => ?_
    rcases writing_cases writing with ⟨path', file, stage, -⟩ | ⟨path', file, _, stage, -⟩
    · rwa [stage] at current ⊢
    · rw [stage] at current
      cases current
  · intro _ path pending
    simp only [Function.update_self]
    refine pending.imp_right fun current => ?_
    rcases writing_cases writing with
      ⟨path', file, stage, rfl⟩ | ⟨path', file, name, stage, leads, rfl⟩
    · rw [stage] at current ⊢
      exact Or.inl current
    · -- The FST of the file that is left is there.
      rw [stage] at current
      cases current
      exact Or.inr ⟨name, leads, (marks _).mpr held⟩

/-- **Every step keeps the invariant.** -/
theorem inv_step (named : NamesBack calculateFileHash tree calls pathOf columnOf)
    (inv : Inv calculateFileHash codec tree calls mayDie pathOf columnOf s)
    (step : Step calculateFileHash codec tree calls mayDie s s') :
    Inv calculateFileHash codec tree calls mayDie pathOf columnOf s' := by
  cases step with
  | @skip p path rest stands unforced upToDate =>
      have standing := inv.standing p
      have there : s.TouchedFst (calculateFileHash path) (calls p).column := by
        have held := fst_of_skipped upToDate
        obtain ⟨name, leads⟩ := Option.ne_none_iff_exists'.mp (IndexDir.named_of_fst held)
        refine ⟨name, leads, fun untouched => held ?_⟩
        have missing := (SharedFiles.inv_of_run inv.files).untouched _ untouched
        simp only [found, IndexRoot.dir_insert_self, IndexDir.fst, leads, Option.bind_some, dir,
          missing, Option.map_none]
      rw [stands] at standing
      refine inv.step p (Or.inl rfl) (fun _ made => made) (fun q other => ?_)
        (fun _ made => Or.inl made) (fun _ touched => Or.inl touched)
        (fun _ _ touched => Or.inl touched) ?_ ?_ ?_
      · exact ⟨Function.update_of_ne other _ _, rfl⟩
      · simp only [Function.update_self]
        exact standing
      · intro path' pending
        simp only [Function.update_self] at pending
        rw [stands]
        exact pending.imp_left (List.mem_cons_of_mem path)
      · intro _ path' pending
        simp only [Function.update_self]
        rw [stands] at pending
        rcases pending with member | current
        · rcases List.mem_cons.mp member with rfl | later
          · exact Or.inr (Or.inr there)
          · exact Or.inl later
        · cases current
  | @visit p path rest file stands needed found =>
      have standing := inv.standing p
      rw [stands] at standing
      refine inv.step p (Or.inl rfl) (fun _ made => made) (fun q other => ?_)
        (fun _ made => Or.inl made) (fun _ touched => Or.inl touched)
        (fun _ _ touched => Or.inl touched) ?_ ?_ ?_
      · exact ⟨Function.update_of_ne other _ _, rfl⟩
      · simp only [Function.update_self]
        exact ⟨found, standing⟩
      · intro path' pending
        simp only [Function.update_self] at pending
        rw [stands]
        rcases pending with later | current
        · exact Or.inl (List.mem_cons_of_mem path later)
        · cases current
          exact Or.inl List.mem_cons_self
      · intro _ path' pending
        simp only [Function.update_self]
        rw [stands] at pending
        rcases pending with member | current
        · rcases List.mem_cons.mp member with rfl | later
          · exact Or.inr (Or.inl rfl)
          · exact Or.inl later
        · cases current
  | @createDirAll p path rest file stands =>
      have standing := inv.standing p
      have inWalk := inv.inWalk p path (Or.inr (by rw [stands]; rfl))
      rw [stands] at standing
      have made : ∀ fileHash, s.dirs fileHash = true →
          Function.update s.dirs (calculateFileHash path) true fileHash = true := by
        intro fileHash before
        rw [Function.update_apply]
        split
        · rfl
        · exact before
      refine inv.step p (Or.inl rfl) made (fun q other => ?_) (fun fileHash after => ?_)
        (fun _ touched => Or.inl touched) (fun _ _ touched => Or.inl touched) ?_ ?_ ?_
      · exact ⟨Function.update_of_ne other _ _, rfl⟩
      · by_cases here : fileHash = calculateFileHash path
        · exact Or.inr ⟨path, _, ⟨p, rfl, inWalk⟩, here.symm⟩
        · simp only [Function.update_of_ne here] at after
          exact Or.inl after
      · simp only [Function.update_self]
        exact ⟨standing.1, Function.update_self _ _ _, fun _ _ opened => by
          rw [show s.files.handles p = none from standing.2] at opened; cases opened⟩
      · intro path' pending
        simp only [Function.update_self] at pending
        rwa [stands]
      · intro _ path' pending
        simp only [Function.update_self]
        rw [stands] at pending
        exact or_assoc.mp (Or.inl pending)
  | create writing closed => exact inv_create inv writing closed
  | write writing opened count => exact inv_write named inv writing opened count
  | close writing opened whole => exact inv_close named inv writing opened whole
  | kill may p =>
      refine inv.step p (Or.inr (.drop may p)) (fun _ made => made) (fun q other => ?_)
        (fun _ made => Or.inl made) (fun _ touched => Or.inl touched)
        (fun _ _ touched => Or.inl touched) ?_ ?_ (fun alive => absurd may alive)
      · exact ⟨Function.update_of_ne other _ _, Function.update_of_ne other _ _⟩
      · simp only [Function.update_self]
        exact Function.update_self _ _ _
      · intro path pending
        simp only [Function.update_self] at pending
        exact absurd pending (by simp [Stage.path?])

/-- **The invariant holds in every run**, in whatever order the processes step. -/
theorem inv_of_run (named : NamesBack calculateFileHash tree calls pathOf columnOf)
    (run : Run calculateFileHash codec tree calls mayDie (start tree calls) s) :
    Inv calculateFileHash codec tree calls mayDie pathOf columnOf s := by
  induction run with
  | refl => exact inv_start
  | tail _ step ih => exact inv_step named ih step

/-! ## What a reader finds -/

/-- Whoever created the file last has finished it. -/
def Untorn (s : Processes H) (location : Location) : Prop :=
  ∀ writer, s.files.mark location ≠ .creating writer

theorem content_of_untorn (inv : Inv calculateFileHash codec tree calls mayDie pathOf columnOf s)
    {location : Location} (untorn : s.Untorn location) :
    ¬ s.Touched location ∧ s.files.content location = none ∨
      s.Touched location ∧
        s.files.content location = some (right codec tree pathOf columnOf location) := by
  rcases content_of_whole (SharedFiles.inv_of_run inv.files) untorn with ⟨untouched, absent⟩ | there
  · exact Or.inl ⟨fun touched => touched untouched, absent⟩
  · exact Or.inr there

/-- The FST of a column of a data file, once it is there and whole. -/
theorem fst_of_untorn (roundTrips : codec.RoundTrips)
    (inv : Inv calculateFileHash codec tree calls mayDie pathOf columnOf s) {path : Path}
    (back : pathOf (calculateFileHash path) = path) {file : FileTree.DataFile}
    (found : tree.dataFile? path = some file) {column : Column} {name : FstName}
    (leads : fstFile column = some name)
    (untorn : s.Untorn (calculateFileHash path, .fst name)) :
    (¬ s.Touched (calculateFileHash path, .fst name) ∧
      (s.dir codec (calculateFileHash path)).fst column = none) ∨
    (s.Touched (calculateFileHash path, .fst name) ∧
      (s.dir codec (calculateFileHash path)).fst column =
        some (.valid (columnKeys file.content (columnOf name)))) := by
  rcases content_of_untorn inv untorn with ⟨untouched, absent⟩ | ⟨touched, held⟩
  · exact Or.inl ⟨untouched,
      by simp only [IndexDir.fst, leads, Option.bind_some, dir, absent, Option.map_none]⟩
  · refine Or.inr ⟨touched, ?_⟩
    simp only [IndexDir.fst, leads, Option.bind_some, dir, held, Option.map_some, right, back,
      found, Option.elim_some]
    rw [roundTrips (columnKeys file.content (columnOf name))]

/-- Its metadata.txt, once it is there and whole. -/
theorem metadata_of_untorn (inv : Inv calculateFileHash codec tree calls mayDie pathOf columnOf s)
    {path : Path} (back : pathOf (calculateFileHash path) = path) {file : FileTree.DataFile}
    (found : tree.dataFile? path = some file)
    (untorn : s.Untorn (calculateFileHash path, .metadata))
    (touched : s.Touched (calculateFileHash path, .metadata)) :
    (s.dir codec (calculateFileHash path)).metadata =
      some (.text (metadataContent path file.mtime file.size file.content.numRowGroups)) := by
  rcases content_of_untorn inv untorn with ⟨untouched, -⟩ | ⟨-, held⟩
  · exact absurd touched untouched
  · simp only [dir, held, Option.map_some, right, back, found, Option.elim_some, TextFile.ofBytes,
      fromUtf8_utf8]

/-- When no process is under way, nothing is torn. -/
theorem untorn_of_walking (inv : Inv calculateFileHash codec tree calls False pathOf columnOf s)
    (walking : ∀ p, (s.process p).stage = .walking) (location : Location) : s.Untorn location :=
  fun writer => settled inv.files (fun p => by
    have standing := inv.standing p
    rwa [walking p] at standing) location writer

/-- When every process is over, every FST asked for is there. -/
theorem touched_of_over (inv : Inv calculateFileHash codec tree calls False pathOf columnOf s)
    (ended : ∀ p, s.Over p) {path : Path} {column : Column}
    (covered : Covered tree calls path column) :
    s.TouchedFst (calculateFileHash path) column := by
  obtain ⟨p, rfl, inWalk⟩ := covered
  rcases inv.covered not_false p path inWalk with pending | current | touched
  · rw [ended p] at pending
    cases pending
  · rw [ended p] at current
    cases current
  · exact touched

theorem requested_iff_covered {order : List BuildCall}
    (same : ∀ call, call ∈ order ↔ ∃ p, calls p = call) (path : Path) (column : Column) :
    Requested tree order path column ↔ Covered tree calls path column := by
  constructor
  · rintro ⟨call, member, named, inWalk⟩
    obtain ⟨p, rfl⟩ := (same call).mp member
    exact ⟨p, named, inWalk⟩
  · rintro ⟨p, named, inWalk⟩
    exact ⟨calls p, (same _).mpr ⟨p, rfl⟩, named, inWalk⟩

/-- What the files of the index are named after can be found back. -/
theorem exists_namesBack
    (distinct : Set.InjOn calculateFileHash {path | ∃ column, Covered tree calls path column})
    (own : OwnFiles {column | ∃ path, Covered tree calls path column}) :
    ∃ pathOf columnOf, NamesBack calculateFileHash tree calls pathOf columnOf := by
  obtain ⟨columnOf, back⟩ := own.exists_columnOf
  exact ⟨Function.invFunOn calculateFileHash {path | ∃ column, Covered tree calls path column},
    columnOf, fun _ column covered => distinct.leftInvOn_invFunOn ⟨column, covered⟩,
    fun path column covered => back column ⟨path, covered⟩⟩

section Over

variable {root : IndexRoot} {paths : Set Path} {path : Path} {column : Column}

/-- What processes that are over cover are data files, by columns that name a file. -/
theorem dataFile_of_over (named : NamesBack calculateFileHash tree calls pathOf columnOf)
    (inv : Inv calculateFileHash codec tree calls False pathOf columnOf s)
    (ended : ∀ p, s.Over p) (covered : Covered tree calls path column) :
    fstFile column ≠ none ∧ ∃ file, tree.dataFile? path = some file := by
  obtain ⟨name, leads, touched⟩ := touched_of_over inv ended covered
  obtain ⟨-, _, -, other, covered', hashed, file, found⟩ := inv.fst _ _ touched
  constructor
  · rw [leads]
    exact Option.some_ne_none _
  · rw [← named.path path column covered, ← hashed, named.path other _ covered']
    exact ⟨file, found⟩

/-- **The FSTs of a covered file**, when the processes are over, are those that the calls
leave. -/
theorem fst_of_over (roundTrips : codec.RoundTrips)
    (named : NamesBack calculateFileHash tree calls pathOf columnOf)
    (inv : Inv calculateFileHash codec tree calls False pathOf columnOf s)
    (ended : ∀ p, s.Over p)
    (leaves : Leaves calculateFileHash tree paths (Covered tree calls) root)
    (covered : Covered tree calls path column) {file : FileTree.DataFile}
    (found : tree.dataFile? path = some file) (other : Column) :
    (root.dir (calculateFileHash path)).fst other =
      (s.dir codec (calculateFileHash path)).fst other := by
  have untorn := untorn_of_walking inv fun p => by rw [ended p]
  have back := named.path path column covered
  by_cases visited : ∃ column', Covered tree calls path column' ∧ fstFile column' = fstFile other
  · obtain ⟨column', covered', same⟩ := visited
    rw [← IndexDir.fst_congr _ same, ← IndexDir.fst_congr _ same]
    obtain ⟨file', found', -, keys'⟩ := leaves.covered path column' covered'
    rw [found] at found'
    cases found'
    obtain ⟨name, leads, touched⟩ := touched_of_over inv ended covered'
    rcases fst_of_untorn roundTrips inv back found leads (untorn _) with
      ⟨untouched, -⟩ | ⟨-, held⟩
    · exact absurd touched untouched
    · rw [keys', held, named.column path column' covered' name leads]
  · have apart : ∀ column', Covered tree calls path column' →
        fstFile column' ≠ fstFile other := fun column' covered' same =>
      visited ⟨column', covered', same⟩
    rw [leaves.noOther path (leaves.inside path column covered) other apart]
    cases leads : fstFile other with
    | none => rw [IndexDir.fst, leads, Option.bind_none]
    | some name =>
        rcases fst_of_untorn roundTrips inv back found leads (untorn _) with
          ⟨-, absent⟩ | ⟨touched, -⟩
        · exact absent.symm
        · obtain ⟨-, column', leads', path', covered', hashed, -⟩ := inv.fst _ _ touched
          have samePath : path' = path := by
            rw [← named.path path' column' covered', hashed, back]
          exact absurd (leads'.trans leads.symm) (apart column' (samePath ▸ covered'))

/-- The sub-directory of a covered file is the one that the calls leave. -/
theorem lookup_of_over (roundTrips : codec.RoundTrips)
    (named : NamesBack calculateFileHash tree calls pathOf columnOf)
    (inv : Inv calculateFileHash codec tree calls False pathOf columnOf s)
    (ended : ∀ p, s.Over p)
    (leaves : Leaves calculateFileHash tree paths (Covered tree calls) root)
    (covered : Covered tree calls path column) :
    root.lookup (calculateFileHash path) = s.lookup codec (calculateFileHash path) := by
  obtain ⟨file, found, metadata, keys⟩ := leaves.covered path column covered
  obtain ⟨indexDir, present, -⟩ := IndexRoot.lookup_of_fst keys
  obtain ⟨name, -, touched⟩ := touched_of_over inv ended covered
  have recorded := (inv.fst _ name touched).1
  have records := metadata_of_untorn inv (named.path path column covered) found
    (untorn_of_walking inv (fun p => by rw [ended p]) _) recorded
  have agree : root.dir (calculateFileHash path) = s.dir codec (calculateFileHash path) :=
    IndexDir.ext_fst (metadata.trans records.symm)
      (fst_of_over roundTrips named inv ended leaves covered found)
  rw [present, lookup, if_pos (inv.metadata _ recorded), ← agree, IndexRoot.dir_of_lookup present]

end Over

/-- **Processes side by side leave what the calls leave one after the other**, in
whatever order they step. -/
theorem processes_agree (roundTrips : codec.RoundTrips)
    (distinct : Set.InjOn calculateFileHash {path | ∃ column, Covered tree calls path column})
    (own : OwnFiles {column | ∃ path, Covered tree calls path column})
    (run : Run calculateFileHash codec tree calls False (start tree calls) s)
    (ended : ∀ p, s.Over p) {order : List BuildCall}
    (same : ∀ call, call ∈ order ↔ ∃ p, calls p = call) :
    ∃ root, buildAll calculateFileHash tree ∅ order = .ok root ∧
      ∀ fileHash, root.lookup fileHash = s.lookup codec fileHash := by
  obtain ⟨pathOf, columnOf, named⟩ := exists_namesBack distinct own
  have inv := inv_of_run named run
  have asked : ∀ path column, Requested tree order path column ↔ Covered tree calls path column :=
    requested_iff_covered same
  obtain ⟨root, ok⟩ : ∃ root, buildAll calculateFileHash tree ∅ order = .ok root :=
    buildAll_returns
      (fun path column requested =>
        (dataFile_of_over named inv ended ((asked path column).mp requested)).1)
      (fun path column requested =>
        (dataFile_of_over named inv ended ((asked path column).mp requested)).2)
  have leaves := (leaves_of_buildAll (by simpa only [asked] using own)
    (by simpa only [asked] using distinct) ok).congr asked
  refine ⟨root, ok, fun fileHash => ?_⟩
  by_cases known : ∃ path column, Covered tree calls path column ∧ calculateFileHash path = fileHash
  · obtain ⟨path, column, covered, rfl⟩ := known
    exact lookup_of_over roundTrips named inv ended leaves covered
  · rw [leaves.absent known, lookup, if_neg]
    intro made
    exact known (inv.dirs fileHash made)

/-! ## No process waits for another -/

theorem Inv.run (named : NamesBack calculateFileHash tree calls pathOf columnOf)
    (inv : Inv calculateFileHash codec tree calls mayDie pathOf columnOf s)
    (run : Run calculateFileHash codec tree calls mayDie s s') :
    Inv calculateFileHash codec tree calls mayDie pathOf columnOf s' := by
  induction run with
  | refl => exact inv
  | tail _ step ih => exact inv_step named ih step

theorem Step.mono {mayDie' : Prop} (may : mayDie → mayDie')
    (step : Step calculateFileHash codec tree calls mayDie s s') :
    Step calculateFileHash codec tree calls mayDie' s s' := by
  cases step with
  | skip stands unforced upToDate => exact .skip stands unforced upToDate
  | visit stands needed found => exact .visit stands needed found
  | createDirAll stands => exact .createDirAll stands
  | create writing closed => exact .create writing closed
  | write writing opened count => exact .write writing opened count
  | close writing opened whole => exact .close writing opened whole
  | kill dies p => exact .kill (may dies) p

theorem Run.mono {mayDie' : Prop} (may : mayDie → mayDie')
    (run : Run calculateFileHash codec tree calls mayDie s s') :
    Run calculateFileHash codec tree calls mayDie' s s' := by
  induction run with
  | refl => exact .refl
  | tail _ step ih => exact ih.tail (step.mono may)

/-- A process that has its file open can write it to the end and go on. -/
theorem finish_opened {p : H} {location : Location} {contents : Bytes} {position : Nat}
    (writing : (s.process p).stage.writing calculateFileHash codec (calls p).column =
      some (location, contents))
    (opened : s.files.handles p = some (location, position)) :
    ∃ s', Run calculateFileHash codec tree calls mayDie s s' ∧
      s'.process = Function.update s.process p ⟨(s.process p).todo, (s.process p).stage.next⟩ := by
  have written : Step calculateFileHash codec tree calls mayDie s _ :=
    .write writing opened contents.length
  have reached : contents.length ≤
      position + ((contents.drop position).take contents.length).length := by
    simp only [List.length_take, List.length_drop]
    omega
  exact ⟨_, (Relation.ReflTransGen.single written).tail
    (.close writing (Function.update_self _ _ _) reached), rfl⟩

/-- A process can finish the file it is at. -/
theorem finish_file (inv : Inv calculateFileHash codec tree calls mayDie pathOf columnOf s) {p : H}
    {location : Location} {contents : Bytes}
    (writing : (s.process p).stage.writing calculateFileHash codec (calls p).column =
      some (location, contents)) :
    ∃ s', Run calculateFileHash codec tree calls mayDie s s' ∧
      s'.process = Function.update s.process p ⟨(s.process p).todo, (s.process p).stage.next⟩ := by
  have standing := inv.standing p
  cases handle : s.files.handles p with
  | none =>
      have created : Step calculateFileHash codec tree calls mayDie s _ := .create writing handle
      obtain ⟨s', later, process⟩ :=
        finish_opened (s := { s with files := s.files.create p location }) writing
          (Function.update_self _ _ _)
      exact ⟨s', later.head created, process⟩
  | some opened =>
      obtain ⟨other, position⟩ := opened
      have here : other = location := by
        rcases writing_cases writing with
          ⟨path, file, stage, rfl⟩ | ⟨path, file, name, stage, leads, rfl⟩
        · rw [stage] at standing
          exact standing.2.2 other position handle
        · rw [stage] at standing
          obtain ⟨name', leads', here⟩ := standing.2.2.2 other position handle
          cases leads.symm.trans leads'
          exact here
      subst here
      exact finish_opened writing handle

/-- When no process is at a file, each can decide about its next one. -/
theorem decides (inv : Inv calculateFileHash codec tree calls False pathOf columnOf s)
    (named : NamesBack calculateFileHash tree calls pathOf columnOf)
    (walking : ∀ p, (s.process p).stage = .walking) {path : Path} {column : Column}
    (covered : Covered tree calls path column) {file : FileTree.DataFile}
    (found : tree.dataFile? path = some file) :
    ∃ needed, needsIndexing calculateFileHash tree
      (s.found codec (calculateFileHash path)) path column = .ok needed := by
  refine needsIndexing_decides found ?_
  rw [Processes.found, IndexRoot.dir_insert_self]
  by_cases touched : s.Touched (calculateFileHash path, .metadata)
  · rw [metadata_of_untorn inv (named.path path column covered) found
      (untorn_of_walking inv walking _) touched]
    exact nofun
  · have whole := untorn_of_walking inv walking (calculateFileHash path, .metadata)
    rcases content_of_untorn inv whole with ⟨-, absent⟩ | ⟨there, -⟩
    · simp only [dir, absent, Option.map_none]
      exact nofun
    · exact absurd there touched

/-- Some process that is not over can go on, and has less before it then. -/
theorem goes_on (inv : Inv calculateFileHash codec tree calls False pathOf columnOf s)
    (named : NamesBack calculateFileHash tree calls pathOf columnOf)
    (titled : ∀ path column, Covered tree calls path column → fstFile column ≠ none)
    (readable : ∀ path column, Covered tree calls path column →
      ∃ file, tree.dataFile? path = some file)
    {p : H} (pending : ¬ s.Over p) :
    ∃ q s', Run calculateFileHash codec tree calls False s s' ∧
      ∃ process, process.left < (s.process q).left ∧
        s'.process = Function.update s.process q process := by
  by_cases walking : ∀ q, (s.process q).stage = .walking
  · -- No file is torn, so the process can read the record of its next file.
    cases stands : s.process p with
    | mk todo stage =>
        have idle := walking p
        rw [stands] at idle
        simp only at idle
        subst idle
        cases todo with
        | nil => exact absurd stands pending
        | cons path rest =>
            have covered : Covered tree calls path (calls p).column :=
              ⟨p, rfl, inv.inWalk p path (Or.inl (by rw [stands]; exact List.mem_cons_self))⟩
            obtain ⟨file, found⟩ := readable path _ covered
            obtain ⟨needed, decided⟩ := decides inv named walking covered found
            refine ⟨p, ?_⟩
            rw [stands]
            by_cases skipped : (calls p).force = false ∧ needed = false
            · obtain ⟨unforced, rfl⟩ := skipped
              exact ⟨_, .single (.skip stands unforced decided), ⟨rest, .walking⟩,
                by simp [Process.left], rfl⟩
            · have needs : (calls p).force = true ∨ needed = true := by
                rwa [Decidable.not_and_iff_or_not, Bool.not_eq_false, Bool.not_eq_false] at skipped
              exact ⟨_,
                .single (.visit stands (needs.imp_right fun yes => by rw [decided, yes]) found),
                ⟨rest, .making path file⟩, by simp [Process.left]; omega, rfl⟩
  · rw [not_forall] at walking
    obtain ⟨q, busy⟩ := walking
    refine ⟨q, ?_⟩
    cases stands : s.process q with
    | mk todo stage =>
        rw [stands] at busy
        cases stage with
        | walking => exact absurd rfl busy
        | making path file =>
            exact ⟨_, .single (.createDirAll stands), ⟨todo, .recording path file⟩,
              by simp [Process.left], rfl⟩
        | recording path file =>
            obtain ⟨s', run, process⟩ := finish_file (p := q) inv (by rw [stands]; rfl)
            rw [stands] at process
            exact ⟨s', run, _, by simp [Process.left, Stage.next], process⟩
        | storing path file =>
            have covered : Covered tree calls path (calls q).column :=
              ⟨q, rfl, inv.inWalk q path (Or.inr (by rw [stands]; rfl))⟩
            obtain ⟨name, leads⟩ := Option.ne_none_iff_exists'.mp (titled path _ covered)
            obtain ⟨s', run, process⟩ := finish_file (p := q) inv
              (by rw [stands, Stage.writing, leads]; rfl)
            rw [stands] at process
            exact ⟨s', run, _, by simp [Process.left, Stage.next], process⟩

/-- **No process waits for another**: from every state that processes reach over
data files without being killed, they can all finish. -/
theorem processes_finish [Fintype H]
    (distinct : Set.InjOn calculateFileHash {path | ∃ column, Covered tree calls path column})
    (own : OwnFiles {column | ∃ path, Covered tree calls path column})
    (titled : ∀ path column, Covered tree calls path column → fstFile column ≠ none)
    (readable : ∀ path column, Covered tree calls path column →
      ∃ file, tree.dataFile? path = some file)
    (run : Run calculateFileHash codec tree calls False (start tree calls) s) :
    ∃ s', Run calculateFileHash codec tree calls False s s' ∧ ∀ p, s'.Over p := by
  obtain ⟨pathOf, columnOf, named⟩ := exists_namesBack distinct own
  have inv := inv_of_run named run
  clear run
  -- Induction on what all the processes have before them.
  generalize measured : ∑ p, (s.process p).left = before
  induction before using Nat.strong_induction_on generalizing s with
  | _ before ih =>
      by_cases ended : ∀ p, s.Over p
      · exact ⟨s, .refl, ended⟩
      · rw [not_forall] at ended
        obtain ⟨p, pending⟩ := ended
        obtain ⟨q, s', run, process, less, process'⟩ := goes_on inv named titled readable pending
        have decreased : ∑ p, (s'.process p).left < before := by
          rw [← measured]
          refine Finset.sum_lt_sum (fun r _ => ?_) ⟨q, Finset.mem_univ q, ?_⟩
          · by_cases same : r = q
            · subst same
              rw [process', Function.update_self]
              exact less.le
            · rw [process', Function.update_of_ne same]
          · rw [process', Function.update_self]
            exact less
        obtain ⟨s'', later, ended⟩ := ih _ decreased (inv.run named run) rfl
        exact ⟨s'', run.trans later, ended⟩

end Invariant

end Processes

/-! ## Two processes -/

/-- A codec: a byte of a key is written after a 1, and a key ends with a 0. -/
def encodeKey (key : Bytes) : Bytes := key.flatMap (fun b => [1, b]) ++ [0]

/-- `key` is what was read of the key so far. -/
def decodeKeys (key : Bytes) : Bytes → Option (List Bytes)
  | [] => if key = [] then some [] else none
  | 0 :: rest => (decodeKeys [] rest).map (key :: ·)
  | 1 :: b :: rest => decodeKeys (key ++ [b]) rest
  | _ => none

theorem decodeKeys_encodeKey (key front rest : Bytes) :
    decodeKeys front (encodeKey key ++ rest) =
      (decodeKeys [] rest).map ((front ++ key) :: ·) := by
  induction key generalizing front with
  | nil => simp [encodeKey, decodeKeys]
  | cons b key ih =>
      have step : encodeKey (b :: key) ++ rest = 1 :: b :: (encodeKey key ++ rest) := by
        simp [encodeKey]
      rw [step, decodeKeys, ih, List.append_assoc]
      rfl

theorem decodeKeys_flatMap (keys : List Bytes) :
    decodeKeys [] (keys.flatMap encodeKey) = some keys := by
  induction keys with
  | nil => rfl
  | cons key keys ih => rw [List.flatMap_cons, decodeKeys_encodeKey, ih]; rfl

def sampleCodec : FstCodec where
  encode set := set.toList.flatMap encodeKey
  decode bytes :=
    match decodeKeys [] bytes with
    | some keys => .valid (SortedSet.empty.insertAll keys)
    | none => .invalid

theorem sampleCodec_roundTrips : sampleCodec.RoundTrips := by
  intro set
  have whole : SortedSet.empty.insertAll set.toList = set := SortedSet.ext_mem fun key => by simp
  simp only [sampleCodec, decodeKeys_flatMap, whole]

def sideBySide (p : Fin 2) : BuildCall :=
  ⟨sampleDir, if p = 0 then sampleColumn else cityColumn, false⟩

theorem covered_sample {path : Path} {column : Column}
    (covered : Covered (singleTree samplePath alice) sideBySide path column) :
    path = samplePath := by
  obtain ⟨p, -, inWalk⟩ := covered
  rw [sideBySide, parquetEntries_sample] at inWalk
  exact List.mem_singleton.mp inWalk

theorem distinct_sample : Set.InjOn sampleHash
    {path | ∃ column, Covered (singleTree samplePath alice) sideBySide path column} := by
  refine (Set.injOn_singleton sampleHash samplePath).mono ?_
  rintro path ⟨column, covered⟩
  exact covered_sample covered

theorem person_of_covered {path : Path} {column : Column}
    (covered : Covered (singleTree samplePath alice) sideBySide path column) :
    column ∈ personColumns := by
  obtain ⟨p, rfl, -⟩ := covered
  simp only [sideBySide]
  split
  · exact Or.inl rfl
  · exact Or.inr rfl

theorem own_sample :
    OwnFiles {column | ∃ path, Covered (singleTree samplePath alice) sideBySide path column} := by
  refine ownFiles_person.mono ?_
  rintro column ⟨path, covered⟩
  exact person_of_covered covered

theorem named_person {column : Column} (member : column ∈ personColumns) :
    fstFile column ≠ none := by
  rcases member with rfl | rfl
  · exact named_sampleColumn
  · exact named_cityColumn

theorem finished_sample : ∃ s : Processes (Fin 2),
    Processes.Run sampleHash sampleCodec (singleTree samplePath alice) sideBySide False
      (.start (singleTree samplePath alice) sideBySide) s ∧ ∀ p, s.Over p :=
  Processes.processes_finish distinct_sample own_sample
    (fun _ _ covered => named_person (person_of_covered covered))
    (fun path column covered => ⟨alice, by rw [covered_sample covered, dataFile_singleTree]⟩) .refl

theorem processes_agree_sample :
    ∃ (s : Processes (Fin 2)) (root : IndexRoot),
      Processes.Run sampleHash sampleCodec (singleTree samplePath alice) sideBySide False
        (.start (singleTree samplePath alice) sideBySide) s ∧
      buildAll sampleHash (singleTree samplePath alice) ∅ nameThenCity = .ok root ∧
      ∀ fileHash, root.lookup fileHash = s.lookup sampleCodec fileHash := by
  obtain ⟨s, run, ended⟩ := finished_sample
  have same : ∀ call, call ∈ nameThenCity ↔ ∃ p, sideBySide p = call := by
    intro call
    rw [Fin.exists_fin_two]
    simp [nameThenCity, sideBySide, eq_comm]
  obtain ⟨root, ok, agree⟩ :=
    Processes.processes_agree sampleCodec_roundTrips distinct_sample own_sample
    run ended same
  exact ⟨s, root, run, ok, agree⟩

end Pdq
