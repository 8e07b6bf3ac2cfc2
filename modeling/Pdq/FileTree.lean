/- Pdq.FileTree -- the files an index is built from, as the program sees them.

Everything the program learns about the data comes through five calls: the
directory walk, path canonicalization, opening a file, reading its metadata, and
converting a canonical path for the object store.  A tree is those calls'
answers at one moment.  The paths are texts; several may resolve to one file. -/
import Pdq.Parquet
import Pdq.Theory.Lines

namespace Pdq

open Theory

set_option autoImplicit false

abbrev Path := Str

/-! ## Paths -/

/-- The normal components of a path: separators and `.` are dropped. -/
def components (path : Path) : List Str :=
  (path.splitOn '/').filter fun part => decide (part ≠ [] ∧ part ≠ ['.'])

/-- `Path::file_name` -/
def fileName (path : Path) : Option Str :=
  match (components path).getLast? with
  | some last => if last = ['.', '.'] then none else some last
  | none => none

/-- `Path::extension`: what follows the last dot of the file name, when something
precedes it. -/
def extension (path : Path) : Option Str :=
  match fileName path with
  | none => none
  | some name =>
      match name.reverse.dropWhile fun c => decide (c ≠ '.') with
      | [] => none
      | _ :: stem =>
          if stem = [] then none
          else some (name.reverse.takeWhile fun c => decide (c ≠ '.')).reverse

def parquetExtension : Str := ['p', 'a', 'r', 'q', 'u', 'e', 't']

def hasParquetExtension (path : Path) : Bool := decide (extension path = some parquetExtension)

theorem splitOn_getLast?_snoc {x d : Char} (ne : d ≠ x) (q : Str) :
    ∃ last, ((q ++ [d]).splitOn x).getLast? = some (last ++ [d]) := by
  induction q with
  | nil => exact ⟨[], by simp [List.splitOn, List.splitOnP_cons_eq_if_modifyHead, ne]⟩
  | cons c q ih =>
      obtain ⟨last, final⟩ := ih
      simp only [List.splitOn] at final ⊢
      rw [List.cons_append, List.splitOnP_cons_eq_if_modifyHead]
      cases parts : List.splitOnP (fun y => y == x) (q ++ [d]) with
      | nil => exact absurd parts (List.splitOnP_ne_nil _ _)
      | cons part rest =>
          rw [parts] at final
          split
          · exact ⟨last, by rw [List.getLast?_cons_cons, final]⟩
          · cases rest with
            | nil =>
                have whole : part = last ++ [d] := by simpa using final
                exact ⟨c :: last, by simp [whole]⟩
            | cons part' rest =>
                refine ⟨last, ?_⟩
                rw [List.modifyHead_cons, List.getLast?_cons_cons, ← final, List.getLast?_cons_cons]

/-- A path with the extension the walk selects ends in no carriage return. -/
theorem not_return_of_hasParquetExtension {path : Path}
    (selected : hasParquetExtension path = true) :
    path.getLast? ≠ some '\r' := by
  intro ends
  obtain ⟨front, rfl⟩ := List.getLast?_eq_some_iff.mp ends
  obtain ⟨last, final⟩ := splitOn_getLast?_snoc (x := '/') (d := '\r') (by decide) front
  have kept : (components (front ++ ['\r'])).getLast? = some (last ++ ['\r']) := by
    obtain ⟨before, whole⟩ := List.getLast?_eq_some_iff.mp final
    have notDot : last ++ ['\r'] ≠ ['.'] := by
      intro same
      exact absurd (congrArg List.getLast? same) (by simp)
    simp [components, whole, List.filter_append, notDot]
  have name : fileName (front ++ ['\r']) = some (last ++ ['\r']) := by
    have notParent : last ++ ['\r'] ≠ ['.', '.'] := by
      intro same
      exact absurd (congrArg List.getLast? same) (by simp)
    simp [fileName, kept, notParent]
  have chosen : extension (front ++ ['\r']) = some parquetExtension := of_decide_eq_true selected
  simp only [extension, name] at chosen
  split at chosen
  · cases chosen
  · split at chosen
    · cases chosen
    · have backwards := congrArg List.reverse (Option.some.inj chosen)
      simp [parquetExtension] at backwards

theorem splitOn_getLast?_append {x : Char} {name : Str} (clean : ¬ x ∈ name) (front : Str) :
    ∃ last, ((front ++ name).splitOn x).getLast? = some (last ++ name) := by
  by_cases inside : x ∈ front
  · obtain ⟨after, before, split, later⟩ :=
      List.eq_append_cons_of_mem (List.mem_reverse.mpr inside)
    have whole : front = before.reverse ++ x :: after.reverse := by
      have back := congrArg List.reverse split
      simpa using back
    have none : ¬ x ∈ after.reverse ++ name := by simp [later, clean]
    refine ⟨after.reverse, ?_⟩
    rw [whole, List.append_assoc, List.cons_append, List.splitOn_append_cons_self,
      List.splitOn_eq_singleton none, List.getLast?_concat]
  · have none : ¬ x ∈ front ++ name := by simp [inside, clean]
    exact ⟨front, by rw [List.splitOn_eq_singleton none, List.getLast?_singleton]⟩

/-- A file name with a stem and the extension. -/
theorem hasParquetExtension_append {stem : Str} (nonempty : stem ≠ []) (noSlash : ¬ '/' ∈ stem)
    (front : Path) : hasParquetExtension (front ++ (stem ++ '.' :: parquetExtension)) = true := by
  have noSlash' : ¬ '/' ∈ stem ++ '.' :: parquetExtension := by
    simp [noSlash, parquetExtension]
  obtain ⟨last, final⟩ := splitOn_getLast?_append noSlash' front
  obtain ⟨before, whole⟩ := List.getLast?_eq_some_iff.mp final
  have long : 8 < (last ++ (stem ++ '.' :: parquetExtension)).length := by
    have some := List.length_pos_iff.mpr nonempty
    simp [parquetExtension]
    omega
  have kept : (components (front ++ (stem ++ '.' :: parquetExtension))).getLast? =
      some (last ++ (stem ++ '.' :: parquetExtension)) := by
    have isName : last ++ (stem ++ '.' :: parquetExtension) ≠ [] ∧
        last ++ (stem ++ '.' :: parquetExtension) ≠ ['.'] := by
      constructor <;> intro same <;> rw [same] at long <;> simp at long
    simp only [components, whole, List.filter_append, List.filter_singleton, isName, ne_eq,
      not_false_eq_true, and_self, decide_true, cond_true, List.getLast?_concat]
  have name : fileName (front ++ (stem ++ '.' :: parquetExtension)) =
      some (last ++ (stem ++ '.' :: parquetExtension)) := by
    have notParent : last ++ (stem ++ '.' :: parquetExtension) ≠ ['.', '.'] := by
      intro same
      rw [same] at long
      simp at long
    simp only [fileName, kept, if_neg notParent]
  simp only [hasParquetExtension, extension, name]
  simp [parquetExtension, nonempty]

/-! ## Trees -/

/-- What a path resolves to. -/
structure FileNode where
  /-- Modification time in whole seconds since the epoch; `none` before it. -/
  modified : Option UInt64
  len : UInt64
  /-- What the Parquet readers make of it; `none` for a directory or another file. -/
  parquet : Option ParquetFile

structure FileTree where
  /-- All entries `WalkDir` yields under a directory, in its order. -/
  walkDir : Path → List Path
  canonicalize : Path → Option Path
  /-- The node at a canonical path. -/
  node : Path → Option FileNode
  /-- Whether `ObjectStorePath::from_absolute_path` converts a canonical path. -/
  objectStoreAccepts : Path → Bool

/-- Errors of the indexer. -/
inductive IndexError where
  | missing (path : Path)
  | notParquet (path : Path)
  | beforeEpoch (path : Path)
  | invalidMetadata
  /-- `File::create` of `{column}.fst` -/
  | cannotCreate (column : Str)
  | outOfOrder
  deriving DecidableEq, Repr

namespace FileTree

def resolve (tree : FileTree) (path : Path) : Option FileNode :=
  (tree.canonicalize path).bind tree.node

/-- `File::open` followed by `SerializedFileReader::new` -/
def openParquet (tree : FileTree) (path : Path) : Except IndexError ParquetFile :=
  match tree.resolve path with
  | none => .error (.missing path)
  | some node =>
      match node.parquet with
      | none => .error (.notParquet path)
      | some file => .ok file

/-- `std::fs::metadata`, the mtime in seconds since the epoch and the size. -/
def fileMetadata (tree : FileTree) (path : Path) : Except IndexError (UInt64 × UInt64) :=
  match tree.resolve path with
  | none => .error (.missing path)
  | some node =>
      match node.modified with
      | none => .error (.beforeEpoch path)
      | some mtime => .ok (mtime, node.len)

/-- The entries of the walk that `build_index_ext` visits. -/
def parquetEntries (tree : FileTree) (dataDir : Path) : List Path :=
  (tree.walkDir dataDir).filter hasParquetExtension

/-- A readable Parquet file with a modification time after the epoch. -/
structure DataFile where
  mtime : UInt64
  size : UInt64
  content : ParquetFile

/-- The data file at a path. -/
def dataFile? (tree : FileTree) (path : Path) : Option DataFile :=
  match tree.resolve path with
  | none => none
  | some node =>
      match node.modified, node.parquet with
      | some mtime, some content => some ⟨mtime, node.len, content⟩
      | _, _ => none

/-- The tree with these spelled paths, each with the canonical path it resolves
to, and these files at canonical paths. -/
def ofSpellings (spelled : List (Path × Path)) (files : List (Path × DataFile)) : FileTree where
  walkDir dataDir := (spelled.map Prod.fst).filter fun path => (dataDir ++ ['/']).isPrefixOf path
  canonicalize path := spelled.lookup path
  node canonical :=
    (files.lookup canonical).map fun file => ⟨some file.mtime, file.size, some file.content⟩
  objectStoreAccepts _ := true

theorem openParquet_of_dataFile {tree : FileTree} {path : Path} {file : DataFile}
    (found : tree.dataFile? path = some file) : tree.openParquet path = .ok file.content := by
  unfold dataFile? at found
  split at found
  · cases found
  · rename_i node resolved
    split at found
    · rename_i mtime content modified parquet
      cases found
      simp [openParquet, resolved, parquet]
    · cases found

theorem fileMetadata_of_dataFile {tree : FileTree} {path : Path} {file : DataFile}
    (found : tree.dataFile? path = some file) :
    tree.fileMetadata path = .ok (file.mtime, file.size) := by
  unfold dataFile? at found
  split at found
  · cases found
  · rename_i node resolved
    split at found
    · rename_i mtime content modified parquet
      cases found
      simp [fileMetadata, resolved, modified]
    · cases found

theorem dataFile_of_ok {tree : FileTree} {path : Path} {content : ParquetFile}
    {stamp : UInt64 × UInt64} (opened : tree.openParquet path = .ok content)
    (stat : tree.fileMetadata path = .ok stamp) :
    tree.dataFile? path = some ⟨stamp.1, stamp.2, content⟩ := by
  unfold openParquet at opened
  unfold fileMetadata at stat
  cases resolved : tree.resolve path with
  | none => simp [resolved] at opened
  | some node =>
      simp only [resolved] at opened stat
      cases parquet : node.parquet with
      | none => simp [parquet] at opened
      | some file =>
          cases modified : node.modified with
          | none => simp [modified] at stat
          | some mtime =>
              simp only [parquet, Except.ok.injEq] at opened
              simp only [modified, Except.ok.injEq] at stat
              subst opened
              subst stat
              simp [dataFile?, resolved, modified, parquet]

end FileTree

end Pdq
