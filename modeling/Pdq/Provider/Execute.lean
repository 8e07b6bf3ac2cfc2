/- Pdq.Provider.Execute -- running the plan of a scan.

A plan names each file by its object-store path, as a text.  `PartitionedFile::new`
takes the text for a path that is not encoded yet and percent-encodes it, so the
store looks for the file under the encoded name.  That is the file that was planned
when the name has only characters that are kept (`percentEncode_of_kept`), and a file
that is not found fails the query (`collect_error_iff`).  Where the store finds what was
planned, the query reads the rows of the row groups planned (`collect_eq`). -/
import Pdq.Provider.BruteForce

namespace Pdq

open Theory

set_option autoImplicit false

/-! ## Where the store looks -/

/-- The separator, and what a part of an object-store path keeps: printable ASCII
characters, without those that URLs and stores give a meaning. -/
def keptInLocation (c : Char) : Bool :=
  decide (' ' ≤ c ∧ c < '~' ∧ ¬ c ∈ ['\x22', '#', '%', '*', '<', '>', '?', '[', '\x5c', ']', '^',
    '\x60', '\x7b', '|', '\x7d'])

/-- Two hexadecimal digits. -/
def percentEncodeByte (b : UInt8) : Str :=
  ['%', (Nat.digitChar (b.toNat / 16)).toUpper, (Nat.digitChar (b.toNat % 16)).toUpper]

/-- `Path::from` of object_store. -/
def percentEncode (path : Path) : Path :=
  path.flatMap fun c =>
    if keptInLocation c then [c] else (String.utf8EncodeChar c).flatMap percentEncodeByte

theorem percentEncode_of_kept {path : Path} (kept : ∀ c ∈ path, keptInLocation c = true) :
    percentEncode path = path := by
  rw [percentEncode, List.flatMap_congr fun c member => if_pos (kept c member),
    List.flatMap_singleton']

example : percentEncode "/d/café~1.parquet".toList = "/d/caf%C3%A9%7E1.parquet".toList := by decide

/-- The object store takes the canonical path and keeps it as it is. -/
def FileTree.Stores (tree : FileTree) (path : Path) : Prop :=
  ∀ canonicalPath, tree.canonicalize path = some canonicalPath →
    tree.objectStoreAccepts canonicalPath = true ∧
      ∀ c ∈ canonicalPath, keptInLocation c = true

/-! ## Reading -/

inductive ReadError where
  | notFound (location : Path)
  | notParquet (location : Path)
  /-- The plan is over another number of row groups than the file has. -/
  | invalidAccessPlan (location : Path)
  deriving DecidableEq, Repr

/-- `ObjectMeta::location` of a planned file -/
def PartitionedFile.location (planned : PartitionedFile) : Path := percentEncode planned.path

/-- The rows of one planned file. -/
def readFile (tree : FileTree) (planned : PartitionedFile) : Except ReadError (List Row) :=
  match tree.node planned.location with
  | none => .error (.notFound planned.location)
  | some node =>
      match node.parquet with
      | none => .error (.notParquet planned.location)
      | some file =>
          if planned.accessPlan.length = file.numRowGroups then
            .ok (planned.accessPlan.rowGroupIndexes.flatMap file.rowsOf)
          else .error (.invalidAccessPlan planned.location)

/-- The rows of a plan: one file that cannot be read fails all. -/
def collect (tree : FileTree) (plan : ScanPlan) : Except ReadError (List Row) := do
  let rows ← plan.files.mapM (readFile tree)
  return rows.flatten

/-- The store finds a file with as many row groups as were planned. -/
def PartitionedFile.Readable (tree : FileTree) (planned : PartitionedFile) : Prop :=
  ∃ file, (tree.node planned.location).bind FileNode.parquet = some file ∧
    planned.accessPlan.length = file.numRowGroups

theorem readFile_error_iff {tree : FileTree} {planned : PartitionedFile} :
    (∃ error, readFile tree planned = .error error) ↔ ¬ planned.Readable tree := by
  unfold readFile PartitionedFile.Readable
  cases tree.node planned.location with
  | none => simp
  | some node =>
      cases content : node.parquet with
      | none => simp [content]
      | some file =>
          by_cases same : planned.accessPlan.length = file.numRowGroups <;> simp [content, same]

/-- **A plan fails to run exactly when** the store does not find one of its files as it was
planned. -/
theorem collect_error_iff {tree : FileTree} {plan : ScanPlan} :
    (∃ error, collect tree plan = .error error) ↔
      ∃ planned ∈ plan.files, ¬ planned.Readable tree := by
  have failed : (∃ error, collect tree plan = .error error) ↔
      ∃ error, plan.files.mapM (readFile tree) = .error error := by
    unfold collect
    cases plan.files.mapM (readFile tree) <;> simp [bind, Except.bind, pure, Except.pure]
  rw [failed, mapM_error_iff]
  exact exists_congr fun planned => and_congr_right fun _ => readFile_error_iff

theorem readFile_eq {tree : FileTree} {planned : PartitionedFile}
    (kept : ∀ c ∈ planned.path, keptInLocation c = true) (readable : planned.Readable tree) :
    readFile tree planned = .ok (readRowGroups tree planned) := by
  obtain ⟨file, found, same⟩ := readable
  obtain ⟨node, there, content⟩ := Option.bind_eq_some_iff.mp found
  have here : planned.location = planned.path := percentEncode_of_kept kept
  rw [here] at found there
  simp only [readFile, readRowGroups, here, there, content, Option.bind_some, if_pos same]

/-- The file was planned as it is, under a path the store keeps. -/
structure PlannedFrom (tree : FileTree) (planned : PartitionedFile) (path : Path)
    (file : FileTree.DataFile) : Prop where
  found : tree.dataFile? path = some file
  resolved : tree.canonicalize path = some planned.path
  counted : planned.accessPlan.length = file.content.numRowGroups
  stores : tree.Stores path

theorem readFile_of_plannedFrom {tree : FileTree} {planned : PartitionedFile} {path : Path}
    {file : FileTree.DataFile} (as : PlannedFrom tree planned path file) :
    readFile tree planned = .ok (readRowGroups tree planned) := by
  have kept := (as.stores planned.path as.resolved).2
  refine readFile_eq kept ⟨file.content, ?_, as.counted⟩
  obtain ⟨canonicalPath, resolved, content⟩ := node_of_dataFile as.found
  obtain rfl : canonicalPath = planned.path := Option.some.inj (resolved.symm.trans as.resolved)
  rwa [PartitionedFile.location, percentEncode_of_kept kept]

/-- **Where the files are as they were planned**, running a plan reads the rows of the row
groups planned. -/
theorem collect_eq {tree : FileTree} {plan : ScanPlan}
    (each : ∀ planned ∈ plan.files, ∃ path file, PlannedFrom tree planned path file) :
    collect tree plan = .ok (plannedRows tree plan) := by
  have all : plan.files.mapM (readFile tree) = .ok (plan.files.map (readRowGroups tree)) := by
    refine mapM_eq_ok fun planned member => ?_
    obtain ⟨path, file, as⟩ := each planned member
    exact readFile_of_plannedFrom as
  simp only [collect, all, bind, Except.bind, pure, Except.pure]
  rw [plannedRows, List.flatMap_def]

end Pdq
