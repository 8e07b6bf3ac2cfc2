/- Pdq.Index.Metadata -- metadata.txt, its one writer and its three readers.

`index_file` writes path, mtime, size and row-group count, one per line.
`needs_indexing` reads the second and third line, `build_file_map` the first and
the fourth, `prune_orphans` the first.  On a path that is one line of text all
three read back what was written (`storedStamp_content`, `fileMapEntry_content`,
`originalPath_content`); a path with a line feed is never read back
(`fileMapEntry_ne`, `originalPath_ne`). -/
import Pdq.FileTree

namespace Pdq

open Theory

set_option autoImplicit false

def u64Bound : Nat := UInt64.size

/-- The text `index_file` writes. -/
def metadataContent (filePath : Path) (mtime size : UInt64) (numRowGroups : Nat) : Str :=
  filePath ++ '\n' :: (decimal mtime.toNat ++ '\n' :: (decimal size.toNat ++
    '\n' :: (decimal numRowGroups ++ ['\n'])))

/-- The modification time and size `needs_indexing` reads; `none` for the old
format with fewer than three lines. -/
def storedStamp (metadataContent : Str) : Option (Nat × Nat) :=
  match lines metadataContent with
  | _ :: mtime :: size :: _ =>
      some ((parseUnsigned u64Bound mtime).getD 0, (parseUnsigned u64Bound size).getD 0)
  | _ => none

/-- The path and row-group count `build_file_map` reads; the count is the fourth
line, when present and a number. -/
def fileMapEntry (contents : Str) : Option (Path × Option Nat) :=
  match lines contents with
  | [] => none
  | originalPath :: rest => some (originalPath, rest[2]?.bind (parseUnsigned usizeBound))

/-- The path `prune_orphans` reads. -/
def originalPath (contents : Str) : Option Path := (lines contents).head?

/-! ## Reading back -/

theorem lines_decimal (n : Nat) (rest : Str) :
    lines (decimal n ++ '\n' :: rest) = decimal n :: lines rest :=
  lines_append_newline (oneLine_decimal fun _ => decimal_isDigit) rest

theorem lines_metadataContent {filePath : Path} (one : OneLine filePath) (mtime size : UInt64)
    (numRowGroups : Nat) :
    lines (metadataContent filePath mtime size numRowGroups) =
      [filePath, decimal mtime.toNat, decimal size.toNat, decimal numRowGroups] := by
  simp only [metadataContent, lines_append_newline one, lines_decimal]
  rfl

theorem storedStamp_content {filePath : Path} (one : OneLine filePath) (mtime size : UInt64)
    (numRowGroups : Nat) :
    storedStamp (metadataContent filePath mtime size numRowGroups) =
      some (mtime.toNat, size.toNat) := by
  have fitsMtime : mtime.toNat < u64Bound := mtime.toNat_lt
  have fitsSize : size.toNat < u64Bound := size.toNat_lt
  simp only [storedStamp, lines_metadataContent one, parseUnsigned_decimal fitsMtime,
    parseUnsigned_decimal fitsSize, Option.getD_some]

theorem fileMapEntry_content {filePath : Path} (one : OneLine filePath) (mtime size : UInt64)
    {numRowGroups : Nat} (fits : numRowGroups < usizeBound) :
    fileMapEntry (metadataContent filePath mtime size numRowGroups) =
      some (filePath, some numRowGroups) := by
  simp [fileMapEntry, lines_metadataContent one, parseUnsigned_decimal fits]

theorem originalPath_content {filePath : Path} (one : OneLine filePath) (mtime size : UInt64)
    (numRowGroups : Nat) :
    originalPath (metadataContent filePath mtime size numRowGroups) = some filePath := by
  simp [originalPath, lines_metadataContent one]

/-- A path with a line feed is not the first line of any text. -/
theorem originalPath_ne {filePath : Path} (broken : '\n' ∈ filePath) (contents : Str) :
    originalPath contents ≠ some filePath := by
  intro first
  exact newline_not_mem_line (List.mem_of_head? first) broken

theorem fileMapEntry_ne {filePath : Path} (broken : '\n' ∈ filePath) (contents : Str)
    (count : Option Nat) : fileMapEntry contents ≠ some (filePath, count) := by
  intro entry
  unfold fileMapEntry at entry
  split at entry
  · cases entry
  · rename_i first rest whole
    cases entry
    exact newline_not_mem_line (by rw [whole]; exact List.mem_cons_self) broken

/-- A path that the walk selects stands as one line unless it holds a line feed. -/
theorem oneLine_of_hasParquetExtension {path : Path} (selected : hasParquetExtension path = true)
    (noFeed : ¬ '\n' ∈ path) : OneLine path :=
  ⟨noFeed, not_return_of_hasParquetExtension selected⟩

end Pdq
