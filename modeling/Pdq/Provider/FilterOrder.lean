/- Pdq.Provider.FilterOrder -- the pruning under other orders of filters and
matches.

What the pruning loop leaves under a hash is the meet of the answers that name
it, so the row groups depend on the set of matches only, not on the order they
come in (`prune_order_independent`).  The path on record for a hash is that of
the last match that names it: it does not depend on the order either, unless two
matched paths have that one hash (`colliding_paths_refuted`). -/
import Pdq.Index.FileHash
import Pdq.Index.Rebuild
import Pdq.Provider.Scan

namespace Pdq

open Theory

set_option autoImplicit false

section Order

variable {calculateFileHash : Path → Str}

/-- The loop of `prune_with_fst_index` when the searches of its filters return
these matches, in these orders. -/
def pruneInOrder (calculateFileHash : Path → Str) (orders : List (List FileMatches)) : Pruned :=
  orders.foldl (fun pruned results => results.foldl (recordMatch calculateFileHash) pruned) ⟨∅, ∅⟩

theorem pruneInOrder_eq_foldl (orders : List (List FileMatches)) :
    pruneInOrder calculateFileHash orders =
      orders.flatten.foldl (recordMatch calculateFileHash) ⟨∅, ∅⟩ := by
  rw [pruneInOrder, List.foldl_flatten]

/-- The loop itself takes the matches as the searches return them. -/
theorem pruneInOrder_filterMatches (root : IndexRoot) (engine : IndexQueryEngine)
    (filters : List Expr) :
    pruneInOrder calculateFileHash (filters.map (filterMatches root engine)) =
      (pruneWithFstIndex calculateFileHash root engine filters).1 := by
  rw [pruneInOrder_eq_foldl, (pruneWithFstIndex_spec calculateFileHash root engine filters).1,
    List.flatMap_def]

/-! ## Only the set of matches counts -/

/-- The row groups under a hash are settled by the matches recorded. -/
theorem fileRowGroups_congr {before after : List FileMatches}
    (same : ∀ fileMatch, fileMatch ∈ before ↔ fileMatch ∈ after) (fileHash : Str) :
    (before.foldl (recordMatch calculateFileHash) ⟨∅, ∅⟩).fileRowGroups.lookup fileHash =
      (after.foldl (recordMatch calculateFileHash) ⟨∅, ∅⟩).fileRowGroups.lookup fileHash := by
  rw [foldl_recordMatch, foldl_recordMatch]
  refine FiniteMap.meets_unique ?_ (FiniteMap.lookup_intersectAll _ fileHash)
    (FiniteMap.lookup_intersectAll _ fileHash)
  intro answer _
  simp only [List.mem_map, same]

/-- The matches that name a hash are of one path. -/
def OnePath (calculateFileHash : Path → Str) (fileMatches : List FileMatches) (fileHash : Str) :
    Prop :=
  ∀ a ∈ fileMatches, ∀ b ∈ fileMatches, calculateFileHash a.filePath = fileHash →
    calculateFileHash b.filePath = fileHash → a.filePath = b.filePath

/-- So is the path under it, when they are of one path. -/
theorem hashToPath_congr {before after : List FileMatches}
    (same : ∀ fileMatch, fileMatch ∈ before ↔ fileMatch ∈ after) {fileHash : Str}
    (onePath : OnePath calculateFileHash after fileHash) :
    (before.foldl (recordMatch calculateFileHash) ⟨∅, ∅⟩).hashToPath.lookup fileHash =
      (after.foldl (recordMatch calculateFileHash) ⟨∅, ∅⟩).hashToPath.lookup fileHash := by
  have recorded : ∀ {l : List FileMatches} {path : Path},
      (l.foldl (recordMatch calculateFileHash) ⟨∅, ∅⟩).hashToPath.lookup fileHash = some path →
      calculateFileHash path = fileHash ∧ ∃ fileMatch ∈ l, fileMatch.filePath = path := by
    intro l path found
    rcases hashToPath_of_foldl l found with earlier | recorded
    · simp at earlier
    · exact recorded
  have kept : ∀ {l : List FileMatches}, (∃ fileMatch ∈ l,
      calculateFileHash fileMatch.filePath = fileHash) → ∃ path,
      (l.foldl (recordMatch calculateFileHash) ⟨∅, ∅⟩).hashToPath.lookup fileHash = some path :=
    fun some => Option.isSome_iff_exists.mp (hashToPath_isSome _ (Or.inr some))
  cases left : (before.foldl (recordMatch calculateFileHash) ⟨∅, ∅⟩).hashToPath.lookup
      fileHash with
  | some path =>
      obtain ⟨named, fileMatch, member, rfl⟩ := recorded left
      obtain ⟨path', right⟩ := kept ⟨fileMatch, (same _).mp member, named⟩
      obtain ⟨named', fileMatch', member', rfl⟩ := recorded right
      rw [right, onePath _ ((same _).mp member) _ member' named named']
  | none =>
      cases right : (after.foldl (recordMatch calculateFileHash) ⟨∅, ∅⟩).hashToPath.lookup
          fileHash with
      | none => rfl
      | some path =>
          obtain ⟨named, fileMatch, member, rfl⟩ := recorded right
          obtain ⟨path', found⟩ := kept ⟨fileMatch, (same _).mpr member, named⟩
          rw [left] at found
          cases found

/-- Reordered matches of reordered filters are the matches of the filters. -/
theorem mem_flatten_of_forall₂ {F M : Type} {matchesOf : F → List M} {filters filters' : List F}
    (permuted : filters'.Perm filters) {orders : List (List M)}
    (ordered : List.Forall₂ (fun filter results => results.Perm (matchesOf filter)) filters' orders)
    (m : M) : m ∈ orders.flatten ↔ m ∈ filters.flatMap matchesOf := by
  have listed : m ∈ orders.flatten ↔ m ∈ filters'.flatMap matchesOf := by
    clear permuted
    induction ordered with
    | nil => simp
    | cons here rest ih =>
        rw [List.flatten_cons, List.mem_append, ih, List.flatMap_cons, List.mem_append,
          here.mem_iff]
  rw [listed]
  exact (permuted.flatMap_right matchesOf).mem_iff

/-- **The pruning does not depend on the order of the filters or of the matches**:
the row groups under every hash are the same, in ascending order, and so is the
path, when the matches of that hash are of one path. -/
theorem prune_order_independent {root : IndexRoot} {engine : IndexQueryEngine}
    {filters filters' : List Expr} (permuted : filters'.Perm filters)
    {orders : List (List FileMatches)}
    (ordered : List.Forall₂ (fun filter results => results.Perm (filterMatches root engine filter))
      filters' orders) (fileHash : Str) :
    (pruneInOrder calculateFileHash orders).fileRowGroups.lookup fileHash =
        (pruneWithFstIndex calculateFileHash root engine filters).1.fileRowGroups.lookup fileHash ∧
      (∀ rowGroups, (pruneInOrder calculateFileHash orders).fileRowGroups.lookup fileHash =
        some rowGroups → rowGroups.toList.SortedLT) ∧
      (OnePath calculateFileHash (filters.flatMap (filterMatches root engine)) fileHash →
        (pruneInOrder calculateFileHash orders).hashToPath.lookup fileHash =
          (pruneWithFstIndex calculateFileHash root engine filters).1.hashToPath.lookup
            fileHash) := by
  have same := mem_flatten_of_forall₂ permuted ordered
  rw [pruneInOrder_eq_foldl, (pruneWithFstIndex_spec calculateFileHash root engine filters).1]
  exact ⟨fileRowGroups_congr same fileHash, fun rowGroups _ => rowGroups.sorted,
    hashToPath_congr same⟩

end Order

/-- Two filters on the sample file, the first twice, and the other way round. -/
theorem prune_order_independent_sample :
    ∃ orders, orders = [[], [⟨samplePath, [0]⟩], [⟨samplePath, [0]⟩]] ∧
      (pruneInOrder sampleHash orders).fileRowGroups.lookup (sampleHash samplePath) =
        (pruneWithFstIndex sampleHash (singleRoot samplePath sampleFile sampleColumn)
          (.new (singleRoot samplePath sampleFile sampleColumn))
          [nameIs "alice".toList, nameIs "bob".toList, nameIs "alice".toList]).1.fileRowGroups.lookup
            (sampleHash samplePath) := by
  have alices : filterMatches (singleRoot samplePath sampleFile sampleColumn)
      (.new (singleRoot samplePath sampleFile sampleColumn)) (nameIs "alice".toList) =
      [⟨samplePath, [0]⟩] := by decide
  have bobs : filterMatches (singleRoot samplePath sampleFile sampleColumn)
      (.new (singleRoot samplePath sampleFile sampleColumn)) (nameIs "bob".toList) = [] := by decide
  have permuted : [nameIs "bob".toList, nameIs "alice".toList, nameIs "alice".toList].Perm
      [nameIs "alice".toList, nameIs "bob".toList, nameIs "alice".toList] := .swap _ _ _
  refine ⟨_, rfl, (prune_order_independent permuted ?_ _).1⟩
  exact .cons (by rw [bobs]) (.cons (by rw [alices]) (.cons (by rw [alices]) .nil))

/-! ## Two matched paths of one hash -/

/-- A path whose record reads back as `rightPath`, from another sub-directory. -/
def splitPath : Path := rightPath ++ "\nb.parquet".toList

theorem calculateFileHash_splitPath : calculateFileHash splitPath = "2bf3301ecd51328c".toList := by
  decide +kernel

def collidingTree : FileTree :=
  .ofSpellings [(leftPath, leftPath), (splitPath, splitPath)]
    [(leftPath, sampleFile), (splitPath, sampleFile)]

def collidingRoot : IndexRoot :=
  AList.insert "2bf3301ecd51328c".toList (IndexDir.empty.indexed splitPath sampleFile sampleColumn)
    (AList.insert "46f5d2cc428ad917".toList
      (IndexDir.empty.indexed leftPath sampleFile sampleColumn) ∅)

theorem build_colliding :
    buildIndex calculateFileHash collidingTree ∅ sampleDir sampleColumn = .ok collidingRoot := by
  have walked : collidingTree.parquetEntries sampleDir = [leftPath, splitPath] := by decide
  have found : collidingTree.dataFile? leftPath = some sampleFile := rfl
  have foundSplit : collidingTree.dataFile? splitPath = some sampleFile := rfl
  have left : indexEntry calculateFileHash collidingTree sampleColumn false ∅ leftPath =
      .ok (AList.insert "46f5d2cc428ad917".toList
        (IndexDir.empty.indexed leftPath sampleFile sampleColumn) ∅) := by
    rw [indexEntry_of_needed found named_sampleColumn rfl, calculateFileHash_leftPath]
    rfl
  have right : indexEntry calculateFileHash collidingTree sampleColumn false
      (AList.insert "46f5d2cc428ad917".toList
        (IndexDir.empty.indexed leftPath sampleFile sampleColumn) ∅) splitPath =
      .ok collidingRoot := by
    have needed : needsIndexing calculateFileHash collidingTree
        (AList.insert "46f5d2cc428ad917".toList
          (IndexDir.empty.indexed leftPath sampleFile sampleColumn) ∅) splitPath sampleColumn =
        .ok true := by
      rw [needsIndexing, calculateFileHash_splitPath]
      rfl
    rw [indexEntry_of_needed foundSplit named_sampleColumn needed, calculateFileHash_splitPath]
    rfl
  rw [buildIndex, buildIndexExt, walked, List.foldlM_cons, left]
  exact (congrArg (· >>= pure) right).trans (bind_pure _)

/-- Both files hold the name; the path under their hash is that of the one whose
match comes last. -/
theorem colliding_paths_refuted :
    buildIndex calculateFileHash collidingTree ∅ sampleDir sampleColumn = .ok collidingRoot ∧
      ∃ a b, filterMatches collidingRoot (.new collidingRoot) (nameIs "alice".toList) = [a, b] ∧
        (pruneInOrder calculateFileHash [[a, b]]).hashToPath.lookup
            (calculateFileHash leftPath) ≠
          (pruneInOrder calculateFileHash [[b, a]]).hashToPath.lookup
            (calculateFileHash leftPath) := by
  have searched : filterMatches collidingRoot (.new collidingRoot) (nameIs "alice".toList) =
      [⟨leftPath, [0]⟩, ⟨rightPath, [0]⟩] := by decide
  have lastRight :
      (pruneInOrder calculateFileHash
        [[⟨leftPath, [0]⟩, ⟨rightPath, [0]⟩]]).hashToPath.lookup (calculateFileHash leftPath) =
        some rightPath := by
    rw [calculateFileHash_leftPath, ← calculateFileHash_rightPath]
    exact AList.lookup_insert _
  have lastLeft :
      (pruneInOrder calculateFileHash
        [[⟨rightPath, [0]⟩, ⟨leftPath, [0]⟩]]).hashToPath.lookup (calculateFileHash leftPath) =
        some leftPath := AList.lookup_insert _
  refine ⟨build_colliding, _, _, searched, ?_⟩
  rw [lastRight, lastLeft]
  decide

end Pdq
