/- Pdq.Shootout.ReverseDomain -- suffix search, by prefix.

The index finds prefixes only.  A column that stores domains with their labels
reversed finds suffixes with it: the domains below a suffix are those whose reversed
labels begin with the reversed suffix and a dot (`suffix_search`). -/
import Pdq.Shootout.Manifest

namespace Pdq

open Theory KeyFormat

set_option autoImplicit false

/-- Reversing twice gives the domain back. -/
theorem reverseDomain_reverseDomain (domain : Str) :
    reverseDomain (reverseDomain domain) = domain :=
  reverseLabels_reverseLabels domain

/-- The prefix to look up for the domains below `suffix`. -/
def reversedPrefix (suffix : Str) : Str := reverseDomain suffix ++ ['.']

theorem clean_reversedPrefix {suffix : Str} (clean : ¬ valueRgSeparator ∈ suffix) :
    (SearchRequest.startsWith (reversedPrefix suffix)).Clean := by
  refine ⟨by simp [reversedPrefix], ?_, ?_⟩
  · rw [reversedPrefix, List.mem_append, not_or]
    exact ⟨fun inside => clean ((mem_reverseLabels (x := '.') (by decide)).mp inside), by decide⟩
  · rw [reversedPrefix, List.getLast?_concat]
    decide

/-- The reversed prefix selects the domains below the suffix. -/
theorem selects_reversedPrefix {suffix domain : Str} :
    (SearchRequest.startsWith (reversedPrefix suffix)).selects (reverseDomain domain) = true ↔
      '.' :: suffix <:+ domain := by
  rw [SearchRequest.selects, List.isPrefixOf_iff_prefix]
  exact suffix_iff_prefix_reverseLabels.symm

example : reversedPrefix Shootout.domainSuffix = Shootout.domainReversedPrefix := by decide

/-- **A prefix search for the reversed suffix** finds the row groups that hold a domain
below the suffix, in every file that was indexed.  The columns have FST files of their
own. -/
theorem suffix_search {calculateFileHash : Path → Str} {tree : FileTree} {calls : List BuildCall}
    {root : IndexRoot} {column : Column}
    (own : OwnFiles (insert column {other | ∃ path, Requested tree calls path other}))
    (distinct : Set.InjOn calculateFileHash {path | ∃ column, Requested tree calls path column})
    (noFeed : ∀ path column, Requested tree calls path column → ¬ '\n' ∈ path)
    (nulFree : ∀ path column', Requested tree calls path column' →
      ∀ file, tree.dataFile? path = some file → NulFree file.content column)
    (ok : buildAll calculateFileHash tree ∅ calls = .ok root) (opens : Opens column)
    {suffix : Str} (clean : ¬ valueRgSeparator ∈ suffix) :
    ((IndexQueryEngine.new root).prefixSearch root column (reversedPrefix suffix)).1.map
        namedPairs =
      .ok {pair | Requested tree calls pair.1 column ∧
        ∃ file, tree.dataFile? pair.1 = some file ∧
          ∃ domain, file.content.HoldsValue column pair.2 (reverseDomain domain) ∧
            '.' :: suffix <:+ domain} := by
  have oneLine : ∀ path ∈ {path | ∃ column, Requested tree calls path column}, OneLine path := by
    rintro path ⟨column', asked⟩
    have selected : hasParquetExtension path = true := by
      obtain ⟨call, -, -, inWalk⟩ := asked
      exact (List.mem_filter.mp inWalk).2
    exact oneLine_of_hasParquetExtension selected (noFeed path column' asked)
  have known : ∀ path ∈ {path | ∃ column, Requested tree calls path column}, ∀ file,
      tree.dataFile? path = some file → NulFree file.content column := by
    rintro path ⟨column', asked⟩
    exact nulFree path column' asked
  have leaves := leaves_of_buildAll (own.mono (Set.subset_insert _ _)) distinct ok
  have answered := search_of_leaves own oneLine known leaves
    (fun path other asked => Set.mem_insert_of_mem _ ⟨path, asked⟩) (Set.mem_insert _ _)
    opens (clean_reversedPrefix clean)
  refine answered.trans (congrArg Except.ok (Set.ext fun pair => ?_))
  refine and_congr_right fun _ => exists_congr fun file => and_congr_right fun _ => ?_
  constructor
  · rintro ⟨v, holds, selected⟩
    rw [← reverseDomain_reverseDomain v] at holds selected
    exact ⟨reverseDomain v, holds, selects_reversedPrefix.mp selected⟩
  · rintro ⟨domain, holds, below⟩
    exact ⟨_, holds, selects_reversedPrefix.mpr below⟩

def domainFile : FileTree.DataFile where
  mtime := 1700000000
  size := 1024
  content := .ofStrings sampleColumn
    [["com.evil.www".toList, "org.alpha".toList], ["com.evilly.www".toList]] (by decide)

/-- `*.evil.com` is in the first row group and not in the second. -/
theorem suffix_search_sample :
    ∃ root answer, buildAll sampleHash (singleTree samplePath domainFile) ∅
        [⟨sampleDir, sampleColumn, false⟩] = .ok root ∧
      ((IndexQueryEngine.new root).prefixSearch root sampleColumn
        (reversedPrefix "evil.com".toList)).1.map namedPairs = .ok answer ∧
      (samplePath, 0) ∈ answer ∧ (samplePath, 1) ∉ answer := by
  have requested : ∀ path column, Requested (singleTree samplePath domainFile)
      [⟨sampleDir, sampleColumn, false⟩] path column → path = samplePath := by
    rintro path column ⟨call, member, -, inWalk⟩
    rw [List.mem_singleton.mp member] at inWalk
    exact List.mem_singleton.mp inWalk
  obtain ⟨root, ok⟩ : ∃ root, buildAll sampleHash (singleTree samplePath domainFile) ∅
      [⟨sampleDir, sampleColumn, false⟩] = .ok root := ⟨_, rfl⟩
  have distinct : Set.InjOn sampleHash {path | ∃ column,
      Requested (singleTree samplePath domainFile) [⟨sampleDir, sampleColumn, false⟩] path
        column} := by
    rintro path ⟨column, asked⟩ other ⟨column', asked'⟩ _
    rw [requested path column asked, requested other column' asked']
  have own : OwnFiles (insert sampleColumn {other | ∃ path, Requested
      (singleTree samplePath domainFile) [⟨sampleDir, sampleColumn, false⟩] path other}) := by
    refine ownFiles_sampleColumn.mono (Set.insert_subset rfl ?_)
    rintro other ⟨path, call, member, rfl, -⟩
    rw [List.mem_singleton.mp member]
    rfl
  have nulFree : NulFree domainFile.content sampleColumn :=
    forall_holdsValue_iff.mpr (by decide)
  refine ⟨root, _, ok, suffix_search own distinct (fun path column asked => ?_)
    (fun path column asked file found => ?_) ok (by decide) (by decide), ?_, ?_⟩
  · rw [requested path column asked]
    decide
  · rw [requested path column asked, dataFile_singleTree] at found
    cases found
    exact nulFree
  · have asked : Requested (singleTree samplePath domainFile)
        [⟨sampleDir, sampleColumn, false⟩] samplePath sampleColumn :=
      ⟨_, List.mem_singleton_self _, rfl, List.mem_singleton_self _⟩
    exact ⟨asked, domainFile, dataFile_singleTree _ _, "www.evil.com".toList, by decide, by decide⟩
  · rintro ⟨-, file, found, domain, holds, below⟩
    rw [dataFile_singleTree] at found
    cases found
    obtain ⟨rowGroup, position, member⟩ := holdsValue_iff.mp holds
    cases position
    have reversed := congrArg reverseDomain (List.mem_singleton.mp member)
    rw [reverseDomain_reverseDomain] at reversed
    rw [reversed] at below
    exact absurd below (by decide)

end Pdq
