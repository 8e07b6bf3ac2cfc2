/- Pdq.Query.Beside -- a lookup beside index runs.

The engine takes no lock: it reads whatever files the index runs of the moment, and
those that were killed before, have left.  A lookup that meets no torn file is right
about every FST that is there (`lookup_beside_processes`). -/
import Pdq.Index.Processes
import Pdq.Query.SearchRequest

namespace Pdq

open Theory SharedFiles

set_option autoImplicit false

namespace Processes

section Beside

variable {H : Type} [DecidableEq H] {calculateFileHash : Path → Str} {codec : FstCodec}
  {tree : FileTree} {calls : H → BuildCall} {mayDie : Prop} {pathOf : Str → Path}
  {columnOf : FstName → Column} {s : Processes H} {root : IndexRoot} {column : Column}

set_option linter.unusedSectionVars false

/-- The index directory `root` is what a reader finds. -/
def Shows (codec : FstCodec) (s : Processes H) (root : IndexRoot) : Prop :=
  ∀ fileHash, root.lookup fileHash = s.lookup codec fileHash

/-- The FST of the column is there. -/
def HasFst (s : Processes H) (fileHash : Str) (column : Column) : Prop :=
  ∃ name, fstFile column = some name ∧ s.files.content (fileHash, .fst name) ≠ none

/-- No file that a lookup by the column opens is torn. -/
def UntornFor (s : Processes H) (column : Column) (fileHash : Str) : Prop :=
  s.Untorn (fileHash, .metadata) ∧
    ∀ name, fstFile column = some name → s.Untorn (fileHash, .fst name)

/-- The columns indexed, and the one looked up. -/
def Concerned (tree : FileTree) (calls : H → BuildCall) (column : Column) : Set Column :=
  insert column {other | ∃ path, Covered tree calls path other}

theorem dir_of_shows (inv : Inv calculateFileHash codec tree calls mayDie pathOf columnOf s)
    (shows : s.Shows codec root) {fileHash : Str} :
    (root.dir fileHash).fst column = (s.dir codec fileHash).fst column := by
  rw [IndexRoot.dir, shows, Processes.lookup]
  by_cases made : s.dirs fileHash = true
  · rw [if_pos made]
    rfl
  · -- Without the directory there is no file in it.
    have absent : ∀ name, s.files.content (fileHash, .fst name) = none := by
      intro name
      have untouched : ¬ s.Touched (fileHash, .fst name) := fun touched =>
        made (inv.metadata _ (inv.fst _ _ touched).1)
      exact (SharedFiles.inv_of_run inv.files).untouched _ (not_not.mp untouched)
    rw [if_neg made, Option.getD_none, IndexDir.fst_empty]
    cases leads : fstFile column with
    | none => simp only [IndexDir.fst, leads, Option.bind_none]
    | some name =>
        simp only [IndexDir.fst, leads, Option.bind_some, dir, absent name, Option.map_none]

/-- A file that is there was created, and by a process that indexes the column. -/
theorem asked_of_touchedFst (inv : Inv calculateFileHash codec tree calls mayDie pathOf columnOf s)
    (own : OwnFiles (Concerned tree calls column)) {fileHash : Str}
    (touched : s.TouchedFst fileHash column) :
    s.Touched (fileHash, .metadata) ∧ Asked calculateFileHash tree calls fileHash column := by
  obtain ⟨name, leads, created⟩ := touched
  obtain ⟨recorded, other, leads', asked⟩ := inv.fst _ _ created
  obtain rfl : other = column := by
    obtain ⟨path, covered, -⟩ := asked
    exact own.apart column (Set.mem_insert _ _) other (Set.mem_insert_of_mem _ ⟨path, covered⟩)
      (leads'.trans leads.symm) (by rw [leads]; exact nofun)
  exact ⟨recorded, asked⟩

theorem touchedFst_iff (inv : Inv calculateFileHash codec tree calls mayDie pathOf columnOf s)
    {fileHash : Str} (untorn : s.UntornFor column fileHash) :
    s.TouchedFst fileHash column ↔ s.HasFst fileHash column := by
  refine exists_congr fun name => and_congr_right fun leads => ?_
  rcases content_of_untorn inv (untorn.2 name leads) with ⟨absent, gone⟩ | ⟨created, there⟩
  · exact iff_of_false absent (not_not.mpr gone)
  · exact iff_of_true created (by rw [there]; exact nofun)

/-- The engine maps the hash of a file whose record is there to its path. -/
theorem fileMap_of_touched (inv : Inv calculateFileHash codec tree calls mayDie pathOf columnOf s)
    (shows : s.Shows codec root) {path : Path} (back : pathOf (calculateFileHash path) = path)
    (one : OneLine path) {file : FileTree.DataFile} (found : tree.dataFile? path = some file)
    (untorn : s.Untorn (calculateFileHash path, .metadata))
    (recorded : s.Touched (calculateFileHash path, .metadata)) :
    (IndexQueryEngine.new root).fileMap.lookup (calculateFileHash path) = some path := by
  have written := metadata_of_untorn inv back found untorn recorded
  rw [IndexQueryEngine.new_fileMap, shows, Processes.lookup, if_pos (inv.metadata _ recorded),
    Option.map_some, IndexDir.mapEntry_recorded one written]

open Classical in
/-- The content the FST of a hash was written from. -/
noncomputable def contentAt (tree : FileTree) (pathOf : Str → Path) (s : Processes H)
    (column : Column) (fileHash : Str) : Option ParquetFile :=
  if s.TouchedFst fileHash column then
    (tree.dataFile? (pathOf fileHash)).map FileTree.DataFile.content
  else none

theorem contentAt_eq_some {fileHash : Str} {file : ParquetFile} :
    contentAt tree pathOf s column fileHash = some file ↔ s.TouchedFst fileHash column ∧
      ∃ data, tree.dataFile? (pathOf fileHash) = some data ∧ data.content = file := by
  unfold contentAt
  split
  · rename_i touched
    rw [Option.map_eq_some_iff, and_iff_right touched]
  · rename_i untouched
    exact iff_of_false nofun fun both => untouched both.1

theorem fst_contentAt (roundTrips : codec.RoundTrips)
    (named : NamesBack calculateFileHash tree calls pathOf columnOf)
    (own : OwnFiles (Concerned tree calls column))
    (inv : Inv calculateFileHash codec tree calls mayDie pathOf columnOf s)
    (shows : s.Shows codec root) (untorn : ∀ fileHash, s.UntornFor column fileHash)
    (fileHash : Str) :
    (root.dir fileHash).fst column =
      (contentAt tree pathOf s column fileHash).map
        fun file => .valid (columnKeys file column) := by
  rw [dir_of_shows inv shows]
  by_cases touched : s.TouchedFst fileHash column
  · obtain ⟨-, path, covered, rfl, file, found⟩ := asked_of_touchedFst inv own touched
    have back := named.path path column covered
    obtain ⟨name, leads, created⟩ := id touched
    rcases fst_of_untorn roundTrips inv back found leads ((untorn _).2 name leads) with
      ⟨untouched, -⟩ | ⟨-, held⟩
    · exact absurd created untouched
    · rw [held, contentAt, if_pos touched, back, found, named.column path column covered name leads]
      rfl
  · rw [contentAt, if_neg touched, Option.map_none]
    cases leads : fstFile column with
    | none => simp only [IndexDir.fst, leads, Option.bind_none]
    | some name =>
        rcases content_of_untorn inv ((untorn fileHash).2 name leads) with ⟨-, absent⟩ | ⟨there, -⟩
        · simp only [IndexDir.fst, leads, Option.bind_some, dir, absent, Option.map_none]
        · exact absurd ⟨name, leads, there⟩ touched

/-- **A lookup that meets no torn file is right** about the FSTs that are there,
whichever processes are under way or were killed. -/
theorem lookup_beside_processes (roundTrips : codec.RoundTrips)
    (distinct : Set.InjOn calculateFileHash {path | ∃ column, Covered tree calls path column})
    (noFeed : ∀ path column, Covered tree calls path column → ¬ '\n' ∈ path)
    (run : Run calculateFileHash codec tree calls True (start tree calls) s)
    (shows : s.Shows codec root) (own : OwnFiles (Concerned tree calls column))
    (untorn : ∀ fileHash, s.UntornFor column fileHash)
    (nulFree : ∀ path file, tree.dataFile? path = some file → NulFree file.content column)
    (opens : Opens column) {request : SearchRequest} (clean : request.Clean) :
    ∃ results, (request.run root (.new root) column).1 = .ok results ∧
      ∀ path g, (∃ fileMatch ∈ results, fileMatch.filePath = path ∧ g ∈ fileMatch.rowGroups) ↔
        Covered tree calls path column ∧ s.HasFst (calculateFileHash path) column ∧
          ∃ file, tree.dataFile? path = some file ∧
            g ∈ rowGroupsHolding file.content column request.selects := by
  obtain ⟨pathOf, columnOf, named⟩ := exists_namesBack distinct
    (own.mono (Set.subset_insert _ _))
  have inv := inv_of_run named run
  have oneLine : ∀ path, Covered tree calls path column → OneLine path := by
    intro path covered
    refine ⟨noFeed path column covered, ?_⟩
    obtain ⟨p, -, inWalk⟩ := covered
    exact not_return_of_hasParquetExtension (List.mem_filter.mp inWalk).2
  obtain ⟨results, ok, members⟩ := SearchRequest.run_of_content clean opens
    (fst_contentAt roundTrips named own inv shows untorn)
    (fun fileHash file held => by
      obtain ⟨-, data, found, rfl⟩ := contentAt_eq_some.mp held
      exact nulFree _ data found)
  refine ⟨results, ok, fun path g => (members path g).trans ?_⟩
  constructor
  · rintro ⟨fileHash, mapped, file, held, holds⟩
    obtain ⟨touched, data, found, rfl⟩ := contentAt_eq_some.mp held
    obtain ⟨recorded, path', covered, rfl, -⟩ := asked_of_touchedFst inv own touched
    have back := named.path path' column covered
    rw [back] at found
    rw [fileMap_of_touched inv shows back (oneLine path' covered) found (untorn _).1 recorded]
      at mapped
    cases mapped
    exact ⟨covered, (touchedFst_iff inv (untorn _)).mp touched, data, found, holds⟩
  · rintro ⟨covered, there, data, found, holds⟩
    have back := named.path path column covered
    have touched := (touchedFst_iff inv (untorn _)).mpr there
    obtain ⟨recorded, -⟩ := asked_of_touchedFst inv own touched
    exact ⟨calculateFileHash path,
      fileMap_of_touched inv shows back (oneLine path covered) found (untorn _).1 recorded,
      data.content, contentAt_eq_some.mpr ⟨touched, data, by rw [back, found], rfl⟩, holds⟩

end Beside

end Processes

/-- After the two processes, the lookup finds alice. -/
theorem lookup_beside_sample :
    ∃ (s : Processes (Fin 2)) (root : IndexRoot) (results : List FileMatches),
      Processes.Run sampleHash sampleCodec (singleTree samplePath alice) sideBySide True
        (.start (singleTree samplePath alice) sideBySide) s ∧ s.Shows sampleCodec root ∧
      ((SearchRequest.startsWith "al".toList).run root (.new root) sampleColumn).1 = .ok results ∧
      ∃ fileMatch ∈ results, fileMatch.filePath = samplePath ∧ 0 ∈ fileMatch.rowGroups := by
  obtain ⟨s, run, ended⟩ := finished_sample
  have own : OwnFiles
      (Processes.Concerned (singleTree samplePath alice) sideBySide sampleColumn) := by
    refine ownFiles_person.mono (Set.insert_subset (Or.inl rfl) ?_)
    rintro other ⟨path, covered⟩
    exact person_of_covered covered
  obtain ⟨pathOf, columnOf, named⟩ := Processes.exists_namesBack distinct_sample own_sample
  have inv := Processes.inv_of_run named run
  have untorn := Processes.untorn_of_walking inv fun p => by rw [ended p]
  have covered : Covered (singleTree samplePath alice) sideBySide samplePath sampleColumn :=
    ⟨0, rfl, by rw [sideBySide, parquetEntries_sample]; exact List.mem_cons_self⟩
  have touched := Processes.touched_of_over inv ended covered
  have recorded := (Processes.asked_of_touchedFst inv own touched).1
  have shows : s.Shows sampleCodec (s.found sampleCodec (sampleHash samplePath)) := by
    intro fileHash
    rw [Processes.found, Processes.lookup]
    by_cases here : fileHash = sampleHash samplePath
    · subst here
      rw [AList.lookup_insert, if_pos (inv.metadata _ recorded)]
    · rw [AList.lookup_insert_ne here, AList.lookup_empty, if_neg]
      intro made
      obtain ⟨path, column, covered', hashed⟩ := inv.dirs fileHash made
      exact here (by rw [← hashed, covered_sample covered'])
  have killable := Processes.Run.mono (fun _ : False => trivial) run
  have nulFree : ∀ path file, (singleTree samplePath alice).dataFile? path = some file →
      NulFree file.content sampleColumn := by
    intro path file found
    have known : Known (fun _ => {alice}) (singleTree samplePath alice) :=
      known_singleTree (Set.mem_singleton alice)
    rw [Set.mem_singleton_iff.mp (known path file found)]
    exact forall_holdsValue_iff.mpr (by decide)
  have clean : (SearchRequest.startsWith "al".toList).Clean := ⟨by decide, by decide, by decide⟩
  obtain ⟨results, ok, members⟩ := Processes.lookup_beside_processes sampleCodec_roundTrips
    distinct_sample (fun path column covered' => covered_sample covered' ▸ by decide) killable shows
    own (fun _ => ⟨untorn _, fun _ _ => untorn _⟩) nulFree (by decide) clean
  have there := (Processes.touchedFst_iff inv ⟨untorn _, fun _ _ => untorn _⟩).mp touched
  exact ⟨s, _, results, killable, shows, ok, (members samplePath 0).mpr ⟨covered, there, alice,
    dataFile_singleTree _ _, by decide⟩⟩

end Pdq
