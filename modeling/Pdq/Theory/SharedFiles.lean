/- Pdq.Theory.SharedFiles -- files that several writers write at once.

Every file has one right content, and whoever writes it writes that: it creates
the file, which empties it, and then writes the content front to back through a
handle with a position of its own, in pieces of any length.  The pieces of
several writers come in any order, between two of them the file may be emptied
again, and a writer may be dropped anywhere.

`mark` is a ghost: it says whether the writer that created the file last has
finished.  `Inv` follows it through any run.  A file is torn only while that
writer is under way or after it was dropped: otherwise it is as it was or right,
whatever the other writers do (`content_of_whole`).  When no writer is dropped and
every handle is closed, no file is torn (`settled`). -/
import Mathlib.Data.List.Basic
import Mathlib.Data.List.TakeDrop
import Mathlib.Logic.Function.Basic
import Mathlib.Logic.Relation
import Mathlib.Order.Lattice

namespace Pdq.Theory.SharedFiles

set_option autoImplicit false
set_option linter.unusedSectionVars false

variable {L H β : Type} [DecidableEq L] [DecidableEq H]

/-! ## Writing at a position -/

/-- Write a piece at a position; what lies between the end and the position is
filled with `zero`. -/
def writeAt (zero : β) (bytes : List β) (position : Nat) (piece : List β) : List β :=
  (bytes ++ List.replicate (position - bytes.length) zero).take position ++ piece ++
    bytes.drop (position + piece.length)

theorem length_writeAt (zero : β) (bytes : List β) (position : Nat) (piece : List β) :
    (writeAt zero bytes position piece).length =
      max bytes.length (position + piece.length) := by
  simp only [writeAt, List.length_append, List.length_take, List.length_replicate,
    List.length_drop]
  omega

/-- Inside the piece the file is the piece. -/
theorem getElem?_writeAt_inside (zero : β) (bytes : List β) (position : Nat) (piece : List β)
    {i : Nat} (bound : i < piece.length) :
    (writeAt zero bytes position piece)[position + i]? = piece[i]? := by
  have front : ((bytes ++ List.replicate (position - bytes.length) zero).take position).length =
      position := by
    simp only [List.length_take, List.length_append, List.length_replicate]
    omega
  rw [writeAt, List.append_assoc, List.getElem?_append_right (by omega), front,
    Nat.add_sub_cancel_left, List.getElem?_append_left bound]

/-- Outside the piece the file is what it was. -/
theorem getElem?_writeAt_outside (zero : β) (bytes : List β) (position : Nat) (piece : List β)
    {i : Nat} (bound : i < bytes.length) (outside : i < position ∨ position + piece.length ≤ i) :
    (writeAt zero bytes position piece)[i]? = bytes[i]? := by
  have front : ((bytes ++ List.replicate (position - bytes.length) zero).take position).length =
      position := by
    simp only [List.length_take, List.length_append, List.length_replicate]
    omega
  rcases outside with before | after
  · rw [writeAt, List.append_assoc, List.getElem?_append_left (by omega),
      List.getElem?_take_of_lt before, List.getElem?_append_left bound]
  · rw [writeAt, List.getElem?_append_right (by simp only [List.length_append, front]; omega),
      List.length_append, front, List.getElem?_drop]
    congr 1
    omega

/-! ## Files and handles -/

/-- What is known of a file: nobody has created it, the writer that created it
last has not finished, or it has. -/
inductive Mark (H : Type) where
  | untouched
  | creating (writer : H)
  | complete

structure Files (L H β : Type) where
  content : L → Option (List β)
  /-- The file a writer has open, and its position. -/
  handles : H → Option (L × Nat)
  mark : L → Mark H

namespace Files

/-- Files that nobody writes yet. -/
def start (content : L → Option (List β)) : Files L H β :=
  ⟨content, fun _ => none, fun _ => .untouched⟩

/-- `File::create` -/
def create (s : Files L H β) (writer : H) (file : L) : Files L H β where
  content := Function.update s.content file (some [])
  handles := Function.update s.handles writer (some (file, 0))
  mark := Function.update s.mark file (.creating writer)

/-- Write the next piece of the right content. -/
def write (zero : β) (right : List β) (s : Files L H β) (writer : H) (file : L)
    (position count : Nat) : Files L H β :=
  let piece := (right.drop position).take count
  { s with
    content := Function.update s.content file
      (some (writeAt zero ((s.content file).getD []) position piece))
    handles := Function.update s.handles writer (some (file, position + piece.length)) }

/-- Close the file after its last piece. -/
def close (s : Files L H β) (writer : H) (file : L) : Files L H β where
  content := s.content
  handles := Function.update s.handles writer none
  mark := match s.mark file with
    | .creating other => if other = writer then Function.update s.mark file .complete else s.mark
    | _ => s.mark

/-- The writer is gone; what it has written stays. -/
def drop (s : Files L H β) (writer : H) : Files L H β :=
  { s with handles := Function.update s.handles writer none }

end Files

/-- One step of one writer; `mayDrop` says whether writers may be dropped. -/
inductive Step (right : L → List β) (zero : β) (mayDrop : Prop) :
    Files L H β → Files L H β → Prop where
  | create {s : Files L H β} {writer : H} (closed : s.handles writer = none) (file : L) :
      Step right zero mayDrop s (s.create writer file)
  | write {s : Files L H β} {writer : H} {file : L} {position : Nat}
      (opened : s.handles writer = some (file, position)) (count : Nat) :
      Step right zero mayDrop s (s.write zero (right file) writer file position count)
  | close {s : Files L H β} {writer : H} {file : L} {position : Nat}
      (opened : s.handles writer = some (file, position))
      (whole : (right file).length ≤ position) :
      Step right zero mayDrop s (s.close writer file)
  | drop {s : Files L H β} (may : mayDrop) (writer : H) : Step right zero mayDrop s (s.drop writer)

abbrev Run (right : L → List β) (zero : β) (mayDrop : Prop) : Files L H β → Files L H β → Prop :=
  Relation.ReflTransGen (Step right zero mayDrop)

/-! ## The invariant -/

/-- What a file that was created is worth. -/
def Written (right : List β) (handles : H → Option (L × Nat)) (file : L) (bytes : List β) :
    Mark H → Prop
  | .untouched => True
  | .creating writer => ∀ position, handles writer = some (file, position) →
      ∀ i < position, bytes[i]? = right[i]?
  | .complete => bytes = right

structure Inv (right : L → List β) (initial : L → Option (List β)) (s : Files L H β) : Prop where
  opened : ∀ writer file position, s.handles writer = some (file, position) →
    position ≤ (right file).length ∧ s.mark file ≠ .untouched
  untouched : ∀ file, s.mark file = .untouched → s.content file = initial file
  created : ∀ file, s.mark file ≠ .untouched → ∃ bytes, s.content file = some bytes ∧
    bytes.length ≤ (right file).length ∧ Written (right file) s.handles file bytes (s.mark file)

section Invariant

variable {right : L → List β} {zero : β} {mayDrop : Prop} {initial : L → Option (List β)}
  {s s' : Files L H β}

theorem inv_start : Inv right initial (Files.start initial : Files L H β) where
  opened _ _ _ opened := nomatch opened
  untouched _ _ := rfl
  created _ touched := absurd rfl touched

/-- What a file is worth does not depend on writers that have another file open. -/
theorem Written.congr {right bytes : List β} {handles handles' : H → Option (L × Nat)} {file : L}
    {mark : Mark H} (written : Written right handles file bytes mark)
    (same : ∀ writer position, handles' writer = some (file, position) →
      ∃ later, position ≤ later ∧ handles writer = some (file, later)) :
    Written right handles' file bytes mark := by
  cases mark with
  | untouched => trivial
  | complete => exact written
  | creating writer =>
      intro position opened i below
      obtain ⟨later, bound, before⟩ := same writer position opened
      exact written later before i (Nat.lt_of_lt_of_le below bound)

theorem inv_create (inv : Inv right initial s) (writer : H) (file : L) :
    Inv right initial (s.create writer file) := by
  constructor
  · intro other file' position opened
    by_cases same : other = writer
    · subst same
      simp only [Files.create, Function.update_self, Option.some.injEq, Prod.mk.injEq] at opened
      obtain ⟨rfl, rfl⟩ := opened
      exact ⟨Nat.zero_le _, by simp [Files.create]⟩
    · simp only [Files.create, Function.update_of_ne same] at opened
      obtain ⟨bound, touched⟩ := inv.opened other file' position opened
      refine ⟨bound, ?_⟩
      by_cases here : file' = file
      · subst here
        simp [Files.create]
      · simpa only [Files.create, Function.update_of_ne here] using touched
  · intro file' untouched
    by_cases here : file' = file
    · subst here
      simp [Files.create] at untouched
    · simp only [Files.create, Function.update_of_ne here] at untouched ⊢
      exact inv.untouched file' untouched
  · intro file' touched
    by_cases here : file' = file
    · subst here
      refine ⟨[], by simp [Files.create], Nat.zero_le _, ?_⟩
      simp only [Files.create, Function.update_self]
      intro position opened i below
      simp only [Function.update_self, Option.some.injEq, Prod.mk.injEq] at opened
      omega
    · simp only [Files.create, Function.update_of_ne here] at touched ⊢
      obtain ⟨bytes, held, bound, written⟩ := inv.created file' touched
      refine ⟨bytes, held, bound, written.congr fun other position opened => ?_⟩
      by_cases same : other = writer
      · subst same
        simp only [Function.update_self, Option.some.injEq, Prod.mk.injEq] at opened
        exact absurd opened.1.symm here
      · rw [Function.update_of_ne same] at opened
        exact ⟨position, le_rfl, opened⟩

/-- A piece of the right content leaves right what was right, and makes right what
it covers. -/
theorem getElem?_write {bytes right : List β} {position count bound i : Nat}
    (known : ∀ j < bound, bytes[j]? = right[j]?) (fits : bound ≤ right.length)
    (below : i < bound ∨ position ≤ i ∧ i < position + ((right.drop position).take count).length) :
    (writeAt zero bytes position ((right.drop position).take count))[i]? = right[i]? := by
  by_cases inside : position ≤ i ∧ i < position + ((right.drop position).take count).length
  · obtain ⟨offset, rfl⟩ := Nat.exists_eq_add_of_le inside.1
    have short : offset < ((right.drop position).take count).length := by omega
    rw [getElem?_writeAt_inside zero bytes position _ short, List.getElem?_take_of_lt,
      List.getElem?_drop]
    simp only [List.length_take] at short
    omega
  · have earlier : i < bound := below.resolve_right inside
    have same := known i earlier
    have held : i < bytes.length := by
      by_contra beyond
      rw [List.getElem?_eq_none (not_lt.mp beyond), eq_comm, List.getElem?_eq_none_iff] at same
      omega
    rw [getElem?_writeAt_outside zero bytes position _ held (by omega), same]

theorem inv_write (inv : Inv right initial s) {writer : H} {file : L} {position : Nat}
    (opened : s.handles writer = some (file, position)) (count : Nat) :
    Inv right initial (s.write zero (right file) writer file position count) := by
  obtain ⟨fits, touched⟩ := inv.opened writer file position opened
  have advanced : position + (((right file).drop position).take count).length ≤
      (right file).length := by
    simp only [List.length_take, List.length_drop]
    omega
  constructor
  · intro other file' position' opened'
    by_cases same : other = writer
    · subst same
      simp only [Files.write, Function.update_self, Option.some.injEq, Prod.mk.injEq] at opened'
      obtain ⟨rfl, rfl⟩ := opened'
      exact ⟨advanced, touched⟩
    · simp only [Files.write, Function.update_of_ne same] at opened'
      exact inv.opened other file' position' opened'
  · intro file' untouched
    have here : file' ≠ file := by
      rintro rfl
      exact touched untouched
    simpa only [Files.write, Function.update_of_ne here] using inv.untouched file' untouched
  · intro file' touched'
    obtain ⟨bytes, held, bound, written⟩ := inv.created file' touched'
    by_cases here : file' = file
    · subst here
      refine ⟨writeAt zero bytes position (((right file').drop position).take count),
        by simp only [Files.write, Function.update_self, held, Option.getD_some], ?_, ?_⟩
      · rw [length_writeAt]
        exact max_le bound advanced
      · show Written (right file') _ file' _ (s.mark file')
        cases marked : s.mark file' with
        | untouched => trivial
        | complete =>
            rw [marked] at written
            refine List.ext_getElem? fun i => ?_
            by_cases inside : i < (right file').length
            · have known : ∀ j < (right file').length, bytes[j]? = (right file')[j]? := by
                rw [show bytes = right file' from written]
                exact fun _ _ => rfl
              exact getElem?_write known le_rfl (Or.inl inside)
            · have short : (writeAt zero bytes position
                  (((right file').drop position).take count)).length ≤ (right file').length := by
                rw [length_writeAt]
                exact max_le bound advanced
              rw [List.getElem?_eq_none (by omega), List.getElem?_eq_none (by omega)]
        | creating last =>
            rw [marked] at written
            intro position' opened' i below
            by_cases same : last = writer
            · subst same
              simp only [Files.write, Function.update_self, Option.some.injEq, Prod.mk.injEq,
                true_and] at opened'
              subst opened'
              refine getElem?_write (fun j lower => written position opened j lower) fits ?_
              omega
            · simp only [Files.write, Function.update_of_ne same] at opened'
              exact getElem?_write (written position' opened')
                (inv.opened last file' position' opened').1 (Or.inl below)
    · refine ⟨bytes, by simpa only [Files.write, Function.update_of_ne here] using held, bound,
        written.congr fun other position' opened' => ?_⟩
      by_cases same : other = writer
      · subst same
        simp only [Files.write, Function.update_self, Option.some.injEq, Prod.mk.injEq] at opened'
        exact absurd opened'.1.symm here
      · simp only [Files.write, Function.update_of_ne same] at opened'
        exact ⟨position', le_rfl, opened'⟩

/-- A writer that lets go of its file takes nothing away. -/
theorem Written.release {right bytes : List β} {handles : H → Option (L × Nat)} {file : L}
    {mark : Mark H} (written : Written right handles file bytes mark) (writer : H) :
    Written right (Function.update handles writer none) file bytes mark := by
  refine written.congr fun other position opened => ?_
  by_cases same : other = writer
  · subst same
    simp at opened
  · rw [Function.update_of_ne same] at opened
    exact ⟨position, le_rfl, opened⟩

theorem inv_drop (inv : Inv right initial s) (writer : H) : Inv right initial (s.drop writer) where
  opened other file position opened := by
    by_cases same : other = writer
    · subst same
      simp [Files.drop] at opened
    · simp only [Files.drop, Function.update_of_ne same] at opened
      exact inv.opened other file position opened
  untouched := inv.untouched
  created file touched := by
    obtain ⟨bytes, held, bound, written⟩ := inv.created file touched
    exact ⟨bytes, held, bound, written.release writer⟩

/-- What closing does to the mark of a file. -/
theorem mark_close (s : Files L H β) (writer : H) (file other : L) :
    (s.close writer file).mark other = s.mark other ∨
      other = file ∧ s.mark file = .creating writer ∧
        (s.close writer file).mark other = .complete := by
  unfold Files.close
  cases marked : s.mark file with
  | untouched => exact Or.inl rfl
  | complete => exact Or.inl rfl
  | creating last =>
      by_cases same : last = writer
      · subst same
        by_cases here : other = file
        · subst here
          exact Or.inr ⟨rfl, rfl, by simp⟩
        · exact Or.inl (by simp [here])
      · exact Or.inl (by simp [same])

theorem inv_close (inv : Inv right initial s) {writer : H} {file : L} {position : Nat}
    (opened : s.handles writer = some (file, position))
    (whole : (right file).length ≤ position) : Inv right initial (s.close writer file) := by
  have handles : (s.close writer file).handles = Function.update s.handles writer none := rfl
  constructor
  · intro other file' position' opened'
    by_cases same : other = writer
    · subst same
      simp [handles] at opened'
    · rw [handles, Function.update_of_ne same] at opened'
      obtain ⟨bound, touched⟩ := inv.opened other file' position' opened'
      refine ⟨bound, ?_⟩
      rcases mark_close s writer file file' with kept | ⟨-, -, finished⟩
      · rwa [kept]
      · rw [finished]
        exact fun absurd => nomatch absurd
  · intro file' untouched
    rcases mark_close s writer file file' with kept | ⟨-, -, finished⟩
    · rw [kept] at untouched
      exact inv.untouched file' untouched
    · rw [finished] at untouched
      cases untouched
  · intro file' touched
    rcases mark_close s writer file file' with kept | ⟨rfl, last, finished⟩
    · rw [kept] at touched ⊢
      obtain ⟨bytes, held, bound, written⟩ := inv.created file' touched
      exact ⟨bytes, held, bound, written.release writer⟩
    · -- The last creator has written everything, and nothing lies behind the right content.
      obtain ⟨bytes, held, bound, written⟩ := inv.created file' (by rw [last]; exact nofun)
      rw [last] at written
      refine ⟨bytes, held, bound, ?_⟩
      rw [finished]
      refine List.ext_getElem? fun i => ?_
      by_cases inside : i < position
      · exact written position opened i inside
      · rw [List.getElem?_eq_none (by omega), List.getElem?_eq_none (by omega)]

theorem inv_step (inv : Inv right initial s) (step : Step right zero mayDrop s s') :
    Inv right initial s' := by
  cases step with
  | create _ file => exact inv_create inv _ file
  | write opened count => exact inv_write inv opened count
  | close opened whole => exact inv_close inv opened whole
  | drop _ writer => exact inv_drop inv writer

/-- A file that was created stays created. -/
theorem touched_step (step : Step right zero mayDrop s s') {file : L}
    (touched : s.mark file ≠ .untouched) : s'.mark file ≠ .untouched := by
  cases step with
  | @create writer _ file' =>
      by_cases here : file = file'
      · subst here
        simp [Files.create]
      · simpa only [Files.create, Function.update_of_ne here] using touched
  | write _ _ => exact touched
  | @close writer file' _ _ _ =>
      rcases mark_close s writer file' file with kept | ⟨-, -, finished⟩
      · rwa [kept]
      · rw [finished]
        exact nofun
  | drop _ _ => exact touched

/-- **The invariant holds in every run**, whatever the order of the steps. -/
theorem inv_of_run (run : Run right zero mayDrop (Files.start initial) s) :
    Inv right initial s := by
  induction run with
  | refl => exact inv_start
  | tail _ step ih => exact inv_step ih step

/-- **Once the last creator has finished, the file is right.** -/
theorem content_of_complete (inv : Inv right initial s) {file : L}
    (complete : s.mark file = .complete) : s.content file = some (right file) := by
  obtain ⟨bytes, held, -, written⟩ := inv.created file (by rw [complete]; exact nofun)
  rw [complete] at written
  rw [held, show bytes = right file from written]

/-- **A file that is not torn is as it was, or right.** -/
theorem content_of_whole (inv : Inv right initial s) {file : L}
    (whole : ∀ writer, s.mark file ≠ .creating writer) :
    (s.mark file = .untouched ∧ s.content file = initial file) ∨
      (s.mark file ≠ .untouched ∧ s.content file = some (right file)) := by
  cases marked : s.mark file with
  | untouched => exact Or.inl ⟨rfl, inv.untouched file marked⟩
  | creating writer => exact absurd marked (whole writer)
  | complete => exact Or.inr ⟨nofun, content_of_complete inv marked⟩

/-! ## Runs in which no writer is dropped -/

/-- Whoever created a file last and has not finished has it open. -/
def Attended (s : Files L H β) : Prop :=
  ∀ file writer, s.mark file = .creating writer →
    ∃ position, s.handles writer = some (file, position)

theorem attended_step (attended : Attended s) (step : Step right zero False s s') :
    Attended s' := by
  cases step with
  | @create writer closed file =>
      intro file' last marked
      by_cases here : file' = file
      · subst here
        simp only [Files.create, Function.update_self, Mark.creating.injEq] at marked
        subst marked
        exact ⟨0, by simp [Files.create]⟩
      · simp only [Files.create, Function.update_of_ne here] at marked
        obtain ⟨position, opened⟩ := attended file' last marked
        have other : last ≠ writer := by
          rintro rfl
          rw [closed] at opened
          cases opened
        exact ⟨position, by simpa only [Files.create, Function.update_of_ne other] using opened⟩
  | @write writer file position opened count =>
      intro file' last marked
      obtain ⟨position', opened'⟩ := attended file' last marked
      by_cases same : last = writer
      · subst same
        rw [opened] at opened'
        cases opened'
        exact ⟨position + (((right file).drop position).take count).length,
          by simp only [Files.write, Function.update_self]⟩
      · exact ⟨position', by simpa only [Files.write, Function.update_of_ne same] using opened'⟩
  | @close writer file position opened whole =>
      intro file' last marked
      rcases mark_close s writer file file' with kept | ⟨-, -, finished⟩
      · obtain ⟨position', opened'⟩ := attended file' last (kept ▸ marked)
        have other : last ≠ writer := by
          rintro rfl
          rw [opened] at opened'
          cases opened'
          -- Closing its own file would have completed it.
          have before := kept ▸ marked
          simp [Files.close, before] at marked
        refine ⟨position', ?_⟩
        show Function.update s.handles writer none last = _
        rw [Function.update_of_ne other, opened']
      · rw [finished] at marked
        cases marked
  | drop may writer => exact may.elim

theorem attended_of_run (run : Run right zero False (Files.start initial) s) : Attended s := by
  induction run with
  | refl => exact fun _ _ marked => nomatch marked
  | tail _ step ih => exact attended_step ih step

/-- **When every handle is closed, no file is torn.** -/
theorem settled (run : Run right zero False (Files.start initial) s)
    (closed : ∀ writer, s.handles writer = none) (file : L) (writer : H) :
    s.mark file ≠ .creating writer := by
  intro marked
  obtain ⟨position, opened⟩ := attended_of_run run file writer marked
  rw [closed writer] at opened
  cases opened

end Invariant

end Pdq.Theory.SharedFiles
