/- Pdq.Theory.Lines -- splitting a text into lines.

A line ends at a line feed or at a carriage return followed by a line feed; the
terminator is not part of the line, and a last line without a terminator still
counts.  `lines_append_newline` splits off a first line that holds no line feed
and does not end in a carriage return; `newline_not_mem_line` says that nothing
else can ever be a line. -/
import Pdq.Theory.Utf8

namespace Pdq.Theory

set_option autoImplicit false

def lines : Str → List Str
  | [] => []
  | c :: cs =>
      if c = '\n' then [] :: lines cs
      else if c = '\r' ∧ cs.head? = some '\n' then lines cs
      else
        match lines cs with
        | [] => [[c]]
        | line :: rest => (c :: line) :: rest

/-- A text that can stand as a line: no line feed inside, no carriage return at
the end. -/
def OneLine (s : Str) : Prop := ¬ '\n' ∈ s ∧ s.getLast? ≠ some '\r'

theorem OneLine.tail {c : Char} {s : Str} (one : OneLine (c :: s)) : OneLine s := by
  refine ⟨fun member => one.1 (List.mem_cons_of_mem c member), fun last => one.2 ?_⟩
  rw [List.getLast?_cons, last]
  rfl

theorem lines_append_newline {s : Str} (one : OneLine s) (rest : Str) :
    lines (s ++ '\n' :: rest) = s :: lines rest := by
  induction s with
  | nil => simp [lines]
  | cons c s ih =>
      have notFeed : c ≠ '\n' := fun same => one.1 (same ▸ List.mem_cons_self)
      -- A carriage return in front of the terminator would be swallowed by it.
      have notReturn : ¬ (c = '\r' ∧ (s ++ '\n' :: rest).head? = some '\n') := by
        rintro ⟨rfl, next⟩
        cases s with
        | nil => exact one.2 rfl
        | cons d s =>
            have feed : d = '\n' := by simpa using next
            exact one.1 (by simp [feed])
      simp only [List.cons_append, lines, if_neg notFeed, if_neg notReturn, ih one.tail]

theorem lines_ne_nil {s : Str} (nonempty : s ≠ []) : lines s ≠ [] := by
  induction s with
  | nil => exact absurd rfl nonempty
  | cons c s ih =>
      simp only [lines]
      split
      · simp
      · split
        · rename_i return_
          refine ih ?_
          rintro rfl
          cases return_.2
        · split <;> simp

theorem newline_not_mem_line {s line : Str} (member : line ∈ lines s) : ¬ '\n' ∈ line := by
  induction s generalizing line with
  | nil => simp [lines] at member
  | cons c s ih =>
      simp only [lines] at member
      split at member
      · rcases List.mem_cons.mp member with rfl | later
        · simp
        · exact ih later
      · split at member
        · exact ih member
        · rename_i notFeed _
          cases tails : lines s with
          | nil =>
              simp only [tails, List.mem_singleton] at member
              subst member
              simpa using Ne.symm notFeed
          | cons first rest =>
              simp only [tails, List.mem_cons] at member
              rcases member with rfl | later
              · have inner : ¬ '\n' ∈ first := ih (by simp [tails])
                simpa [Ne.symm notFeed] using inner
              · exact ih (by simp [tails, later])

theorem oneLine_decimal {s : Str} (digits : ∀ c ∈ s, c.isDigit = true) : OneLine s := by
  refine ⟨fun member => absurd (digits _ member) (by decide), fun last => ?_⟩
  exact absurd (digits _ (List.mem_of_getLast? last)) (by decide)

end Pdq.Theory
