/- Pdq.Theory.Labels -- words of labels, read from either end.

A word is a list of labels with a separator between them.  Reversing the order of
the labels is its own inverse (`reverseLabels_reverseLabels`), and it turns the words
that end in given labels into the words that begin with them
(`suffix_iff_prefix_reverseLabels`). -/
import Mathlib.Data.List.Basic

namespace Pdq.Theory

set_option autoImplicit false

variable {α : Type} [DecidableEq α] {x : α}

/-- No label holds the separator. -/
theorem not_mem_of_mem_splitOn {word label : List α} (member : label ∈ word.splitOn x) :
    x ∉ label := by
  induction word generalizing label with
  | nil =>
      rw [List.splitOn_nil, List.mem_singleton] at member
      subst member
      exact List.not_mem_nil
  | cons a word ih =>
      obtain ⟨first, rest, split⟩ := List.exists_cons_of_ne_nil (List.splitOn_ne_nil x word)
      rw [List.splitOn_cons_eq_if_modifyHead] at member
      by_cases separates : a = x
      · rw [if_pos (beq_iff_eq.mpr separates), List.mem_cons] at member
        rcases member with rfl | later
        · exact List.not_mem_nil
        · exact ih later
      · rw [if_neg (by simpa using separates), split, List.modifyHead_cons, List.mem_cons] at member
        rw [split] at ih
        rcases member with rfl | later
        · rw [List.mem_cons, not_or]
          exact ⟨Ne.symm separates, ih List.mem_cons_self⟩
        · exact ih (List.mem_cons_of_mem first later)

omit [DecidableEq α] in
/-- Joined labels hold what the labels hold. -/
theorem mem_intercalate {a : α} (ne : a ≠ x) {labels : List (List α)} :
    a ∈ [x].intercalate labels ↔ ∃ label ∈ labels, a ∈ label := by
  induction labels with
  | nil => simp
  | cons label rest ih =>
      cases rest with
      | nil => simp
      | cons next rest =>
          rw [List.intercalate_cons_cons, List.append_assoc, List.mem_append, List.mem_append, ih,
            List.mem_singleton, or_iff_right ne]
          simp only [List.mem_cons, exists_eq_or_imp]

/-- A word is known by its labels. -/
theorem eq_of_splitOn_eq {word other : List α} (same : word.splitOn x = other.splitOn x) :
    word = other := by
  calc word = [x].intercalate (word.splitOn x) := (List.intercalate_splitOn x).symm
    _ = [x].intercalate (other.splitOn x) := by rw [same]
    _ = other := List.intercalate_splitOn x

variable (x) in
/-- The labels of a word, last one first. -/
def reverseLabels (word : List α) : List α := [x].intercalate (word.splitOn x).reverse

theorem splitOn_reverseLabels (word : List α) :
    (reverseLabels x word).splitOn x = (word.splitOn x).reverse :=
  List.splitOn_intercalate x
    (fun _ member => not_mem_of_mem_splitOn (List.mem_reverse.mp member))
    (by simp)

/-- **Reversing the labels twice** gives the word back. -/
theorem reverseLabels_reverseLabels (word : List α) :
    reverseLabels x (reverseLabels x word) = word := by
  rw [reverseLabels, splitOn_reverseLabels, List.reverse_reverse, List.intercalate_splitOn]

theorem mem_reverseLabels {a : α} (ne : a ≠ x) {word : List α} :
    a ∈ reverseLabels x word ↔ a ∈ word := by
  have labels : a ∈ [x].intercalate (word.splitOn x) ↔ _ := mem_intercalate ne
  rw [List.intercalate_splitOn] at labels
  rw [reverseLabels, mem_intercalate ne, labels]
  simp only [List.mem_reverse]

theorem reverseLabels_append (front rest : List α) :
    reverseLabels x (front ++ x :: rest) = reverseLabels x rest ++ x :: reverseLabels x front := by
  refine eq_of_splitOn_eq (x := x) ?_
  rw [splitOn_reverseLabels, List.splitOn_append_cons_self, List.splitOn_append_cons_self,
    splitOn_reverseLabels, splitOn_reverseLabels, List.reverse_append]

/-- **A word ends in the labels of another**, with some before them, exactly when the
reversed word begins with the other one reversed. -/
theorem suffix_iff_prefix_reverseLabels {word labels : List α} :
    x :: labels <:+ word ↔ reverseLabels x labels ++ [x] <+: reverseLabels x word := by
  constructor
  · rintro ⟨front, rfl⟩
    refine ⟨reverseLabels x front, ?_⟩
    rw [reverseLabels_append, List.append_assoc, List.singleton_append]
  · rintro ⟨rest, whole⟩
    refine ⟨reverseLabels x rest, ?_⟩
    rw [List.append_assoc, List.singleton_append] at whole
    rw [← reverseLabels_reverseLabels (x := x) word, ← whole, reverseLabels_append,
      reverseLabels_reverseLabels]

end Pdq.Theory
