/- Pdq.Theory.SortedSet -- finite sets kept as strictly increasing lists.

The one carrier for an ordered set, for the key sequence a streaming builder
accepts, and for a hash set that is sorted before it is handed out: a list
together with the proof that it is strictly increasing.  Two of them with the
same members are equal (`ext_mem`), so a set may be described by its members
alone.  `range lo hi` is the half-open range stream. -/
import Mathlib.Data.List.Lex
import Mathlib.Data.List.Sort

namespace Pdq.Theory

set_option autoImplicit false

/-- A finite set of `α`, listed in strictly increasing order. -/
structure SortedSet (α : Type) [LinearOrder α] where
  toList : List α
  sorted : toList.SortedLT

namespace SortedSet

variable {α : Type} [LinearOrder α]

instance : Membership α (SortedSet α) := ⟨fun s a => a ∈ s.toList⟩

instance (a : α) (s : SortedSet α) : Decidable (a ∈ s) :=
  inferInstanceAs (Decidable (a ∈ s.toList))

@[simp] theorem mem_toList {s : SortedSet α} {a : α} : a ∈ s.toList ↔ a ∈ s := Iff.rfl

theorem toList_injective : Function.Injective (toList : SortedSet α → List α) := by
  rintro ⟨l, _⟩ ⟨_, _⟩ rfl
  rfl

instance : DecidableEq (SortedSet α) := fun s t =>
  decidable_of_iff (s.toList = t.toList) toList_injective.eq_iff

/-- A sorted set is determined by its members. -/
theorem ext_mem {s t : SortedSet α} (same : ∀ a, a ∈ s ↔ a ∈ t) : s = t :=
  toList_injective (s.sorted.eq_of_mem_iff t.sorted same)

/-! ## Building -/

def empty : SortedSet α := ⟨[], List.Pairwise.nil.sortedLT⟩

@[simp] theorem not_mem_empty (a : α) : ¬ a ∈ (empty : SortedSet α) := by
  rintro ⟨⟩

/-- Put `a` in its place, unless it is already there. -/
def insertList (a : α) : List α → List α
  | [] => [a]
  | b :: l => if a < b then a :: b :: l else if a = b then b :: l else b :: insertList a l

theorem mem_insertList {a x : α} {l : List α} : x ∈ insertList a l ↔ x = a ∨ x ∈ l := by
  induction l with
  | nil => simp [insertList]
  | cons b l ih =>
      simp only [insertList]
      split
      · simp
      · split
        · rename_i same
          simp [same]
        · simp only [List.mem_cons, ih]
          tauto

theorem insertList_sorted (a : α) {l : List α} (sorted : l.Pairwise (· < ·)) :
    (insertList a l).Pairwise (· < ·) := by
  induction l with
  | nil => simp [insertList]
  | cons b l ih =>
      obtain ⟨below, rest⟩ := List.pairwise_cons.mp sorted
      simp only [insertList]
      split
      · rename_i less
        refine List.pairwise_cons.mpr ⟨fun x member => ?_, sorted⟩
        rcases List.mem_cons.mp member with rfl | later
        · exact less
        · exact less.trans (below x later)
      · split
        · exact sorted
        · rename_i notLess different
          have greater : b < a := lt_of_le_of_ne (not_lt.mp notLess) (Ne.symm different)
          refine List.pairwise_cons.mpr ⟨fun x member => ?_, ih rest⟩
          rcases mem_insertList.mp member with rfl | later
          · exact greater
          · exact below x later

def insert (a : α) (s : SortedSet α) : SortedSet α :=
  ⟨insertList a s.toList, (insertList_sorted a s.sorted.pairwise).sortedLT⟩

@[simp] theorem mem_insert {a x : α} {s : SortedSet α} : x ∈ s.insert a ↔ x = a ∨ x ∈ s :=
  mem_insertList

/-- Insert every element of `l`, first to last. -/
def insertAll (s : SortedSet α) (l : List α) : SortedSet α :=
  l.foldl (fun t a => t.insert a) s

@[simp] theorem mem_insertAll {x : α} {s : SortedSet α} {l : List α} :
    x ∈ s.insertAll l ↔ x ∈ l ∨ x ∈ s := by
  induction l generalizing s with
  | nil => simp [insertAll]
  | cons a l ih =>
      have step : s.insertAll (a :: l) = (s.insert a).insertAll l := rfl
      rw [step, ih, mem_insert, List.mem_cons]
      tauto

def ofList (l : List α) : SortedSet α := empty.insertAll l

@[simp] theorem mem_ofList {x : α} {l : List α} : x ∈ ofList l ↔ x ∈ l := by
  simp [ofList]

/-! ## Reading -/

def isEmpty (s : SortedSet α) : Bool := s.toList.isEmpty

theorem isEmpty_iff {s : SortedSet α} : s.isEmpty = true ↔ ∀ a, ¬ a ∈ s := by
  rw [isEmpty, List.isEmpty_iff]
  exact List.eq_nil_iff_forall_not_mem

/-- Keep the members that satisfy `p`. -/
def filter (p : α → Bool) (s : SortedSet α) : SortedSet α :=
  ⟨s.toList.filter p, (s.sorted.pairwise.filter p).sortedLT⟩

@[simp] theorem mem_filter {p : α → Bool} {s : SortedSet α} {a : α} :
    a ∈ s.filter p ↔ a ∈ s ∧ p a = true :=
  List.mem_filter

/-- The members from `lo` on and below `hi`, in increasing order. -/
def range (s : SortedSet α) (lo hi : α) : List α :=
  s.toList.filter fun a => decide (lo ≤ a) && decide (a < hi)

@[simp] theorem mem_range {s : SortedSet α} {lo hi a : α} :
    a ∈ s.range lo hi ↔ a ∈ s ∧ lo ≤ a ∧ a < hi := by
  simp [range]

end SortedSet

end Pdq.Theory
