/- Pdq.Theory.PrefixCone -- what a lexicographic interval between two one-symbol
extensions of a word contains, what a terminator symbol does to the order of
words, and codes whose words never run into each other.

`mem_cone_iff`: when `b` covers `a`, the half-open interval from `p ++ [a]` to
`p ++ [b]` is exactly the set of words that start with `p ++ [a]`.
`terminated_le_iff` and `terminated_lt_iff`: words closed by a least symbol they
do not contain stand in the order of the bare words, whatever follows it.
`PrefixFree.flatMap_prefix_iff`: a prefix-free code carries the prefix order of
source words to the prefix order of their codes, in both directions. -/
import Mathlib.Data.List.Lex
import Mathlib.Order.Cover

namespace Pdq.Theory

set_option autoImplicit false

/-! ## Intervals of words -/

section Cone

variable {α : Type} [LinearOrder α]

theorem cons_lt_cons_same (x : α) {u v : List α} : x :: u < x :: v ↔ u < v := by
  simp

theorem append_lt_append_same (p : List α) {u v : List α} : p ++ u < p ++ v ↔ u < v := by
  induction p with
  | nil => rfl
  | cons x p ih => rw [List.cons_append, List.cons_append, cons_lt_cons_same, ih]

theorem append_le_append_same (p : List α) {u v : List α} : p ++ u ≤ p ++ v ↔ u ≤ v := by
  rw [← not_lt, ← not_lt, append_lt_append_same]

/-- The interval from `[a]` to `[b]` holds the words whose first symbol is `a`. -/
theorem between_singletons_iff {a b : α} (cover : a ⋖ b) (k : List α) :
    [a] ≤ k ∧ k < [b] ↔ [a] <+: k := by
  cases k with
  | nil => simp
  | cons x k =>
      constructor
      · rintro ⟨atLeast, below⟩
        have upper : x < b := by simpa [List.cons_lt_cons_iff] using below
        have lower : ¬ x < a := by
          intro less
          exact absurd (List.cons_lt_cons_iff.mpr (Or.inl less)) (not_lt.mpr atLeast)
        have same : a = x := by
          rcases lt_trichotomy a x with less | same | greater
          · exact absurd upper (cover.2 less)
          · exact same
          · exact absurd greater lower
        exact ⟨k, by rw [same]; rfl⟩
      · rintro ⟨rest, same⟩
        obtain ⟨rfl, rfl⟩ := List.cons.inj same
        refine ⟨not_lt.mp ?_, List.cons_lt_cons_iff.mpr (Or.inl cover.lt)⟩
        simp

/-- A word between `p ++ [a]` and `p ++ [b]` starts with `p`. -/
theorem prefix_of_between {a b : α} (p k : List α) (lower : p ++ [a] ≤ k) (upper : k < p ++ [b]) :
    p <+: k := by
  induction p generalizing k with
  | nil => exact List.nil_prefix
  | cons x p ih =>
      cases k with
      | nil => exact absurd (lower) (by simp)
      | cons y k =>
          have notAbove : ¬ x < y := by
            intro less
            have above : (x :: p) ++ [b] < y :: k := List.cons_lt_cons_iff.mpr (Or.inl less)
            exact absurd upper (not_lt.mpr above.le)
          have notBelow : ¬ y < x := by
            intro less
            have below : y :: k < (x :: p) ++ [a] := List.cons_lt_cons_iff.mpr (Or.inl less)
            exact absurd lower (not_le.mpr below)
          obtain rfl : x = y := le_antisymm (not_lt.mp notBelow) (not_lt.mp notAbove)
          have lower' : p ++ [a] ≤ k := (append_le_append_same [x]).mp lower
          have upper' : k < p ++ [b] := (append_lt_append_same [x]).mp upper
          exact (List.prefix_append_right_inj [x]).mpr (ih k lower' upper')

/-- **The interval `[p ++ [a], p ++ [b])` is the cone of words that start with
`p ++ [a]`**, whenever no symbol lies between `a` and `b`. -/
theorem mem_cone_iff {a b : α} (cover : a ⋖ b) (p k : List α) :
    p ++ [a] ≤ k ∧ k < p ++ [b] ↔ p ++ [a] <+: k := by
  constructor
  · rintro ⟨lower, upper⟩
    obtain ⟨k, rfl⟩ := prefix_of_between p k lower upper
    have inner := (between_singletons_iff cover k).mp
      ⟨(append_le_append_same p).mp lower, (append_lt_append_same p).mp upper⟩
    exact (List.prefix_append_right_inj p).mpr inner
  · rintro ⟨rest, rfl⟩
    rw [List.append_assoc, append_le_append_same, append_lt_append_same]
    exact (between_singletons_iff cover _).mpr ⟨rest, rfl⟩

end Cone

/-! ## Words closed by a least symbol -/

section Terminator

variable {α : Type} [LinearOrder α] {z : α}

theorem nil_le_word (l : List α) : [] ≤ l := not_lt.mp (List.not_lt_nil l)

/-- A least symbol alone is below every word but the empty one. -/
theorem singleton_le_cons (least : ∀ a, z ≤ a) (y : α) (l : List α) : [z] ≤ y :: l := by
  rcases (least y).eq_or_lt with rfl | above
  · exact (append_le_append_same [z]).mpr (nil_le_word l)
  · exact (List.cons_lt_cons_iff.mpr (Or.inl above)).le

theorem lt_of_not_mem_cons (least : ∀ a, z ≤ a) {x : α} {u : List α} (clean : ¬ z ∈ x :: u) :
    z < x ∧ ¬ z ∈ u := by
  rw [List.mem_cons, not_or] at clean
  exact ⟨lt_of_le_of_ne (least x) clean.1, clean.2⟩

/-- **A closed lower bound is the bare lower bound**: what follows the closing
symbol does not matter. -/
theorem terminated_le_iff (least : ∀ a, z ≤ a) (r : List α) {u v : List α} (cleanU : ¬ z ∈ u)
    (cleanV : ¬ z ∈ v) : u ++ [z] ≤ v ++ z :: r ↔ u ≤ v := by
  induction u generalizing v with
  | nil =>
      have start : [z] ≤ v ++ z :: r := by
        cases v with
        | nil => exact singleton_le_cons least z r
        | cons y v => exact singleton_le_cons least y (v ++ z :: r)
      exact iff_of_true start (nil_le_word v)
  | cons x u ih =>
      obtain ⟨aboveX, cleanU⟩ := lt_of_not_mem_cons least cleanU
      cases v with
      | nil =>
          have below : z :: r < x :: (u ++ [z]) := List.cons_lt_cons_iff.mpr (Or.inl aboveX)
          exact iff_of_false (not_le.mpr below) (by simp)
      | cons y v =>
          have inner := ih cleanU (lt_of_not_mem_cons least cleanV).2
          rw [← not_lt, ← not_lt] at inner ⊢
          simp only [List.cons_append, List.cons_lt_cons_iff, not_iff_not.mp inner]

/-- **A closed upper bound is the bare upper bound, inclusive**, when the bound is
closed by the next symbol. -/
theorem terminated_lt_iff {o : α} (least : ∀ a, z ≤ a) (cover : z ⋖ o) (r : List α) {u v : List α}
    (cleanU : ¬ z ∈ u) (cleanV : ¬ z ∈ v) : v ++ z :: r < u ++ [o] ↔ v ≤ u := by
  induction u generalizing v with
  | nil =>
      cases v with
      | nil =>
          have below : z :: r < [o] := List.cons_lt_cons_iff.mpr (Or.inl cover.lt)
          exact iff_of_true below le_rfl
      | cons y v =>
          have above := (lt_of_not_mem_cons least cleanV).1
          have beyond : ¬ y :: (v ++ z :: r) < [o] := by
            rw [List.cons_lt_cons_iff]
            rintro (less | ⟨-, less⟩)
            · exact cover.2 above less
            · exact absurd less (List.not_lt_nil _)
          exact iff_of_false beyond (by simp)
  | cons x u ih =>
      obtain ⟨aboveX, cleanU⟩ := lt_of_not_mem_cons least cleanU
      cases v with
      | nil =>
          have below : z :: r < x :: (u ++ [o]) := List.cons_lt_cons_iff.mpr (Or.inl aboveX)
          exact iff_of_true below (nil_le_word _)
      | cons y v =>
          have inner := ih cleanU (lt_of_not_mem_cons least cleanV).2
          rw [← not_lt (a := u)] at inner
          rw [← not_lt (a := x :: u)]
          simp only [List.cons_append, List.cons_lt_cons_iff, inner]
          rcases lt_trichotomy x y with less | rfl | greater
          · simp [less, less.not_gt, less.ne']
          · simp
          · simp [greater, greater.not_gt, greater.ne']

end Terminator

/-! ## Prefix-free codes -/

section Code

variable {α β : Type}

/-- The code word of a symbol can be split off the front of any longer word. -/
def PrefixFree (code : α → List β) : Prop :=
  ∀ (a b : α) (s t : List β), code a ++ s = code b ++ t → a = b

namespace PrefixFree

variable {code : α → List β}

theorem cons_inj (free : PrefixFree code) {a b : α} {s t : List β}
    (same : code a ++ s = code b ++ t) : a = b ∧ s = t := by
  obtain rfl := free a b s t same
  exact ⟨rfl, List.append_cancel_left same⟩

theorem prefix_of_flatMap (free : PrefixFree code) (nonempty : ∀ a, code a ≠ []) :
    ∀ {s t : List α}, s.flatMap code <+: t.flatMap code → s <+: t
  | [], _, _ => List.nil_prefix
  | a :: s, [], starts => by
      have empty : code a = [] := by
        have := List.prefix_nil.mp starts
        simp only [List.flatMap_cons, List.append_eq_nil_iff] at this
        exact this.1
      exact absurd empty (nonempty a)
  | a :: s, b :: t, ⟨rest, same⟩ => by
      simp only [List.flatMap_cons, List.append_assoc] at same
      obtain ⟨rfl, tails⟩ := free.cons_inj same
      exact (List.prefix_append_right_inj [a]).mpr (prefix_of_flatMap free nonempty ⟨rest, tails⟩)

/-- **A prefix-free code preserves and reflects the prefix order.** -/
theorem flatMap_prefix_iff (free : PrefixFree code) (nonempty : ∀ a, code a ≠ []) {s t : List α} :
    s.flatMap code <+: t.flatMap code ↔ s <+: t := by
  refine ⟨prefix_of_flatMap free nonempty, ?_⟩
  rintro ⟨rest, rfl⟩
  exact ⟨rest.flatMap code, by simp⟩

theorem flatMap_injective (free : PrefixFree code) (nonempty : ∀ a, code a ≠ []) :
    Function.Injective fun s : List α => s.flatMap code := by
  intro s t same
  have forward : s <+: t := free.prefix_of_flatMap nonempty ⟨[], by simpa using same⟩
  have backward : t <+: s := free.prefix_of_flatMap nonempty ⟨[], by simpa using same.symm⟩
  exact forward.eq_of_length (le_antisymm forward.length_le backward.length_le)

end PrefixFree

end Code

end Pdq.Theory
