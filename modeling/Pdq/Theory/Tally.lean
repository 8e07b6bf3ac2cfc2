/- Pdq.Theory.Tally -- counting the members of a family.

`tally p family` is how many members of a finite family satisfy `p`.  When one member
changes the tally changes by that member alone (`tally_update`), which is what keeps
a counter equal to a tally through a run of such changes. -/
import Mathlib

namespace Pdq.Theory

set_option autoImplicit false

section Tally

variable {H A : Type} [Fintype H]

/-- How many members of a family satisfy `p`. -/
def tally (p : A → Bool) (family : H → A) : Nat := ∑ h, (p (family h)).toNat

theorem tally_eq_zero {p : A → Bool} {family : H → A} (never : ∀ h, p (family h) = false) :
    tally p family = 0 :=
  Finset.sum_eq_zero fun h _ => by rw [never h]; rfl

theorem tally_congr {p q : A → Bool} {family : H → A} (same : ∀ h, p (family h) = q (family h)) :
    tally p family = tally q family :=
  Finset.sum_congr rfl fun h _ => by rw [same h]

/-- **When every member is in one account**, the accounts add up to the family. -/
theorem sum_tally_eq_card {accounts : List (A → Bool)} {family : H → A}
    (one : ∀ h, (accounts.map fun p => (p (family h)).toNat).sum = 1) :
    (accounts.map fun p => tally p family).sum = Fintype.card H := by
  have swap : (accounts.map fun p => tally p family).sum =
      ∑ h, (accounts.map fun p => (p (family h)).toNat).sum := by
    clear one
    induction accounts with
    | nil => simp
    | cons p rest ih =>
        rw [List.map_cons, List.sum_cons, ih, tally, ← Finset.sum_add_distrib]
        exact Finset.sum_congr rfl fun h _ => rfl
  rw [swap, Finset.sum_congr rfl fun h _ => one h]
  simp

/-- **One member changes**: its account moves, no other does. -/
theorem tally_update [DecidableEq H] (p : A → Bool) (family : H → A) (h : H) (a : A) :
    tally p (Function.update family h a) + (p (family h)).toNat =
      tally p family + (p a).toNat := by
  have here := Finset.sum_erase_add Finset.univ (fun i => (p (family i)).toNat) (Finset.mem_univ h)
  have there := Finset.sum_erase_add Finset.univ
    (fun i => (p (Function.update family h a i)).toNat) (Finset.mem_univ h)
  have others : ∑ i ∈ Finset.univ.erase h, (p (Function.update family h a i)).toNat =
      ∑ i ∈ Finset.univ.erase h, (p (family i)).toNat := by
    refine Finset.sum_congr rfl fun i member => ?_
    rw [Function.update_of_ne (Finset.ne_of_mem_erase member)]
  simp only [Function.update_self] at there
  rw [tally, tally, ← here, ← there, others]
  omega

end Tally

end Pdq.Theory
