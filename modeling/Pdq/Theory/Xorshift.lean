/- Pdq.Theory.Xorshift -- generators that shift and xor.

Xoring a word with its own shift, left or right by at least one, loses nothing
(`xorShiftLeft_injective`, `xorShiftRight_injective`): a word that is its own shift
is zero.  So a generator made of such steps runs in cycles: it comes back to the
state it started from (`returns_of_injective`), and never to zero, which is its own
cycle (`iterate_ne`). -/
import Mathlib.Dynamics.PeriodicPts.Lemmas

namespace Pdq.Theory

set_option autoImplicit false

section Words

variable {w k : Nat}

/-- A word that is its own shift to the left is zero, from the low bits on. -/
theorem eq_zero_of_shiftLeft {z : BitVec w} (positive : 0 < k) (same : z = z <<< k) : z = 0#w := by
  have bits : ∀ i, z.getLsbD i = false := by
    intro i
    induction i using Nat.strong_induction_on with
    | _ i ih =>
        rw [same, BitVec.getLsbD_shiftLeft]
        by_cases low : i < k
        · simp [low]
        · rw [ih (i - k) (by omega), Bool.and_false]
  exact BitVec.eq_of_getLsbD_eq fun i _ => by rw [bits i, BitVec.getLsbD_zero]

/-- A word that is its own shift to the right is zero, from the high bits on. -/
theorem eq_zero_of_ushiftRight {z : BitVec w} (positive : 0 < k) (same : z = z >>> k) :
    z = 0#w := by
  have bits : ∀ n i, w ≤ i + n → z.getLsbD i = false := by
    intro n
    induction n using Nat.strong_induction_on with
    | _ n ih =>
        intro i high
        by_cases outside : w ≤ i
        · exact BitVec.getLsbD_of_ge z i outside
        · rw [same, BitVec.getLsbD_ushiftRight]
          exact ih (n - k) (by omega) (k + i) (by omega)
  refine BitVec.eq_of_getLsbD_eq fun i _ => ?_
  rw [bits w i (by omega), BitVec.getLsbD_zero]

theorem xor_swap {a b c d : BitVec w} (same : a ^^^ b = c ^^^ d) : a ^^^ c = b ^^^ d := by
  refine BitVec.eq_of_getLsbD_eq fun i _ => ?_
  have bit := congrArg (fun x : BitVec w => x.getLsbD i) same
  simp only [BitVec.getLsbD_xor] at bit ⊢
  revert bit
  cases a.getLsbD i <;> cases b.getLsbD i <;> cases c.getLsbD i <;> cases d.getLsbD i <;> decide

theorem xorShiftLeft_injective (positive : 0 < k) :
    Function.Injective fun x : BitVec w => x ^^^ (x <<< k) := by
  intro x y same
  have shifted : x ^^^ y = (x ^^^ y) <<< k := by
    rw [BitVec.shiftLeft_xor_distrib]
    exact xor_swap same
  exact BitVec.xor_eq_zero_iff.mp (eq_zero_of_shiftLeft positive shifted)

theorem xorShiftRight_injective (positive : 0 < k) :
    Function.Injective fun x : BitVec w => x ^^^ (x >>> k) := by
  intro x y same
  have shifted : x ^^^ y = (x ^^^ y) >>> k := by
    rw [BitVec.ushiftRight_xor_distrib]
    exact xor_swap same
  exact BitVec.xor_eq_zero_iff.mp (eq_zero_of_ushiftRight positive shifted)

end Words

section Cycles

variable {A : Type} {step : A → A}

/-- **Every state comes again.** -/
theorem returns_of_injective [Finite A] (injective : Function.Injective step) (s : A) :
    ∃ n, 0 < n ∧ step^[n] s = s := by
  obtain ⟨n, positive, again⟩ := Function.Injective.mem_periodicPts injective s
  exact ⟨n, positive, again⟩

/-- A fixed point is reached from itself alone. -/
theorem iterate_ne {zero s : A} (injective : Function.Injective step) (fixed : step zero = zero)
    (ne : s ≠ zero) (n : Nat) : step^[n] s ≠ zero := by
  intro reached
  have stays : step^[n] zero = zero := Function.iterate_fixed fixed n
  exact ne (injective.iterate n (reached.trans stays.symm))

end Cycles

end Pdq.Theory
