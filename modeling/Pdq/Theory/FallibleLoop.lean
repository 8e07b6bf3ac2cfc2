/- Pdq.Theory.FallibleLoop -- loops that stop at the first error.

A loop body is a function of the state and the next item that may fail; the loop
is the monadic left fold.  `foldlM_ok_induction` is its invariant rule: an
invariant of the items done so far, kept by every successful body, holds of all
items when the loop returns.  `foldlM_total` is the rule for bodies that succeed
where the invariant holds: then the loop returns.  `foldlM_forget` drops a part of
the state that decides nothing.  A loop that only maps its items (`mapM_eq_ok`,
`mapM_error_iff`) fails when one of them does, and one that reads each item first
fails with it (`foldlM_error_of_mapM`). -/
import Mathlib.Data.List.Forall2
import Mathlib.Tactic.Choose

namespace Pdq.Theory

set_option autoImplicit false

variable {ε α β : Type}

theorem bind_eq_ok_iff {x : Except ε α} {f : α → Except ε β} {b : β} :
    x >>= f = .ok b ↔ ∃ a, x = .ok a ∧ f a = .ok b := by
  cases x with
  | error e => simp [bind, Except.bind]
  | ok a => simp [bind, Except.bind]

/-- **The invariant rule of a fallible loop.** -/
theorem foldlM_ok_induction {f : β → α → Except ε β} (P : List α → β → Prop)
    (step : ∀ done a b b', P done b → f b a = .ok b' → P (done ++ [a]) b') :
    ∀ (l done : List α) (b b' : β), P done b → l.foldlM f b = .ok b' → P (done ++ l) b'
  | [], done, b, b', start, returned => by
      rw [List.foldlM_nil] at returned
      cases returned
      simpa using start
  | a :: l, done, b, b', start, returned => by
      rw [List.foldlM_cons] at returned
      obtain ⟨middle, first, rest⟩ := bind_eq_ok_iff.mp returned
      have after := foldlM_ok_induction P step l (done ++ [a]) middle b'
        (step done a b middle start first) rest
      simpa using after

/-- **An invariant of the state alone**, kept by the body for every item. -/
theorem foldlM_ok_invariant {f : β → α → Except ε β} (P : β → Prop) {l : List α}
    (step : ∀ a ∈ l, ∀ b b', P b → f b a = .ok b' → P b') {b b' : β} (start : P b)
    (returned : l.foldlM f b = .ok b') : P b' := by
  induction l generalizing b with
  | nil =>
      cases returned
      exact start
  | cons a l ih =>
      rw [List.foldlM_cons] at returned
      obtain ⟨middle, first, rest⟩ := bind_eq_ok_iff.mp returned
      exact ih (fun c member => step c (List.mem_cons_of_mem a member))
        (step a List.mem_cons_self b middle start first) rest

/-- **A loop whose body succeeds wherever the invariant holds, and keeps it,**
returns. -/
theorem foldlM_total {f : β → α → Except ε β} (P : β → Prop) {l : List α}
    (step : ∀ a ∈ l, ∀ b, P b → ∃ b', f b a = .ok b' ∧ P b') {b : β} (start : P b) :
    ∃ b', l.foldlM f b = .ok b' ∧ P b' := by
  induction l generalizing b with
  | nil => exact ⟨b, rfl, start⟩
  | cons a l ih =>
      obtain ⟨middle, first, held⟩ := step a List.mem_cons_self b start
      rw [List.foldlM_cons, first]
      exact ih (fun c member => step c (List.mem_cons_of_mem a member)) held

/-- The loop fails as its body does. -/
theorem foldlM_error {f : β → α → Except ε β} (E : ε → Prop) {l : List α}
    (step : ∀ a ∈ l, ∀ b e, f b a = .error e → E e) {b : β} {e : ε}
    (failed : l.foldlM f b = .error e) : E e := by
  induction l generalizing b with
  | nil => cases failed
  | cons a l ih =>
      rw [List.foldlM_cons] at failed
      cases first : f b a with
      | error e' =>
          rw [first] at failed
          obtain rfl : e' = e := Except.error.inj failed
          exact step a List.mem_cons_self b e' first
      | ok middle =>
          rw [first] at failed
          exact ih (fun c member => step c (List.mem_cons_of_mem a member)) failed

/-- A loop whose body never fails never fails. -/
theorem foldlM_eq_ok_of_step {f : β → α → Except ε β} {g : β → α → β} {l : List α}
    (step : ∀ a ∈ l, ∀ b, f b a = .ok (g b a)) (b : β) : l.foldlM f b = .ok (l.foldl g b) := by
  induction l generalizing b with
  | nil => rfl
  | cons a l ih =>
      rw [List.foldlM_cons, step a List.mem_cons_self b]
      exact ih (fun c member => step c (List.mem_cons_of_mem a member)) (g b a)

/-- **A part of the state that decides nothing** may be forgotten before the loop
or after it. -/
theorem foldlM_forget {γ : Type} {f : β → α → Except ε β} {g : γ → α → Except ε γ} {forget : β → γ}
    (step : ∀ a b, (f b a).map forget = g (forget b) a) (l : List α) (b : β) :
    (l.foldlM f b).map forget = l.foldlM g (forget b) := by
  induction l generalizing b with
  | nil => rfl
  | cons a l ih =>
      rw [List.foldlM_cons, List.foldlM_cons, ← step a b]
      cases f b a with
      | error e => rfl
      | ok b' => exact ih b'

/-! ## One result for each item -/

theorem mapM_eq_ok {f : α → Except ε β} {g : α → β} {l : List α}
    (all : ∀ a ∈ l, f a = .ok (g a)) : l.mapM f = .ok (l.map g) := by
  induction l with
  | nil => rfl
  | cons a l ih =>
      rw [List.mapM_cons, all a List.mem_cons_self,
        ih fun b member => all b (List.mem_cons_of_mem a member)]
      rfl

/-- The results are those of the items, in order. -/
theorem mapM_ok_forall₂ {f : α → Except ε β} {l : List α} {results : List β}
    (ok : l.mapM f = .ok results) : List.Forall₂ (fun a b => f a = .ok b) l results := by
  induction l generalizing results with
  | nil =>
      cases ok
      exact .nil
  | cons a l ih =>
      rw [List.mapM_cons] at ok
      obtain ⟨b, first, rest⟩ := bind_eq_ok_iff.mp ok
      obtain ⟨others, later, last⟩ := bind_eq_ok_iff.mp rest
      cases last
      exact .cons first (ih later)

/-- What is related to the numbers below `n`, by position. -/
theorem forall₂_range {R : Nat → β → Prop} {n : Nat} {l : List β} :
    List.Forall₂ R (List.range n) l ↔ l.length = n ∧ ∀ i b, l[i]? = some b → R i b := by
  simp only [List.forall₂_iff_get, List.length_range, List.get_eq_getElem, List.getElem_range]
  constructor
  · rintro ⟨length, each⟩
    refine ⟨length.symm, fun i b position => ?_⟩
    obtain ⟨bound, rfl⟩ := List.getElem?_eq_some_iff.mp position
    exact each i (length ▸ bound) bound
  · rintro ⟨length, each⟩
    exact ⟨length.symm, fun i _ bound => each i _ (List.getElem?_eq_getElem bound)⟩

/-- The error is that of an item. -/
theorem mapM_error {f : α → Except ε β} {l : List α} {e : ε} (failed : l.mapM f = .error e) :
    ∃ a ∈ l, f a = .error e := by
  induction l with
  | nil => cases failed
  | cons a l ih =>
      rw [List.mapM_cons] at failed
      cases first : f a with
      | error e' =>
          rw [first] at failed
          obtain rfl : e' = e := Except.error.inj failed
          exact ⟨a, List.mem_cons_self, first⟩
      | ok b =>
          rw [first] at failed
          cases rest : l.mapM f with
          | error e' =>
              rw [rest] at failed
              obtain rfl : e' = e := Except.error.inj failed
              obtain ⟨later, member, fails⟩ := ih rest
              exact ⟨later, List.mem_cons_of_mem a member, fails⟩
          | ok others =>
              rw [rest] at failed
              cases failed

theorem mapM_error_iff {f : α → Except ε β} {l : List α} :
    (∃ e, l.mapM f = .error e) ↔ ∃ a ∈ l, ∃ e, f a = .error e := by
  induction l with
  | nil => simp [pure, Except.pure]
  | cons a l ih =>
      rw [List.exists_mem_cons_iff, ← ih, List.mapM_cons]
      cases f a with
      | error e => simp [bind, Except.bind]
      | ok b => cases l.mapM f <;> simp [bind, Except.bind, pure, Except.pure]

/-- **A loop that reads each item before it uses it** fails where reading them all
does. -/
theorem foldlM_error_of_mapM {γ : Type} {get : α → Except ε γ} (use : β → α → γ → β) {l : List α}
    {e : ε} (failed : l.mapM get = .error e) (b : β) :
    l.foldlM (fun b a => do
      let read ← get a
      return use b a read) b = .error e := by
  induction l generalizing b with
  | nil => cases failed
  | cons a l ih =>
      rw [List.mapM_cons] at failed
      rw [List.foldlM_cons]
      cases first : get a with
      | error e' =>
          rw [first] at failed
          exact congrArg Except.error (Except.error.inj failed)
      | ok read =>
          rw [first] at failed
          cases rest : l.mapM get with
          | error e' =>
              rw [rest] at failed
              rw [Except.error.inj failed] at rest
              exact ih rest (use b a read)
          | ok others =>
              rw [rest] at failed
              cases failed

/-- Either every item has a value, or some item has an error. -/
theorem forall_ok_or_error [Nonempty β] (f : α → Except ε β) (l : List α) :
    (∃ g : α → β, ∀ a ∈ l, f a = .ok (g a)) ∨ ∃ a ∈ l, ∃ e, f a = .error e := by
  by_cases failing : ∃ a ∈ l, ∃ e, f a = .error e
  · exact .inr failing
  · have total : ∀ a, ∃ b, a ∈ l → f a = .ok b := by
      intro a
      cases value : f a with
      | error e => exact ⟨Classical.arbitrary β, fun member => absurd ⟨a, member, e, value⟩ failing⟩
      | ok b => exact ⟨b, fun _ => rfl⟩
    choose g valued using total
    exact .inl ⟨g, valued⟩

/-- The same holds of the items in another order. -/
theorem forall_ok_or_error_perm [Nonempty β] {f f' : α → Except ε β} {l l' : List α}
    (perm : l.Perm l') (same : ∀ a ∈ l, f a = f' a) :
    (∃ g : α → β, (∀ a ∈ l, f a = .ok (g a)) ∧ ∀ a ∈ l', f' a = .ok (g a)) ∨
      (∃ a ∈ l, ∃ e, f a = .error e) ∧ ∃ a ∈ l', ∃ e, f' a = .error e := by
  rcases forall_ok_or_error f l with ⟨g, all⟩ | ⟨a, member, e, fails⟩
  · refine .inl ⟨g, all, fun a member => ?_⟩
    have before := perm.mem_iff.mpr member
    rw [← same a before, all a before]
  · exact .inr ⟨⟨a, member, e, fails⟩, a, perm.mem_iff.mp member, e, by rw [← same a member, fails]⟩

end Pdq.Theory
