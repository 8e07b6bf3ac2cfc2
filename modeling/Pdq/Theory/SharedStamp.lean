/- Pdq.Theory.SharedStamp -- a cache whose entries share one stamp.

A slot keeps one value per column and a single record of the source version it
was last filled from.  `refresh v c` trusts the slot when column `c` has a value
and the recorded stamp is that of `v`; otherwise it computes column `c` from `v`
and overwrites the record.

The record speaks for every column although a refresh computes only one, so the
slot can vouch for a value it never checked.  `refresh_entry_iff` says when one
refresh ends with the right value, whatever the slot held.  `Coherent` is the
invariant under which it always does (`refresh_entry`), and a refresh preserves
it when it does not move the record past another column's value
(`refresh_describes`). -/
import Mathlib.Data.Set.Basic
import Mathlib.Logic.Function.Basic

namespace Pdq.Theory.SharedStamp

set_option autoImplicit false

variable {C S I V : Type}

/-- A version of the source: its stamp, the facts recorded beside the stamp, and
the value of every column. -/
structure Version (C S I V : Type) where
  stamp : S
  info : I
  value : C → V

/-- One record shared by the values of all columns. -/
@[ext] structure Slot (C S I V : Type) where
  record : Option (S × I)
  entry : C → Option V

namespace Slot

def empty : Slot C S I V := ⟨none, fun _ => none⟩

/-- The test that lets a refresh skip its work. -/
def Fresh (s : Slot C S I V) (v : Version C S I V) (c : C) : Prop :=
  s.entry c ≠ none ∧ s.record.map Prod.fst = some v.stamp

variable [DecidableEq C]

/-- Compute column `c` from `v` and record `v`. -/
def store (s : Slot C S I V) (v : Version C S I V) (c : C) : Slot C S I V :=
  ⟨some (v.stamp, v.info), Function.update s.entry c (some (v.value c))⟩

open Classical in
noncomputable def refresh (s : Slot C S I V) (v : Version C S I V) (c : C) : Slot C S I V :=
  if s.Fresh v c then s else s.store v c

@[simp] theorem store_entry_self (s : Slot C S I V) (v : Version C S I V) (c : C) :
    (s.store v c).entry c = some (v.value c) := by
  simp [store]

theorem store_entry_ne (s : Slot C S I V) (v : Version C S I V) {c d : C} (ne : d ≠ c) :
    (s.store v c).entry d = s.entry d := by
  simp [store, ne]

theorem refresh_of_fresh {s : Slot C S I V} {v : Version C S I V} {c : C} (fresh : s.Fresh v c) :
    s.refresh v c = s := if_pos fresh

theorem refresh_of_stale {s : Slot C S I V} {v : Version C S I V} {c : C} (stale : ¬ s.Fresh v c) :
    s.refresh v c = s.store v c := if_neg stale

/-- **What one refresh guarantees of an arbitrary slot**: the column ends right
exactly when the test failed or the value was right already. -/
theorem refresh_entry_iff (s : Slot C S I V) (v : Version C S I V) (c : C) :
    (s.refresh v c).entry c = some (v.value c) ↔ ¬ s.Fresh v c ∨ s.entry c = some (v.value c) := by
  by_cases fresh : s.Fresh v c
  · simp [refresh_of_fresh fresh, fresh]
  · simp [refresh_of_stale fresh, fresh]

end Slot

/-! ## Coherence -/

/-- Equal stamps are stamps of the same version. -/
def StampsIdentify (H : Set (Version C S I V)) : Prop :=
  ∀ v ∈ H, ∀ w ∈ H, v.stamp = w.stamp → v = w

/-- The slot is a partial copy of version `v`. -/
structure Describes (s : Slot C S I V) (v : Version C S I V) : Prop where
  record : s.record = some (v.stamp, v.info)
  entry : ∀ c x, s.entry c = some x → x = v.value c

/-- The slot is empty or a partial copy of one version of the history `H`. -/
def Coherent (H : Set (Version C S I V)) (s : Slot C S I V) : Prop :=
  s = Slot.empty ∨ ∃ v ∈ H, Describes s v

/-- A coherent slot that records the stamp of `v` is a partial copy of `v`. -/
theorem Coherent.describes {H : Set (Version C S I V)} (identify : StampsIdentify H)
    {s : Slot C S I V} (coherent : Coherent H s) {v : Version C S I V} (known : v ∈ H)
    (stamped : s.record.map Prod.fst = some v.stamp) : Describes s v := by
  rcases coherent with rfl | ⟨w, member, copy⟩
  · simp [Slot.empty] at stamped
  · rw [copy.record] at stamped
    obtain rfl := identify w member v known (Option.some.inj stamped)
    exact copy

section Refresh

variable [DecidableEq C] {H : Set (Version C S I V)} (identify : StampsIdentify H)
  {s : Slot C S I V} (coherent : Coherent H s) {v : Version C S I V} (known : v ∈ H)

include identify coherent known

/-- On a coherent slot a refresh ends with the right value. -/
theorem refresh_entry (c : C) : (s.refresh v c).entry c = some (v.value c) := by
  rw [Slot.refresh_entry_iff]
  by_cases fresh : s.Fresh v c
  · obtain ⟨x, held⟩ := Option.ne_none_iff_exists'.mp fresh.1
    have copy := coherent.describes identify known fresh.2
    exact Or.inr (by rw [held, copy.entry c x held])
  · exact Or.inl fresh

/-- On a coherent slot a refresh ends with the right record. -/
theorem refresh_record (c : C) : (s.refresh v c).record = some (v.stamp, v.info) := by
  by_cases fresh : s.Fresh v c
  · rw [Slot.refresh_of_fresh fresh]
    exact (coherent.describes identify known fresh.2).record
  · rw [Slot.refresh_of_stale fresh]
    rfl

/-- **A refresh keeps the slot coherent** unless it moves the record to another
version while another column holds a value. -/
theorem refresh_describes (c : C)
    (alone : s.record.map Prod.fst = some v.stamp ∨ ∀ d, d ≠ c → s.entry d = none) :
    Describes (s.refresh v c) v := by
  refine ⟨refresh_record identify coherent known c, fun d x held => ?_⟩
  by_cases same : d = c
  · subst same
    rw [refresh_entry identify coherent known d] at held
    exact (Option.some.inj held).symm
  · rcases alone with stamped | alone
    · have copy := coherent.describes identify known stamped
      by_cases fresh : s.Fresh v c
      · rw [Slot.refresh_of_fresh fresh] at held
        exact copy.entry d x held
      · rw [Slot.refresh_of_stale fresh, Slot.store_entry_ne s v same] at held
        exact copy.entry d x held
    · by_cases fresh : s.Fresh v c
      · rw [Slot.refresh_of_fresh fresh, alone d same] at held
        cases held
      · rw [Slot.refresh_of_stale fresh, Slot.store_entry_ne s v same, alone d same] at held
        cases held

end Refresh

end Pdq.Theory.SharedStamp
