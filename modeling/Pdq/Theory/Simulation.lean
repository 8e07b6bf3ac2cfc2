/- Pdq.Theory.Simulation -- labelled machines and forward simulation.

A machine starts in some states and makes labelled steps; the labels of a run, in
order, are its trace.  A relation that a start establishes and a step keeps, with
the specification making a step of the same label, carries over to runs
(`Simulates.reaches`): every trace of the machine is one of the specification
(`Simulates.traces`). -/
import Mathlib.Data.List.Basic

namespace Pdq.Theory

set_option autoImplicit false

structure Machine (S L : Type) where
  start : S → Prop
  step : S → L → S → Prop

namespace Machine

variable {S T L : Type}

/-- The state is reached by a run with this trace. -/
inductive Reaches (m : Machine S L) : List L → S → Prop
  | start {s : S} (starts : m.start s) : Reaches m [] s
  | step {trace : List L} {s s' : S} {l : L} (reached : Reaches m trace s)
      (steps : m.step s l s') : Reaches m (trace ++ [l]) s'

def Traces (m : Machine S L) (trace : List L) : Prop := ∃ s, m.Reaches trace s

/-- `related` is a forward simulation of `m` by `spec`. -/
structure Simulates (m : Machine S L) (spec : Machine T L) (related : S → T → Prop) : Prop where
  start : ∀ s, m.start s → ∃ t, spec.start t ∧ related s t
  step : ∀ s t l s', related s t → m.step s l s' → ∃ t', spec.step t l t' ∧ related s' t'

variable {m : Machine S L} {spec : Machine T L} {related : S → T → Prop}

/-- **A simulation follows every run.** -/
theorem Simulates.reaches (simulates : Simulates m spec related) {trace : List L} {s : S}
    (reached : m.Reaches trace s) : ∃ t, spec.Reaches trace t ∧ related s t := by
  induction reached with
  | start starts =>
      obtain ⟨t, starts', held⟩ := simulates.start _ starts
      exact ⟨t, .start starts', held⟩
  | step _ steps ih =>
      obtain ⟨t, reached', held⟩ := ih
      obtain ⟨t', steps', held'⟩ := simulates.step _ t _ _ held steps
      exact ⟨t', reached'.step steps', held'⟩

/-- **Every trace is a trace of the specification.** -/
theorem Simulates.traces (simulates : Simulates m spec related) {trace : List L}
    (traced : m.Traces trace) : spec.Traces trace := by
  obtain ⟨s, reached⟩ := traced
  obtain ⟨t, reached', -⟩ := simulates.reaches reached
  exact ⟨t, reached'⟩

end Machine

end Pdq.Theory
