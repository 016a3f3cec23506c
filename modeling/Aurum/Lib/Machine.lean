import Mathlib.Tactic.Ring
import Mathlib.Data.List.Basic

/-!
# Machines that show what they do

A machine takes inputs one at a time and shows an output for each; a run
may end with one last input of another kind, after which the machine is
not used again. Two machines related by a simulation that agrees on the
outputs have the same traces. The simulation may rely on a condition
`Fits` on the steps of the second machine.
-/

namespace Aurum

structure Machine (σ ι κ ο : Type) where
  step : σ → ι → σ × ο
  finish : σ → κ → ο

namespace Machine

variable {σ τ ι κ ο : Type}

/-- The outputs of a run. -/
def trace (m : Machine σ ι κ ο) : σ → List ι → Option κ → List ο
  | _, [], none => []
  | s, [], some k => [m.finish s k]
  | s, i :: is, k => (m.step s i).2 :: m.trace (m.step s i).1 is k

/-- Every step of the run fits. -/
def Along (m : Machine σ ι κ ο) (Fits : σ → ι → Prop) : σ → List ι → Prop
  | _, [] => True
  | s, i :: is => Fits s i ∧ m.Along Fits (m.step s i).1 is

/-- **Related machines have equal traces.** -/
theorem trace_eq {m : Machine σ ι κ ο} {n : Machine τ ι κ ο} {R : σ → τ → Prop}
    {Fits : τ → ι → Prop}
    (hstep : ∀ s t i, R s t → Fits t i →
      R (m.step s i).1 (n.step t i).1 ∧ (m.step s i).2 = (n.step t i).2)
    (hfinish : ∀ s t k, R s t → m.finish s k = n.finish t k) :
    ∀ (is : List ι) (s : σ) (t : τ) (k : Option κ), R s t → n.Along Fits t is →
      m.trace s is k = n.trace t is k := by
  intro is
  induction is with
  | nil =>
    intro s t k h _
    cases k with
    | none => rfl
    | some k => rw [trace, trace, hfinish s t k h]
  | cons i is ih =>
    intro s t k h hfits
    obtain ⟨hnext, hout⟩ := hstep s t i h hfits.1
    rw [trace, trace, hout, ih _ _ k hnext hfits.2]

end Machine

end Aurum
