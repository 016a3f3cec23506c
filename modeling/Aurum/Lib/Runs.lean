import Mathlib.Tactic.Ring
import Mathlib.Data.List.Induction

/-!
# Runs of a step function

A run folds a step function over a list of acts. `Meets` says that every
act of a run meets a condition on the state it happens in; `Meets.invariant`
is the rule that takes an invariant from one act to a whole run.
`Happened` speaks about the past: some act of the run met a condition on
what came before it.
-/

namespace Aurum.Runs

open List

variable {S A : Type} {step : S → A → S} {cond : S → A → Prop}

/-- Every act of a run meets a condition on the state it happens in. -/
def Meets (step : S → A → S) (cond : S → A → Prop) : S → List A → Prop
  | _, [] => True
  | s, a :: acts => cond s a ∧ Meets step cond (step s a) acts

instance decidableMeets [∀ s a, Decidable (cond s a)] :
    ∀ (s : S) (acts : List A), Decidable (Meets step cond s acts)
  | _, [] => .isTrue trivial
  | s, a :: acts =>
    have := decidableMeets (step s a) acts
    inferInstanceAs (Decidable (_ ∧ _))

/-- **The rule for runs.** An invariant kept by every act that meets the
condition holds after every run of such acts. -/
theorem Meets.invariant {I : S → Prop} (hstep : ∀ s a, I s → cond s a → I (step s a)) :
    ∀ {acts : List A} {s : S}, Meets step cond s acts → I s → I (acts.foldl step s) := by
  intro acts
  induction acts with
  | nil => exact fun _ h => h
  | cons a acts ih => exact fun hmeets h => ih hmeets.2 (hstep _ a h hmeets.1)

/-- Acts that have a property of their own meet it wherever they happen. -/
theorem Meets.and {P : A → Prop} :
    ∀ {acts : List A} {s : S}, Meets step cond s acts → (∀ a ∈ acts, P a) →
      Meets step (fun s a => cond s a ∧ P a) s acts := by
  intro acts
  induction acts with
  | nil => exact fun _ _ => trivial
  | cons a acts ih =>
    intro s h hP
    exact ⟨⟨h.1, hP a mem_cons_self⟩, ih h.2 fun b hb => hP b (mem_cons_of_mem a hb)⟩

/-- A run is met piece by piece. -/
theorem meets_append {acts more : List A} {s : S} : Meets step cond s (acts ++ more) ↔
    Meets step cond s acts ∧ Meets step cond (acts.foldl step s) more := by
  induction acts generalizing s with
  | nil => exact ⟨fun h => ⟨trivial, h⟩, And.right⟩
  | cons a acts ih => rw [cons_append, Meets, Meets, ih, and_assoc, foldl_cons]

/-- A condition every act meets. -/
theorem meets_true (s : S) (acts : List A) : Meets step (fun _ _ => True) s acts := by
  induction acts generalizing s with
  | nil => trivial
  | cons a acts ih => exact ⟨trivial, ih (step s a)⟩

/-! ## The past of a run -/

/-- Some act of the list meets a condition on the acts before it. -/
def Happened (P : List A → A → Prop) (acts : List A) : Prop :=
  ∃ before act after, acts = before ++ act :: after ∧ P before act

theorem not_happened_nil (P : List A → A → Prop) : ¬ Happened P [] := by
  rintro ⟨before, act, after, h, -⟩
  simp at h

/-- One more act. -/
theorem happened_snoc {P : List A → A → Prop} {acts : List A} {a : A} :
    Happened P (acts ++ [a]) ↔ Happened P acts ∨ P acts a := by
  constructor
  · rintro ⟨before, act, after, heq, hP⟩
    cases after using reverseRecOn with
    | nil =>
      obtain ⟨rfl, rfl⟩ := append_inj' heq rfl |>.imp id singleton_inj.mp
      exact .inr hP
    | append_singleton after last =>
      rw [← cons_append, ← List.append_assoc] at heq
      exact .inl ⟨before, act, after, (append_inj' heq rfl).1, hP⟩
  · rintro (⟨before, act, after, rfl, hP⟩ | hP)
    · exact ⟨before, act, after ++ [a], by simp, hP⟩
    · exact ⟨acts, a, [], rfl, hP⟩

end Aurum.Runs
