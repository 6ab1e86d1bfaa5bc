import Mathlib.Logic.Relation

/-!
Systems as step relations: what every run keeps, and the simulation of one system by another.
A step may be matched by any number of steps, none included.
-/

namespace Mono98.Lib.Simulation

open Relation

variable {σ τ : Type*} {step : σ → σ → Prop} {step' : τ → τ → Prop} {R : σ → τ → Prop}

/-- What every step keeps is kept by a run. -/
theorem kept {P : σ → Prop} (keeps : ∀ s s', P s → step s s' → P s') {s s' : σ} (h : P s)
    (run : ReflTransGen step s s') : P s' := by
  induction run with
  | refl => exact h
  | tail _ hs ih => exact keeps _ _ ih hs

/-- Every step from related states is matched. -/
def Simulates (step : σ → σ → Prop) (step' : τ → τ → Prop) (R : σ → τ → Prop) : Prop :=
  ∀ s s' t, R s t → step s s' → ∃ t', ReflTransGen step' t t' ∧ R s' t'

/-- Every run from related states is matched. -/
theorem Simulates.run (sim : Simulates step step' R) {s s' : σ} {t : τ} (h : R s t)
    (run : ReflTransGen step s s') : ∃ t', ReflTransGen step' t t' ∧ R s' t' := by
  induction run with
  | refl => exact ⟨t, .refl, h⟩
  | tail _ hs ih =>
    obtain ⟨t₁, h₁, hr⟩ := ih
    obtain ⟨t', h', hr'⟩ := sim _ _ _ hr hs
    exact ⟨t', h₁.trans h', hr'⟩

end Mono98.Lib.Simulation
