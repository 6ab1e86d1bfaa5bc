import Mathlib.Data.Nat.Notation
import Mathlib.Logic.Relation

/-!
Programs that take one step after another, and a measure that says when they arrive. Where a step
is not determined, arriving means that every path arrives.
-/

namespace Mono98.Lib.Progress

variable {σ : Type*} {next : σ → Option σ}

/-- The program gets from one state to another in some number of steps. -/
def Runs (next : σ → Option σ) : σ → σ → Prop :=
  Relation.ReflTransGen fun s s' => next s = some s'

lemma Runs.refl (s : σ) : Runs next s s := Relation.ReflTransGen.refl

lemma Runs.step {s s' s'' : σ} (h : next s = some s') (run : Runs next s' s'') : Runs next s s'' :=
  Relation.ReflTransGen.head h run

/-- If every state of `P` short of the goal has a next step, and the step stays in `P` and
lowers the measure, then the goal is reached. -/
theorem Runs.of_measure (P Goal : σ → Prop) (measure : σ → ℕ)
    (progress : ∀ s, P s → ¬ Goal s → ∃ s', next s = some s' ∧ P s' ∧ measure s' < measure s)
    {s : σ} (h : P s) : ∃ s', Runs next s s' ∧ P s' ∧ Goal s' := by
  induction hn : measure s using Nat.strongRecOn generalizing s with
  | ind n ih =>
    by_cases hg : Goal s
    · exact ⟨s, .refl s, h, hg⟩
    · obtain ⟨s₁, hs, h₁, hlt⟩ := progress s h hg
      obtain ⟨s', run, h', hg'⟩ := ih (measure s₁) (by omega) h₁ rfl
      exact ⟨s', .step hs run, h', hg'⟩

/-- Every path from the state comes to a state of `Goal`. -/
inductive Eventually (step : σ → σ → Prop) (Goal : σ → Prop) : σ → Prop
  | now {s : σ} (h : Goal s) : Eventually step Goal s
  | later {s : σ} (next : ∃ s', step s s') (all : ∀ s', step s s' → Eventually step Goal s') :
    Eventually step Goal s

variable {step : σ → σ → Prop} {Goal : σ → Prop}

lemma Eventually.mono {Goal' : σ → Prop} (hg : ∀ s, Goal s → Goal' s) {s : σ}
    (h : Eventually step Goal s) : Eventually step Goal' s := by
  induction h with
  | now h => exact .now (hg _ h)
  | later next _ ih => exact .later next ih

end Mono98.Lib.Progress
