import Mathlib.Data.List.Basic
import Mathlib.Data.List.Induction

/-!
Programs that run among interrupts: a run is the list of the acts taken, and an act that is not
possible ends it.

A property of the states is kept by a run exactly when every act of it meets a condition, if an
act keeps the property where it meets the condition and breaks it where it does not.
-/

namespace Mono98.Lib.Acts

variable {σ α : Type*} (act : σ → α → Option σ) (s₀ : σ)

def run (acts : List α) : Option σ := acts.foldlM act s₀

/-- Every state of the run has the property. -/
def Along (acts : List α) (P : σ → Prop) : Prop :=
  ∀ pre s, pre <+: acts → run act s₀ pre = some s → P s

/-- Every act of the run meets the condition, in the state before it. -/
def Meets (acts : List α) (Q : σ → α → Prop) : Prop :=
  ∀ pre a s s', pre ++ [a] <+: acts → run act s₀ pre = some s → act s a = some s' → Q s a

variable {act s₀} {acts : List α} {a : α} {P B : σ → Prop} {Q : σ → α → Prop}

@[simp] lemma run_nil : run act s₀ [] = some s₀ := rfl

@[simp] lemma run_snoc : run act s₀ (acts ++ [a]) = (run act s₀ acts).bind fun s => act s a := by
  rw [run, List.foldlM_append]
  show (run act s₀ acts).bind _ = _
  congr 1
  funext s
  simp

lemma along_nil : Along act s₀ [] P ↔ P s₀ := by
  constructor
  · exact fun h => h [] s₀ (List.prefix_refl _) rfl
  · intro h pre s hp hs
    rw [List.prefix_nil.mp hp] at hs
    cases hs
    exact h

lemma along_snoc : Along act s₀ (acts ++ [a]) P ↔
    Along act s₀ acts P ∧ ∀ s, run act s₀ (acts ++ [a]) = some s → P s := by
  constructor
  · exact fun h => ⟨fun pre s hp => h pre s (hp.trans (List.prefix_append _ _)),
      fun s => h _ s (List.prefix_refl _)⟩
  · rintro ⟨h, hlast⟩ pre s hp hs
    rcases List.prefix_concat_iff.mp hp with rfl | hp
    · exact hlast s hs
    · exact h pre s hp hs

lemma meets_nil : Meets act s₀ [] Q := by
  intro pre a s s' hp
  simpa using List.prefix_nil.mp hp

lemma meets_snoc : Meets act s₀ (acts ++ [a]) Q ↔ Meets act s₀ acts Q ∧
    ∀ s s', run act s₀ acts = some s → act s a = some s' → Q s a := by
  constructor
  · exact fun h => ⟨fun pre b s s' hp => h pre b s s' (hp.trans (List.prefix_append _ _)),
      fun s s' => h acts a s s' (List.prefix_refl _)⟩
  · rintro ⟨h, hlast⟩ pre b s s' hp hs hact
    rcases List.prefix_concat_iff.mp hp with heq | hp
    · obtain ⟨rfl, hb⟩ := List.append_inj' heq rfl
      obtain rfl := (List.cons.inj hb).1
      exact hlast s s' hs hact
    · exact h pre b s s' hp hs hact

/-- What holds at the start, and is kept by every act that meets the condition and ends within
the bound. -/
theorem Along.of_meets (h₀ : P s₀)
    (keeps : ∀ s a s', P s → Q s a → act s a = some s' → B s' → P s')
    (hb : Along act s₀ acts B) (hq : Meets act s₀ acts Q) : Along act s₀ acts P := by
  induction acts using List.reverseRecOn with
  | nil => exact along_nil.mpr h₀
  | append_singleton acts a ih =>
    obtain ⟨hq, hlast⟩ := meets_snoc.mp hq
    obtain ⟨hb, hbound⟩ := along_snoc.mp hb
    have ih := ih hb hq
    refine along_snoc.mpr ⟨ih, fun s' hs' => ?_⟩
    have hrun := hs'
    rw [run_snoc, Option.bind_eq_some_iff] at hrun
    obtain ⟨s, hs, hact⟩ := hrun
    exact keeps s a s' (ih acts s (List.prefix_refl _) hs) (hlast s s' hs hact) hact
      (hbound s' hs')

/-- If an act that does not meet the condition breaks the property, a run that keeps the
property meets the condition. -/
theorem Meets.of_along (breaks : ∀ s a s', P s → ¬ Q s a → act s a = some s' → ¬ P s')
    (h : Along act s₀ acts P) : Meets act s₀ acts Q := by
  intro pre a s s' hp hs hact
  by_contra hq
  refine breaks s a s' (h pre s ((List.prefix_append _ _).trans hp) hs) hq hact ?_
  exact h _ s' hp (by rw [run_snoc, hs]; exact hact)

end Mono98.Lib.Acts
