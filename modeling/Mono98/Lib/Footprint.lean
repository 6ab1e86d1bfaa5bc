import Mathlib.Data.Set.Basic
import Mathlib.Logic.Function.Basic
import Mathlib.Tactic.Lemma
import Mathlib.Tactic.SplitIfs

/-!
The part of a memory that an operation works on.
-/

namespace Mono98.Lib.Footprint

variable {ι α : Type} {S T : Set ι} {f g : (ι → α) → ι → α}

/-- The operation `f` works within `S`: it changes nothing outside of it, and what it leaves
there depends on nothing outside. -/
structure Within (S : Set ι) (f : (ι → α) → ι → α) : Prop where
  frame : ∀ m, ∀ i ∉ S, f m i = m i
  depends : ∀ m m', (∀ i ∈ S, m i = m' i) → ∀ i ∈ S, f m i = f m' i

lemma within_id (S : Set ι) : Within S (fun m : ι → α => m) :=
  ⟨fun _ _ _ => rfl, fun _ _ h => h⟩

/-- One operation after the other. -/
lemma Within.comp (hg : Within S g) (hf : Within S f) : Within S fun m => g (f m) := by
  constructor
  · intro m i hi
    rw [hg.frame _ i hi, hf.frame _ i hi]
  · intro m m' h
    exact hg.depends _ _ (hf.depends _ _ h)

lemma Within.mono (hf : Within S f) (h : S ⊆ T) : Within T f := by
  constructor
  · exact fun m i hi => hf.frame m i fun hS => hi (h hS)
  · intro m m' hm i hi
    by_cases hS : i ∈ S
    · exact hf.depends m m' (fun j hj => hm j (h hj)) i hS
    · rw [hf.frame m i hS, hf.frame m' i hS, hm i hi]

variable [DecidableEq ι]

lemma within_update {i : ι} (hi : i ∈ S) (a : α) :
    Within S fun m : ι → α => Function.update m i a := by
  constructor
  · intro m j hj
    exact Function.update_of_ne (ne_of_mem_of_not_mem hi hj).symm _ _
  · intro m m' h j hj
    by_cases he : j = i
    · subst he; simp
    · simp [he, h j hj]

/-- Two places changing their contents. -/
lemma within_swap {i j : ι} (hi : i ∈ S) (hj : j ∈ S) :
    Within S fun m : ι → α => Function.update (Function.update m j (m i)) i (m j) := by
  constructor
  · intro m k hk
    rw [Function.update_of_ne (ne_of_mem_of_not_mem hi hk).symm,
      Function.update_of_ne (ne_of_mem_of_not_mem hj hk).symm]
  · intro m m' h k hk
    simp only [Function.update_apply, h i hi, h j hj, h k hk]

/-- A loop that stores `c` at the places `l`. -/
lemma foldl_update_apply (l : List ι) (c : α) (m : ι → α) (i : ι) :
    l.foldl (fun m j => Function.update m j c) m i = if i ∈ l then c else m i := by
  induction l generalizing m with
  | nil => simp
  | cons j l ih =>
    rw [List.foldl_cons, ih, Function.update_apply]
    by_cases h : i = j <;> simp [h]

end Mono98.Lib.Footprint
