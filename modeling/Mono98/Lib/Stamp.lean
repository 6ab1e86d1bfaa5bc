import Mathlib.Data.List.Nodup

/-!
Writing a finite family of cells of a memory, one after the other.

A loop that stores to cells with distinct addresses, at each of them perhaps nothing, leaves
every one of them with what it stored there and all other cells alone.
-/

namespace Mono98.Lib.Stamp

variable {ι α β : Type*} [DecidableEq α]

/-- Store `val i` at `key i` for the `i` of the list, in order; `none` stores nothing. -/
def stamp (key : ι → α) (val : ι → Option β) (l : List ι) (f : α → β) : α → β :=
  l.foldl (fun f i => match val i with
    | some b => Function.update f (key i) b
    | none => f) f

variable (key : ι → α) (val : ι → Option β)

lemma stamp_cons (i : ι) (l : List ι) (f : α → β) :
    stamp key val (i :: l) f = stamp key val l (match val i with
      | some b => Function.update f (key i) b
      | none => f) := rfl

lemma stamp_of_ne {l : List ι} {f : α → β} {a : α} (h : ∀ i ∈ l, key i ≠ a) :
    stamp key val l f a = f a := by
  induction l generalizing f with
  | nil => rfl
  | cons i l ih =>
    rw [stamp_cons, ih fun j hj => h j (by simp [hj])]
    have hi : a ≠ key i := (h i (by simp)).symm
    cases val i with
    | none => rfl
    | some b => exact Function.update_of_ne hi b f

lemma stamp_key {l : List ι} {f : α → β} {i : ι} (hi : i ∈ l)
    (inj : ∀ j ∈ l, key j = key i → j = i) (hl : l.Nodup) :
    stamp key val l f (key i) = (val i).getD (f (key i)) := by
  induction l generalizing f with
  | nil => simp at hi
  | cons j l ih =>
    rw [stamp_cons]
    obtain ⟨hj, hl⟩ := List.nodup_cons.mp hl
    by_cases hij : j = i
    · subst hij
      have off : ∀ k ∈ l, key k ≠ key j := fun k hk h => hj (inj k (by simp [hk]) h ▸ hk)
      rw [stamp_of_ne key val off]
      cases val j <;> simp
    · have hi' : i ∈ l := by simpa [Ne.symm hij] using hi
      have hne : key i ≠ key j := fun h => hij (inj j (by simp) h.symm)
      rw [ih hi' (fun k hk => inj k (by simp [hk])) hl]
      cases val j with
      | none => rfl
      | some b => simp [Function.update_of_ne hne]

/-- The same values stored in two memories: cells that agree go on agreeing. -/
lemma stamp_congr {val' : ι → Option β} {P : α → Prop} {l : List ι} {f f' : α → β}
    (hval : ∀ i ∈ l, val i = val' i) (h : ∀ a, P a → f a = f' a) :
    ∀ a, P a → stamp key val l f a = stamp key val' l f' a := by
  induction l generalizing f f' with
  | nil => exact h
  | cons i l ih =>
    rw [stamp_cons, stamp_cons, ← hval i (by simp)]
    refine ih (fun j hj => hval j (by simp [hj])) fun a ha => ?_
    cases val i with
    | none => exact h a ha
    | some b => simp only [Function.update_apply, h a ha]

end Mono98.Lib.Stamp
