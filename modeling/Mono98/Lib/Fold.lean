import Mathlib.Data.List.ProdSigma

/-!
Loops over a list whose body may fail: the invariant rule, and two nested loops as one loop
over the pairs of their elements.
-/

namespace Mono98.Lib.Fold

variable {α β : Type*} {f : β → α → Option β}

/-- If the body succeeds and carries `P` from the elements done to one more, the loop
succeeds and ends with `P` of all elements. -/
theorem foldlM_inv (P : List α → β → Prop) {l : List α}
    (step : ∀ u a w b, l = u ++ a :: w → P u b → ∃ b', f b a = some b' ∧ P (u ++ [a]) b')
    {b : β} (h : P [] b) : ∃ b', l.foldlM f b = some b' ∧ P l b' := by
  suffices ∀ u w b, l = u ++ w → P u b → ∃ b', w.foldlM f b = some b' ∧ P l b' from
    this [] l b rfl h
  intro u w
  induction w generalizing u with
  | nil => intro b hl hb; exact ⟨b, rfl, by rw [hl, List.append_nil]; exact hb⟩
  | cons a w ih =>
    intro b hl hb
    obtain ⟨b₁, h₁, hP⟩ := step u a w b hl hb
    obtain ⟨b', h', hP'⟩ := ih (u ++ [a]) b₁ (by simp [hl]) hP
    exact ⟨b', by simp [h₁, h'], hP'⟩

/-- An invariant that does not look at the elements done. -/
theorem foldlM_some (P : β → Prop) {l : List α}
    (step : ∀ a ∈ l, ∀ b, P b → ∃ b', f b a = some b' ∧ P b') {b : β} (h : P b) :
    ∃ b', l.foldlM f b = some b' ∧ P b' :=
  foldlM_inv (fun _ => P) (fun u a w b hl hb => step a (by simp [hl]) b hb) h

/-- Two loops over one list: what relates the states before a round relates them after it. -/
theorem foldlM_rel {γ : Type*} {g : γ → α → Option γ} (R : β → γ → Prop) {l : List α}
    (step : ∀ a ∈ l, ∀ b c b', R b c → f b a = some b' → ∃ c', g c a = some c' ∧ R b' c')
    {b b' : β} {c : γ} (h : R b c) (hf : l.foldlM f b = some b') :
    ∃ c', l.foldlM g c = some c' ∧ R b' c' := by
  induction l generalizing b c with
  | nil =>
    obtain rfl := Option.some.inj hf
    exact ⟨c, rfl, h⟩
  | cons a l ih =>
    rw [List.foldlM_cons, Option.bind_eq_bind, Option.bind_eq_some_iff] at hf
    obtain ⟨b₁, hb, hf⟩ := hf
    obtain ⟨c₁, hc, hR⟩ := step a List.mem_cons_self b c b₁ h hb
    obtain ⟨c', hg, hR'⟩ := ih (fun a ha => step a (List.mem_cons_of_mem _ ha)) hR hf
    exact ⟨c', by rw [List.foldlM_cons, hc]; exact hg, hR'⟩

/-- Loops with the same body on the elements of the list. -/
lemma foldlM_congr {g : β → α → Option β} {l : List α} (h : ∀ a ∈ l, ∀ b, f b a = g b a) (b : β) :
    l.foldlM f b = l.foldlM g b := by
  induction l generalizing b with
  | nil => rfl
  | cons a l ih =>
    rw [List.foldlM_cons, List.foldlM_cons, h a (by simp)]
    congr 1
    funext b'
    exact ih (fun a ha => h a (by simp [ha])) b'

/-- In a loop that comes through, the body has come through on every element. -/
lemma foldlM_each {l : List α} {b b' : β} (h : l.foldlM f b = some b') {a : α} (ha : a ∈ l) :
    ∃ c c', f c a = some c' := by
  induction l generalizing b with
  | nil => exact absurd ha List.not_mem_nil
  | cons x l ih =>
    rw [List.foldlM_cons, Option.bind_eq_bind, Option.bind_eq_some_iff] at h
    obtain ⟨c, hc, h⟩ := h
    rcases List.mem_cons.mp ha with rfl | ha
    · exact ⟨b, c, hc⟩
    · exact ih h ha

/-- A map that fails nowhere. -/
lemma mapM_some {g : α → Option β} {h : α → β} {l : List α} (hg : ∀ a ∈ l, g a = some (h a)) :
    l.mapM g = some (l.map h) := by
  induction l with
  | nil => rfl
  | cons a l ih =>
    rw [List.mapM_cons, hg a List.mem_cons_self, ih fun b hb => hg b (List.mem_cons_of_mem a hb)]
    rfl

/-! ### Nested loops -/

variable {γ : Type*}

lemma foldlM_product (f : β → α × γ → Option β) (l : List α) (l' : List γ) (b : β) :
    (l ×ˢ l').foldlM f b = l.foldlM (fun b a => l'.foldlM (fun b c => f b (a, c)) b) b := by
  induction l generalizing b with
  | nil => rfl
  | cons a l ih =>
    rw [List.product_cons, List.foldlM_append, List.foldlM_map, List.foldlM_cons]
    congr 1
    funext b'
    exact ih b'

/-- A loop over the elements with their indices. -/
lemma foldlM_zipIdx {f : β → α × ℕ → Option β} {g : β → ℕ → Option β} {l : List α}
    (h : ∀ i (hi : i < l.length), ∀ b, f b (l[i], i) = g b i) (b : β) :
    l.zipIdx.foldlM f b = (List.range l.length).foldlM g b := by
  have hr : List.range l.length = l.zipIdx.map Prod.snd := by
    rw [List.zipIdx_map_snd, List.range_eq_range']
  rw [hr, List.foldlM_map]
  refine foldlM_congr (fun p hp b => ?_) b
  obtain ⟨hi, he⟩ := List.getElem?_eq_some_iff.mp (List.mem_zipIdx_iff_getElem?.mp hp)
  have hp : p = (l[p.2], p.2) := Prod.ext he.symm rfl
  rw [hp]
  exact h p.2 hi b

/-- The pairs of a product come in lexicographic order. -/
lemma pairwise_product {r : α → α → Prop} {s : γ → γ → Prop} {l : List α} {l' : List γ}
    (hl : l.Pairwise r) (hl' : l'.Pairwise s) :
    (l ×ˢ l').Pairwise fun a b => r a.1 b.1 ∨ a.1 = b.1 ∧ s a.2 b.2 := by
  induction l with
  | nil => exact List.Pairwise.nil
  | cons a l ih =>
    rw [List.pairwise_cons] at hl
    rw [List.product_cons, List.pairwise_append]
    refine ⟨?_, ih hl.2, fun b hb c hc => ?_⟩
    · rw [List.pairwise_map]
      exact hl'.imp fun h => Or.inr ⟨rfl, h⟩
    · obtain ⟨x, -, rfl⟩ := List.mem_map.mp hb
      obtain ⟨hc, -⟩ := List.mem_product.mp hc
      exact Or.inl (hl.1 _ hc)

end Mono98.Lib.Fold
