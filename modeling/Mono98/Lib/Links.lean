import Mathlib.Data.List.Nodup

/-!
Singly linked lists in memory, given by the function that follows a link.

A null pointer is `none`. A chain is the list of nodes met from a pointer on; a traversal
and a walk of a number of steps are read off the chain, and moving the head node behind the
last one turns the chain `a :: xs` into `xs ++ [a]`.
-/

namespace Mono98.Lib.Links

variable {α : Type*} {next next' : α → Option α}

/-- Following `next` from `p` meets `xs` and then the null pointer. -/
def Chain (next : α → Option α) : Option α → List α → Prop
  | p, [] => p = none
  | p, a :: xs => p = some a ∧ Chain next (next a) xs

/-- The nodes that `for (p; p; p = p->next)` visits, if there are at most `n`. -/
def visited (next : α → Option α) : ℕ → Option α → Option (List α)
  | _, none => some []
  | 0, some _ => none
  | n + 1, some a => (visited next n (next a)).map (a :: ·)

/-- The pointer `n` steps from `p`; a step from the null pointer faults. -/
def walk (next : α → Option α) : ℕ → Option α → Option α
  | 0, p => p
  | n + 1, p => p.bind fun a => walk next n (next a)

@[simp] lemma chain_nil (p : Option α) : Chain next p [] ↔ p = none := Iff.rfl

@[simp] lemma chain_cons (p : Option α) (a : α) (xs : List α) :
    Chain next p (a :: xs) ↔ p = some a ∧ Chain next (next a) xs := Iff.rfl

lemma visited_of_chain {p : Option α} {xs : List α} (h : Chain next p xs) {n : ℕ}
    (hn : xs.length ≤ n) : visited next n p = some xs := by
  induction xs generalizing p n with
  | nil => rw [chain_nil] at h; subst h; cases n <;> rfl
  | cons a xs ih =>
    obtain ⟨rfl, h⟩ := h
    cases n with
    | zero => simp at hn
    | succ n => simp [visited, ih h (by simpa using hn)]

lemma walk_of_chain {p : Option α} {xs : List α} (h : Chain next p xs) (n : ℕ) :
    walk next n p = xs[n]? := by
  induction xs generalizing p n with
  | nil => rw [chain_nil] at h; subst h; cases n <;> rfl
  | cons a xs ih =>
    obtain ⟨rfl, h⟩ := h
    cases n with
    | zero => rfl
    | succ n => simpa [walk] using ih h n

/-- A chain whose nodes have been given other names. -/
lemma chain_map {β : Type*} {next' : β → Option β} (g : α → β) {p : Option α} {xs : List α}
    (h : Chain next p xs) (hg : ∀ a ∈ xs, next' (g a) = (next a).map g) :
    Chain next' (p.map g) (xs.map g) := by
  induction xs generalizing p with
  | nil => rw [chain_nil] at h; subst h; rfl
  | cons a xs ih =>
    obtain ⟨rfl, h⟩ := h
    refine ⟨rfl, ?_⟩
    rw [hg a List.mem_cons_self]
    exact ih h fun b hb => hg b (List.mem_cons_of_mem _ hb)

/-- Linking a node behind the last one. -/
lemma chain_snoc {p : Option α} {xs : List α} {a b : α} (h : Chain next p (xs ++ [b]))
    (keep : ∀ c ∈ xs, next' c = next c) (hb : next' b = some a) (ha : next' a = none) :
    Chain next' p (xs ++ [b] ++ [a]) := by
  induction xs generalizing p with
  | nil =>
    obtain ⟨rfl, -⟩ := h
    exact ⟨rfl, hb, ha⟩
  | cons c xs ih =>
    obtain ⟨rfl, h⟩ := h
    refine ⟨rfl, ?_⟩
    rw [keep c (by simp)]
    exact ih h fun d hd => keep d (by simp [hd])

/-- **Rotation**: the head node, linked behind the last one, is the new end. -/
theorem rotate {p : Option α} {xs : List α} {a b : α} (h : Chain next p (a :: (xs ++ [b])))
    (keep : ∀ c ∈ xs, next' c = next c) (hb : next' b = some a) (ha : next' a = none) :
    Chain next' (next a) (xs ++ [b] ++ [a]) :=
  chain_snoc h.2 keep hb ha

/-- The chain through `i, …, i + n - 1` when each node links to the one after it. -/
lemma chain_range' {next : ℕ → Option ℕ} (i n : ℕ)
    (link : ∀ j, i ≤ j → j + 1 < i + n → next j = some (j + 1))
    (last : next (i + n - 1) = none) (hn : 0 < n) :
    Chain next (some i) (List.range' i n) := by
  induction n generalizing i with
  | zero => omega
  | succ n ih =>
    refine ⟨rfl, ?_⟩
    cases n with
    | zero => simpa using last
    | succ n =>
      rw [link i (Nat.le_refl i) (by omega)]
      refine ih (i + 1) (fun j h1 h2 => link j (by omega) (by omega)) ?_ (by omega)
      rw [show i + 1 + (n + 1) - 1 = i + (n + 1 + 1) - 1 by omega]
      exact last

end Mono98.Lib.Links
