import Mathlib.Data.List.Induction
import Mono98.KeyboardLine
import Mono98.Lib.Bytes

/-!
What `kgetline` stores in the buffer of its caller.

The reference editor keeps the line as a list of characters. As long as the list has no more
characters than the buffer, the buffer holds the list. The test of `kgetline` against the
capacity is one for two characters too late: it stores the character behind the buffer, and
another one, before it refuses.
-/

namespace Mono98.LineBuffer

open Mono98.Tty Mono98.Keyboard Mono98.KeyboardLine Mono98.Lib.Bytes Mono98.Lib.Word

/-- The reference editor: a backspace drops the last character, if there is one, a key without
a character does nothing, and any other key appends its character. -/
def edit (line : List UInt8) (e : UInt16) : List UInt8 :=
  if key e = 8 then line.dropLast
  else if key e ≠ 0 then line ++ [charOf e]
  else line

def editAll (es : List UInt16) : List UInt8 := es.foldl edit []

/-- The line is never longer than the buffer, and at the end there is room for a terminator. -/
structure Fits (capacity : ℕ) (es : List UInt16) : Prop where
  during : ∀ pre, pre <+: es → (editAll pre).length ≤ capacity
  final : (editAll es).length < capacity

/-- The index of `buffer` that the handling of an entry stores to. -/
def storeAt (capacity : ℕ) (l : Line) (e : UInt16) : Option ℕ :=
  if key e = 8 then none else if l.accepts capacity e then some l.len else none

/-- Every index of `buffer` that is stored to while the entries are handled lies within the
capacity, and so does that of the terminator, which is the length returned. -/
structure InBounds (around : ℤ → ℕ) (echo : Bool) (capacity : ℕ) (l₀ : Line)
    (events : List Event) : Prop where
  store : ∀ pre e post l, events = pre ++ .entry e :: post →
    l₀.run around echo capacity pre = some l → ∀ i, storeAt capacity l e = some i → i < capacity
  terminator : ∀ l, l₀.run around echo capacity events = some l → l.len < capacity

/-- The buffer holds the line. -/
structure Holds (l : Line) (line : List UInt8) : Prop where
  len : l.len = line.length
  stands : Stands l.buffer 0 line

variable {around : ℤ → ℕ} {echo : Bool} {capacity : ℕ} {l l' l₀ : Line} {line : List UInt8}
variable {e : UInt16} {events : List Event}

@[simp] lemma editAll_nil : editAll [] = [] := rfl

@[simp] lemma editAll_snoc (es : List UInt16) (e : UInt16) :
    editAll (es ++ [e]) = edit (editAll es) e := by
  simp [editAll]

/-! ### One entry -/

/-- What an entry does to a line that the buffer has room for. -/
lemma Holds.handle (h : Holds l line) (hcap : capacity ≤ 65535)
    (hroom : (edit line e).length ≤ capacity) (hl : l.handle around echo capacity e = some l') :
    Holds l' (edit line e) := by
  obtain ⟨hlen, hst⟩ := h
  unfold Line.handle at hl
  unfold edit at hroom ⊢
  split_ifs at hl with h8 hacc
  · -- a backspace
    rw [if_pos h8]
    unfold Line.rubout at hl
    split_ifs at hl with h0
    · obtain ⟨m, -, rfl⟩ := Option.map_eq_some_iff.mp hl
      refine ⟨?_, fun k hk => ?_⟩
      · rw [List.length_dropLast, ← hlen]
        exact dec_of_pos (Nat.pos_of_ne_zero h0)
      · rw [List.length_dropLast] at hk
        rw [List.getElem_dropLast]
        exact hst k (by omega)
    · cases hl
      have hnil : line = [] := List.length_eq_zero_iff.mp (by omega)
      subst hnil
      exact ⟨hlen, hst⟩
  · -- a character
    rw [if_neg h8, if_pos hacc.1] at hroom ⊢
    rw [List.length_append, List.length_singleton] at hroom
    obtain ⟨m, -, rfl⟩ := Option.map_eq_some_iff.mp hl
    refine ⟨?_, stands_append.mpr ⟨fun k hk => ?_, fun k hk => ?_⟩⟩
    · rw [List.length_append, List.length_singleton, ← hlen]
      exact inc_of_lt (show l.len + 1 < 2 ^ 16 by omega)
    · have hne : 0 + k ≠ l.len := by omega
      rw [← hst k hk]
      exact Function.update_of_ne hne _ _
    · obtain rfl : k = 0 := by simpa using hk
      rw [Nat.zero_add, Nat.add_zero, ← hlen]
      exact Function.update_self _ _ _
  · -- a key without a character
    have h0 : ¬ key e ≠ 0 := fun h0 => hacc ⟨h0, by
      rw [if_neg h8, if_pos h0, List.length_append] at hroom
      simp only [List.length_singleton] at hroom
      omega⟩
    rw [if_neg h8, if_neg h0]
    cases hl
    exact ⟨hlen, hst⟩

/-- In a run of `kgetline` the statement that stores a character stores where the handling of
the entry does. -/
theorem store_of_run {blinkTime : ℕ} {keys : Keys} {buffer : ℕ → UInt8} {m : Machine}
    {s : KeyboardRing.State} {shift : Bool}
    (run : KeyboardRing.Reaches around echo capacity blinkTime (KeyboardRing.start keys buffer m) s)
    (hpc : s.pc = .store shift) : ∃ events e l, s.past.handled = entries events ++ [e] ∧
      Line.run around echo capacity ⟨0, buffer, m⟩ events = some l ∧
      storeAt capacity l e = some s.line.len := by
  obtain ⟨events, l, hrun, -, hst⟩ := run_follows keys buffer m run
  rw [hpc] at hst
  rcases hst with ⟨hb, -⟩ | ⟨e, ⟨hl, -, h8, hacc, -⟩, hh⟩
  · exact hb.elim
  · exact ⟨events, e, l, hh, hrun, by rw [storeAt, if_neg h8, if_pos hacc, hl]⟩

/-! ### Runs -/

/-- A run that has come back has come back from all but its last event before. -/
lemma run_snoc_inv {ev : Event} (h : l₀.run around echo capacity (events ++ [ev]) = some l') :
    ∃ l, l₀.run around echo capacity events = some l ∧
      l.apply around echo capacity ev = some l' := by
  rw [Line.run, List.foldlM_append, Option.bind_eq_bind, Option.bind_eq_some_iff] at h
  obtain ⟨l, hl, h⟩ := h
  refine ⟨l, hl, ?_⟩
  simpa using h

/-- **The editor**: while the line fits, the buffer holds the line of the reference editor. -/
theorem holds_run (h : Holds l₀ []) (hcap : capacity ≤ 65535)
    (hroom : ∀ pre, pre <+: entries events → (editAll pre).length ≤ capacity)
    (hl : l₀.run around echo capacity events = some l) : Holds l (editAll (entries events)) := by
  induction events using List.reverseRecOn generalizing l with
  | nil => cases hl; exact h
  | append_singleton events ev ih =>
    obtain ⟨l₁, h₁, hl⟩ := run_snoc_inv hl
    rw [entries_append] at hroom ⊢
    have ih := ih (fun pre hp => hroom pre (hp.trans (List.prefix_append _ _))) h₁
    cases ev with
    | entry e =>
      have hsnoc : entries [.entry e] = [e] := rfl
      rw [hsnoc, editAll_snoc]
      refine ih.handle hcap ?_ hl
      rw [← editAll_snoc]
      exact hroom _ (List.prefix_refl _)
    | blink shown =>
      obtain ⟨m, -, rfl⟩ := Option.map_eq_some_iff.mp hl
      have hnil : entries [.blink shown] = [] := rfl
      rw [hnil, List.append_nil]
      exact ⟨ih.len, ih.stands⟩

/-! ### The bound -/

lemma holds_empty (buffer : ℕ → UInt8) (m : Machine) : Holds ⟨0, buffer, m⟩ [] :=
  ⟨rfl, stands_nil _ _⟩

/-- A line that fits is stored within the buffer. -/
lemma inBounds_of_fits (h : Holds l₀ []) (hcap : capacity ≤ 65535)
    (hfit : Fits capacity (entries events)) : InBounds around echo capacity l₀ events where
  store := by
    rintro pre e post l rfl hl i hi
    have hpre : entries pre ++ [e] <+: entries (pre ++ .entry e :: post) := by
      rw [entries_append]
      exact List.prefix_append_right_inj _ |>.mpr ⟨entries post, rfl⟩
    have hh := holds_run h hcap (fun p hp => hfit.during p
      ((hp.trans (List.prefix_append _ _)).trans hpre)) hl
    -- the character that is stored is one of the line
    have hroom := hfit.during _ hpre
    unfold storeAt at hi
    split_ifs at hi with h8 hacc
    obtain rfl := Option.some.inj hi
    rw [editAll_snoc, edit, if_neg h8, if_pos hacc.1, List.length_append, ← hh.len] at hroom
    exact hroom
  terminator := fun l hl => by
    rw [(holds_run h hcap hfit.during hl).len]
    exact hfit.final

/-- A run whose stores are within the buffer has a line that fits. -/
lemma fits_of_inBounds (h : Holds l₀ []) (hcap : capacity ≤ 65535)
    (hl : l₀.run around echo capacity events = some l)
    (hb : InBounds around echo capacity l₀ events) : Fits capacity (entries events) := by
  have hroom : ∀ u w, events = u ++ w → ∀ pre, pre <+: entries u →
      (editAll pre).length ≤ capacity := by
    intro u
    induction u using List.reverseRecOn with
    | nil =>
      intro w _ pre hp
      rw [List.prefix_nil.mp hp]
      exact Nat.zero_le _
    | append_singleton u ev ih =>
      rintro w rfl pre hp
      have before := ih (ev :: w) (by simp)
      cases ev with
      | blink shown =>
        rw [entries_append] at hp
        exact before pre (by simpa [entries] using hp)
      | entry e =>
        have hsnoc : entries (u ++ [.entry e]) = entries u ++ [e] := entries_append _ _
        rw [hsnoc, List.prefix_concat_iff] at hp
        rcases hp with rfl | hp
        · -- the line as it is before the entry
          obtain ⟨l₁, h₁⟩ : ∃ l₁, l₀.run around echo capacity u = some l₁ := by
            rw [Line.run, List.append_assoc, List.foldlM_append, Option.bind_eq_bind,
              Option.bind_eq_some_iff] at hl
            exact hl.imp fun _ h => h.1
          have hh := holds_run h hcap before h₁
          have hlt := hb.store u e w l₁ (by simp) h₁
          have hlen := before _ (List.prefix_refl _)
          rw [editAll_snoc, edit]
          split_ifs with h8 h0
          · rw [List.length_dropLast]
            omega
          · have hacc : l₁.accepts capacity e := ⟨h0, by rw [hh.len]; omega⟩
            have := hlt l₁.len (by rw [storeAt, if_neg h8, if_pos hacc])
            rw [List.length_append, ← hh.len]
            exact this
          · exact hlen
        · exact before pre hp
  have hall := hroom events [] (by simp)
  exact ⟨hall, by rw [← (holds_run h hcap hall hl).len]; exact hb.terminator l hl⟩

/-- **The bounds of the buffer**: a line that fits is stored within the buffer, and when the
handling of the entries comes back and has stored within the buffer, the line fits. -/
theorem kgetline_in_bounds (around : ℤ → ℕ) (echo : Bool)
    (hcap : 1 ≤ capacity ∧ capacity ≤ 65535) (buffer : ℕ → UInt8) (m : Machine)
    (events : List Event) :
    (Fits capacity (entries events) → InBounds around echo capacity ⟨0, buffer, m⟩ events) ∧
    ∀ l, Line.run around echo capacity ⟨0, buffer, m⟩ events = some l →
      InBounds around echo capacity ⟨0, buffer, m⟩ events → Fits capacity (entries events) :=
  ⟨inBounds_of_fits (holds_empty buffer m) hcap.2,
    fun _ hl hb => fits_of_inBounds (holds_empty buffer m) hcap.2 hl hb⟩

/-- An `A` in a buffer of two characters. -/
theorem kgetline_in_bounds_two :
    Fits 2 [30] ∧ InBounds (fun _ => 0) true 2
      ⟨0, fun _ => 0, initTerminal 2 2 (fun _ => 0) 7 (.boot fun _ => 0)⟩ [.entry 30] := by
  have hfit : Fits 2 (entries [.entry 30]) := by
    refine ⟨fun pre hp => ?_, by decide⟩
    have hsingle : entries [.entry 30] = [] ++ [30] := rfl
    rw [hsingle, List.prefix_concat_iff] at hp
    rcases hp with rfl | hp
    · decide
    · rw [List.prefix_nil.mp hp]
      decide
  exact ⟨hfit, (kgetline_in_bounds _ true (by omega) _ _ _).1 hfit⟩

/-- An `A` and Enter, in a buffer of one character: the terminator is stored behind it. -/
theorem terminator_outside : ¬ InBounds (fun _ => 0) false 1
    ⟨0, fun _ => 0, initTerminal 2 2 (fun _ => 0) 7 (.boot fun _ => 0)⟩ [.entry 30] := by
  intro h
  have hlt := h.terminator _ rfl
  exact absurd hlt (by decide)

end Mono98.LineBuffer
