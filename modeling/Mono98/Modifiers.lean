import Mathlib.Data.List.Infix
import Mono98.LineInput

/-!
The modifier bits of the log.

The two shift keys share one flag, which says whether the last byte of either of them was a
press. It is wrong while one of them is held behind a release of the other.
-/

namespace Mono98.Modifiers

open Mono98.Keyboard Mono98.KeyboardRing Mono98.LineInput Mono98.Lib.Word

/-! ### The keys held -/

/-- The bytes of a key. -/
structure Modifier where
  press : UInt8
  release : UInt8

def leftShift : Modifier := ⟨0x2A, 0xAA⟩
def rightShift : Modifier := ⟨0x36, 0xB6⟩
def leftCtrl : Modifier := ⟨0x1D, 0x9D⟩

/-- The byte belongs to one of the three keys. -/
def IsModifier (b : UInt8) : Prop := b ∈ ([0x2A, 0xAA, 0x36, 0xB6, 0x1D, 0x9D] : List UInt8)

instance (b : UInt8) : Decidable (IsModifier b) := inferInstanceAs (Decidable (_ ∈ _))

namespace Modifier

variable (key : Modifier) (raw : List UInt8)

/-- Behind the bytes `raw` the key is held. -/
def Held : Prop := raw.count key.release < raw.count key.press

/-- Presses and releases of the key alternate, beginning with a press. -/
def Alternates : Prop :=
  ∀ pre, pre <+: raw → pre.count key.release ≤ pre.count key.press ∧
    pre.count key.press ≤ pre.count key.release + 1

instance : Decidable (key.Held raw) := inferInstanceAs (Decidable (_ < _))

instance : Decidable (key.Alternates raw) :=
  decidable_of_iff (∀ pre ∈ raw.inits, pre.count key.release ≤ pre.count key.press ∧
    pre.count key.press ≤ pre.count key.release + 1) (by simp only [List.mem_inits, Alternates])

variable {key raw} {b : UInt8}

lemma Alternates.held_press (h : key.Alternates raw) (hne : key.press ≠ key.release) :
    key.Held (raw ++ [key.press]) := by
  have := h raw (List.prefix_refl _)
  simp only [Held, List.count_append, List.count_singleton_self,
    List.count_singleton, beq_iff_eq, hne, if_false]
  omega

lemma Alternates.held_release (h : key.Alternates raw) (hne : key.press ≠ key.release) :
    ¬ key.Held (raw ++ [key.release]) := by
  have := h raw (List.prefix_refl _)
  simp only [Held, List.count_append, List.count_singleton_self,
    List.count_singleton, beq_iff_eq, hne.symm, if_false]
  omega

lemma held_other (h₁ : b ≠ key.press) (h₂ : b ≠ key.release) :
    key.Held (raw ++ [b]) ↔ key.Held raw := by
  simp only [Held, List.count_append, List.count_singleton, beq_iff_eq, h₁, h₂, if_false,
    Nat.add_zero]

lemma Alternates.mono {pre : List UInt8} (h : key.Alternates raw) (hp : pre <+: raw) :
    key.Alternates pre := fun p hp' => h p (hp'.trans hp)

end Modifier

/-! ### The flags -/

/-- Whether the last byte of a shift key is a press, if there is one. -/
def lastShift (raw : List UInt8) : Option Bool :=
  raw.foldl (fun last b =>
    if b = 0x2A ∨ b = 0x36 then some true
    else if b = 0xAA ∨ b = 0xB6 then some false
    else last) none

@[simp] lemma lastShift_snoc (raw : List UInt8) (b : UInt8) :
    lastShift (raw ++ [b]) = if b = 0x2A ∨ b = 0x36 then some true
      else if b = 0xAA ∨ b = 0xB6 then some false else lastShift raw := by
  simp [lastShift]

/-- A shift key is held. -/
def ShiftHeld (raw : List UInt8) : Prop := leftShift.Held raw ∨ rightShift.Held raw

instance (raw : List UInt8) : Decidable (ShiftHeld raw) := inferInstanceAs (Decidable (_ ∨ _))

/-- A shift key is held, and the last byte of the shift keys is a release (of the other one). -/
def Lost (raw : List UInt8) : Prop := ShiftHeld raw ∧ lastShift raw = some false

instance (raw : List UInt8) : Decidable (Lost raw) := inferInstanceAs (Decidable (_ ∧ _))

/-- The driver behind the bytes `raw`. -/
def keysAfter (k₀ : Keys) (raw : List UInt8) : Keys :=
  raw.foldl (fun k b => (processScancode k b).1) k₀

@[simp] lemma keysAfter_snoc (k₀ : Keys) (raw : List UInt8) (b : UInt8) :
    keysAfter k₀ (raw ++ [b]) = (processScancode (keysAfter k₀ raw) b).1 := by
  simp [keysAfter]

/-- The bytes of the three keys alternate. -/
structure Proper (raw : List UInt8) : Prop where
  left : leftShift.Alternates raw
  right : rightShift.Alternates raw
  ctrl : leftCtrl.Alternates raw

lemma Proper.mono {raw pre : List UInt8} (h : Proper raw) (hp : pre <+: raw) : Proper pre :=
  ⟨h.left.mono hp, h.right.mono hp, h.ctrl.mono hp⟩

variable {raw : List UInt8} {k k₀ : Keys} {b : UInt8}

/-- A byte that is not one of a shift key leaves the shift keys as they are. -/
lemma shiftHeld_other (h : ¬ (b = 0x2A ∨ b = 0x36)) (h' : ¬ (b = 0xAA ∨ b = 0xB6)) :
    ShiftHeld (raw ++ [b]) ↔ ShiftHeld raw := by
  simp only [not_or] at h h'
  exact or_congr (Modifier.held_other h.1 h'.1) (Modifier.held_other h.2 h'.2)

/-- Without a byte of a shift key none is held, and behind a press one is. -/
lemma lastShift_held (hp : Proper raw) : (lastShift raw = none → ¬ ShiftHeld raw) ∧
    (lastShift raw = some true → ShiftHeld raw) := by
  induction raw using List.reverseRecOn with
  | nil => simp [lastShift, ShiftHeld, Modifier.Held]
  | append_singleton raw b ih =>
    have hp' := hp.mono (List.prefix_append raw [b])
    rw [lastShift_snoc]
    split_ifs with hpress hrel
    · refine ⟨by simp, fun _ => ?_⟩
      rcases hpress with rfl | rfl
      · exact Or.inl (hp'.left.held_press (by decide))
      · exact Or.inr (hp'.right.held_press (by decide))
    · simp
    · rw [shiftHeld_other hpress hrel]
      exact ih hp'

/-- What the flags say behind the bytes `raw`. -/
structure Agrees (raw : List UInt8) (k : Keys) : Prop where
  flags : Flags k
  shift : k.shift = 1 ↔ lastShift raw = some true
  ctrl : k.ctrl = 1 ↔ leftCtrl.Held raw

/-- A byte keeps the flags in agreement. -/
lemma Agrees.byte (h : Agrees raw k) (hp : Proper raw) (b : UInt8) :
    Agrees (raw ++ [b]) (processScancode k b).1 := by
  refine ⟨h.flags.byte b, ?_, ?_⟩
  · rw [processScancode_shift, lastShift_snoc]
    split_ifs
    · simp
    · simp
    · exact h.shift
  · rw [processScancode_ctrl]
    split_ifs with hpress hrel
    · subst hpress
      exact iff_of_true rfl (hp.ctrl.held_press (by decide))
    · subst hrel
      exact iff_of_false (by decide) (hp.ctrl.held_release (by decide))
    · rw [h.ctrl]
      exact (Modifier.held_other hpress hrel).symm

/-- No key is down and the flags are clear. -/
def Clear (k : Keys) : Prop := k.shift = 0 ∧ k.ctrl = 0

lemma agrees_after (h₀ : Clear k₀) (hp : Proper raw) : Agrees raw (keysAfter k₀ raw) := by
  induction raw using List.reverseRecOn with
  | nil =>
    obtain ⟨hs, hc⟩ := h₀
    exact ⟨⟨Or.inl hs, Or.inl hc⟩, by simp [keysAfter, hs, lastShift],
      by simp [keysAfter, hc, Modifier.Held]⟩
  | append_singleton raw b ih =>
    have hp' := hp.mono (List.prefix_append raw [b])
    rw [keysAfter_snoc]
    exact (ih hp').byte hp' b

/-! ### The entries -/

/-- The entry that a byte logs, as it stands in the buffer. -/
def entryOf (k : Keys) (b : UInt8) : Option UInt16 :=
  if (processScancode k b).2 then some ((processScancode k b).1.scancodeBuffer k.write) else none

/-- The modifier bits are set for the keys held, and the low 8 bits are the byte. -/
structure Matches (raw : List UInt8) (b : UInt8) (e : UInt16) : Prop where
  shift : e &&& 0x8000 ≠ 0 ↔ ShiftHeld raw
  ctrl : e &&& 0x4000 ≠ 0 ↔ leftCtrl.Held raw
  byte : e.toUInt8 = b

lemma entryOf_eq (k : Keys) (b : UInt8) :
    entryOf k b = if IsModifier b then none else some (k.entry b) := by
  have hiff : IsModifier b ↔
      (b = 0x36 ∨ b = 0x2A) ∨ (b = 0xAA ∨ b = 0xB6) ∨ b = 0x1D ∨ b = 0x9D := by
    simp only [IsModifier, List.mem_cons, List.not_mem_nil, or_false]
    tauto
  simp only [hiff, entryOf, processScancode]
  split_ifs <;> simp_all

/-- An entry is right unless a shift key is held behind the release of the other. -/
lemma matches_iff (h : Agrees raw k) (hp : Proper raw) (b : UInt8) :
    Matches raw b (k.entry b) ↔ ¬ Lost raw := by
  obtain ⟨hbyte, hshift, hctrl⟩ := entry_bits h.flags b
  obtain ⟨hidle, hpressed⟩ := lastShift_held hp
  constructor
  · rintro hm ⟨hheld, hlast⟩
    have h1 := h.shift.mp (hshift.mp (hm.shift.mpr hheld))
    rw [hlast] at h1
    cases h1
  · intro hlost
    refine ⟨hshift.trans (h.shift.trans ⟨hpressed, fun hheld => ?_⟩), hctrl.trans h.ctrl, hbyte⟩
    cases hlast : lastShift raw with
    | none => exact absurd hheld (hidle hlast)
    | some last =>
      cases last with
      | false => exact absurd ⟨hheld, hlast⟩ hlost
      | true => rfl

/-- Every entry logged for the bytes `raw` matches the keys held at that moment. -/
def AllMatch (k₀ : Keys) (raw : List UInt8) : Prop :=
  ∀ i (hi : i < raw.length) e, entryOf (keysAfter k₀ (raw.take i)) raw[i] = some e →
    Matches (raw.take i) raw[i] e

/-- A byte that is logged never comes while a shift key is held behind the release of the
other. -/
def NeverLost (raw : List UInt8) : Prop :=
  ∀ i (hi : i < raw.length), ¬ IsModifier raw[i] → ¬ Lost (raw.take i)

instance (raw : List UInt8) : Decidable (NeverLost raw) :=
  inferInstanceAs (Decidable (∀ i, ∀ _ : i < raw.length, _))

/-- **The modifier bits** match the keys held as long as no shift key is released under the
other. -/
theorem modifiers_match (h₀ : Clear k₀) (hp : Proper raw) : AllMatch k₀ raw ↔ NeverLost raw := by
  have hp : ∀ i, Proper (raw.take i) := fun i => hp.mono (List.take_prefix i raw)
  have hentry : ∀ i, Agrees (raw.take i) (keysAfter k₀ (raw.take i)) := fun i =>
    agrees_after h₀ (hp i)
  constructor
  · intro h i hi hmod
    refine (matches_iff (hentry i) (hp i) raw[i]).mp (h i hi _ ?_)
    rw [entryOf_eq, if_neg hmod]
  · intro h i hi e he
    rw [entryOf_eq] at he
    split_ifs at he with hmod
    obtain rfl := Option.some.inj he
    exact (matches_iff (hentry i) (hp i) raw[i]).mpr (h i hi hmod)

/-- The driver before the first byte. -/
def firstKeys : Keys := ⟨fun _ => 0, 1, 0, 0, 0, 0⟩

/-- `A` with left shift, then with both shifts held one after the other, and a plain `a`. -/
theorem modifiers_match_letters :
    AllMatch firstKeys [0x2A, 0x1E, 0x36, 0xAA, 0xB6, 0x1E] :=
  (modifiers_match ⟨rfl, rfl⟩ ⟨by decide, by decide, by decide⟩).mpr (by decide)

/-- Both shift keys are pressed, the left one is released, and an `A` is typed. -/
theorem heldShift_lost : Proper [0x2A, 0x36, 0xAA, 0x1E] ∧
    ¬ AllMatch firstKeys [0x2A, 0x36, 0xAA, 0x1E] := by
  refine ⟨⟨by decide, by decide, by decide⟩, fun h => ?_⟩
  have hm := h 3 (by decide) 0x1E rfl
  exact absurd (hm.shift.mpr (by decide)) (by decide)

end Mono98.Modifiers
