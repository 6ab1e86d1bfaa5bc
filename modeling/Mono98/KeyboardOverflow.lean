import Mathlib.Logic.Relation
import Mono98.KeyboardRing

/-!
The scancode ring when it overflows.

The handler never looks at `scancode_read`, and `kgetline` tells from the two indices alone
whether it has caught up. A keyboard that is 256 entries ahead looks like one that has caught up:
whole rounds of the ring are lost, and nothing else is, in every interleaving.

A round of the loop looks at its slot several times. Here an entry counts as handled by what the
first look finds; when the keyboard overruns the slot meanwhile, the later looks of the same round
find another entry there.
-/

namespace Mono98.KeyboardOverflow

open Mono98.Graphics Mono98.Tty Mono98.Keyboard Mono98.Lib.Ring Mono98.KeyboardRing

/-- The slot that the next entry to be handled is on. -/
def front (s : State) : ℕ := if s.pc = .enter then s.i else s.keys.read

/-- The invariant of every run: what has been handled is what a reader at some position of the log
has kept, and the indices are positions of the log. -/
structure Behind (s : State) : Prop where
  holds : Holds 256 s.keys.scancodeBuffer s.past.logged
  write : s.keys.write = s.past.logged.length % 256
  loop : s.pc = .test ∨ s.pc = .take → s.keys.read = s.i
  round : s.pc.InRound → s.keys.read = bump s.i
  place : ∃ b ≤ s.past.logged.length, Skips 256 (s.past.logged.take b) s.past.handled ∧
    front s = b % 256 ∧ (s.pc = .take ∨ s.pc = .enter → b < s.past.logged.length)

variable {s s' : State} {q : Pc} {around : ℤ → ℕ} {echo : Bool} {capacity blinkTime : ℕ}

lemma behind_start (keys : Keys) (buffer : ℕ → UInt8) (m : Machine) :
    Behind (start keys buffer m) where
  holds := holds_nil _ _
  write := rfl
  loop := fun h => by rcases h with h | h <;> cases h
  round := False.elim
  place := ⟨0, Nat.le_refl 0, Skips.nil, rfl, fun h => by rcases h with h | h <;> cases h⟩

/-- Between two places where the index and the past stay the same. -/
lemma Behind.goes (h : Behind s) (he : s.pc ≠ .enter) (l : Line) (he' : q ≠ .enter)
    (hr : q.InRound → s.pc.InRound) (hl : ¬ (q = .test ∨ q = .take)) : Behind (s.goes q l) where
  holds := h.holds
  write := h.write
  loop := fun h' => absurd h' hl
  round := fun h' => h.round (hr h')
  place := by
    obtain ⟨b, hb, hs, hf, -⟩ := h.place
    rw [front, if_neg he] at hf
    refine ⟨b, hb, hs, ?_, fun h' => ?_⟩
    · rw [front, State.goes, if_neg he', hf]
    · exact absurd h' (not_or.mpr ⟨fun h' => hl (Or.inr h'), he'⟩)

/-- A look at the slot behind the first one. -/
lemma Behind.sees (h : Behind s) (he : s.pc ≠ .enter) (he' : q ≠ .enter) (hr : s.pc.InRound)
    (hl : ¬ (q = .test ∨ q = .take)) : Behind (s.sees q) := by
  have h' := h.goes he s.line he' (fun _ => hr) hl
  exact ⟨h'.holds, h'.write, h'.loop, h'.round, h'.place⟩

lemma Behind.drains (h : Behind s) (hpc : s.pc = .drain) : Behind s.drains where
  holds := h.holds
  write := h.write
  loop := fun _ => rfl
  round := False.elim
  place := by
    obtain ⟨b, hb, hs, hf, -⟩ := h.place
    rw [front, hpc] at hf
    exact ⟨b, hb, hs, hf, fun h' => by rcases h' with h' | h' <;> cases h'⟩

/-- The index has not caught up, and so the reader has not. -/
lemma Behind.test (h : Behind s) (hpc : s.pc = .test) (hne : s.i ≠ s.keys.write) :
    Behind { s with pc := .take } where
  holds := h.holds
  write := h.write
  loop := fun _ => h.loop (Or.inl hpc)
  round := False.elim
  place := by
    obtain ⟨b, hb, hs, hf, -⟩ := h.place
    rw [front, hpc] at hf
    have hread : s.keys.read = b % 256 := hf
    refine ⟨b, hb, hs, hf, fun _ => Nat.lt_of_le_of_ne hb fun he => hne ?_⟩
    rw [← h.loop (Or.inl hpc), hread, he, h.write]

lemma Behind.takes (h : Behind s) (hpc : s.pc = .take) : Behind s.takes where
  holds := h.holds
  write := h.write
  loop := fun h' => by rcases h' with h' | h' <;> cases h'
  round := fun _ => congrArg bump (h.loop (Or.inr hpc))
  place := by
    obtain ⟨b, hb, hs, hf, hlt⟩ := h.place
    rw [front, hpc] at hf
    exact ⟨b, hb, hs, (h.loop (Or.inr hpc)).symm.trans hf, fun _ => hlt (Or.inl hpc)⟩

/-- The first look finds the newest entry on the slot. -/
lemma Behind.handles (h : Behind s) (hpc : s.pc = .enter) : Behind s.handles := by
  have hr : s.keys.read = bump s.i := h.round (by rw [hpc]; trivial)
  obtain ⟨b, -, hs, hf, hlt⟩ := h.place
  rw [front, if_pos hpc] at hf
  obtain ⟨p, hbp, hn, hp⟩ := h.holds.newest (by decide) (hlt (Or.inr hpc))
  rw [← hf] at hp
  have hpc' : s.handles.pc = .exit ∨ s.handles.pc = .erase := by
    simp only [State.handles, State.sees]
    split <;> simp
  have hne : s.handles.pc ≠ .enter := by rcases hpc' with h' | h' <;> rw [h'] <;> decide
  refine ⟨h.holds, h.write, fun h' => ?_, fun _ => hr, p + 1,
    (List.getElem?_eq_some_iff.mp hp).1, hs.take hbp hn hp, ?_, fun h' => ?_⟩
  · rcases hpc' with he | he <;> rw [he] at h' <;> simp at h'
  · have hmod : b % 256 = p % 256 := by omega
    rw [front, if_neg hne]
    show s.keys.read = _
    rw [hr, hf, hmod, bump_mod]
  · rcases hpc' with he | he <;> rw [he] at h' <;> simp at h'

lemma Behind.nextRound (h : Behind s) (hpc : s.pc = .next) :
    Behind { s with pc := .test, i := bump s.i } where
  holds := h.holds
  write := h.write
  loop := fun _ => h.round (by rw [hpc]; trivial)
  round := False.elim
  place := by
    obtain ⟨b, hb, hs, hf, -⟩ := h.place
    rw [front, hpc] at hf
    exact ⟨b, hb, hs, hf, fun h' => by rcases h' with h' | h' <;> cases h'⟩

/-- A step of the program keeps the invariant. -/
lemma Behind.next (h : Behind s) (hs : s.next around echo capacity blinkTime = some s') :
    Behind s' := by
  unfold State.next at hs
  split at hs
  case h_1 hpc =>
    split at hs
    · obtain ⟨m, -, rfl⟩ := Option.map_eq_some_iff.mp hs
      exact h.goes (by simp [hpc]) _ (by simp) False.elim (by simp)
    · cases hs
      exact h.goes (q := .drain) (by simp [hpc]) s.line (by simp) False.elim (by simp)
  case h_2 shown i hpc =>
    split at hs
    · cases hs
      refine h.goes (by simp [hpc]) s.line ?_ ?_ ?_ <;> split <;> simp [Pc.InRound]
    · split at hs
      · obtain ⟨m, -, rfl⟩ := Option.map_eq_some_iff.mp hs
        exact h.goes (by simp [hpc]) _ (by simp) False.elim (by simp)
      · cases hs
        exact h.goes (q := .wait) (by simp [hpc]) s.line (by simp) False.elim (by simp)
  case h_3 hpc => cases hs; exact h.drains hpc
  case h_4 hpc =>
    cases hs
    by_cases hw : s.i = s.keys.write
    · simp only [hw, ne_eq, not_true, if_false]
      rw [← hw]
      exact h.goes (q := .wait) (by simp [hpc]) s.line (by simp) False.elim (by simp)
    · simp only [ne_eq, hw, not_false_eq_true, if_true]
      exact h.test hpc hw
  case h_5 hpc => cases hs; exact h.takes hpc
  case h_6 hpc => cases hs; exact h.handles hpc
  case h_7 hpc =>
    cases hs
    refine h.sees (by simp [hpc]) ?_ (by rw [hpc]; trivial) ?_ <;> split <;> simp
  case h_8 hpc =>
    obtain ⟨l, -, rfl⟩ := Option.map_eq_some_iff.mp hs
    exact h.goes (by simp [hpc]) l (by simp) (fun _ => by rw [hpc]; trivial) (by simp)
  case h_9 hpc =>
    cases hs
    refine h.sees (by simp [hpc]) ?_ (by rw [hpc]; trivial) ?_ <;> split <;> simp
  case h_10 hpc =>
    cases hs
    exact h.sees (by simp [hpc]) (by simp) (by rw [hpc]; trivial) (by simp)
  case h_11 shift hpc =>
    cases hs
    have h' := h.sees (q := .grow) (by simp [hpc]) (by simp) (by rw [hpc]; trivial) (by simp)
    exact ⟨h'.holds, h'.write, h'.loop, h'.round, h'.place⟩
  case h_12 hpc =>
    obtain ⟨l, -, rfl⟩ := Option.map_eq_some_iff.mp hs
    exact h.goes (by simp [hpc]) l (by simp) (fun _ => by rw [hpc]; trivial) (by simp)
  case h_13 hpc => cases hs; exact h.nextRound hpc
  case h_14 hpc =>
    obtain ⟨l, -, rfl⟩ := Option.map_eq_some_iff.mp hs
    exact h.goes (by simp [hpc]) l (by simp) False.elim (by simp)
  case h_15 => cases hs

/-- The handler logs an entry wherever the reader is, or none. -/
lemma Behind.interrupt (h : Behind s) (scancode : UInt8) : Behind (s.interrupt scancode) := by
  obtain ⟨hholds, hwrite, hloop, hround, b, hb, hs, hf, hlt⟩ := h
  rcases processScancode_cases s.keys scancode with ⟨shift, ctrl, hp⟩ | hp
  · simp only [State.interrupt, hp]
    exact ⟨hholds, hwrite, hloop, hround, b, hb, hs, hf, hlt⟩
  · simp only [State.interrupt, hp, if_true]
    have hlen : (s.past.logged ++ [s.keys.entry scancode]).length = s.past.logged.length + 1 := by
      rw [List.length_append, List.length_singleton]
    refine ⟨?_, ?_, hloop, hround, b, hlen ▸ Nat.le_succ_of_le hb, ?_, hf, fun h' => ?_⟩
    · simp only [hwrite]
      exact hholds.push _
    · simp only [hwrite, bump_mod, hlen]
    · simp only [List.take_append_of_le_length hb]
      exact hs
    · have := hlt h'
      simp only [hlen]
      omega

/-- A step of either keeps the invariant. -/
lemma Behind.step (h : Behind s) (hs : Step around echo capacity blinkTime s s') : Behind s' := by
  cases hs with
  | next hs => exact h.next hs
  | interrupt scancode => exact h.interrupt scancode

/-! ### Runs -/

variable (around echo capacity blinkTime) in
/-- The states of all runs, however far the keyboard is ahead. -/
abbrev Runs (s₀ s : State) : Prop :=
  Relation.ReflTransGen (Step around echo capacity blinkTime) s₀ s

lemma behind_runs (h : Behind s) (run : Runs around echo capacity blinkTime s s') : Behind s' := by
  induction run with
  | refl => exact h
  | tail _ hs ih => exact ih.step hs

/-- Where the two indices meet, only whole rounds have been left out. -/
lemma Behind.caught_up (h : Behind s) (hpc : s.pc = .wait) (hw : s.keys.read = s.keys.write) :
    Skips 256 s.past.logged s.past.handled := by
  obtain ⟨b, hb, hs, hf, -⟩ := h.place
  rw [front, hpc] at hf
  have hread : s.keys.read = b % 256 := hf
  have hn : 256 ∣ (s.past.logged.drop b).length := by
    rw [List.length_drop]
    have := h.write
    omega
  have hall := hs.skip hn
  rwa [List.take_append_drop] at hall

variable (around echo capacity blinkTime) in
/-- **What an overflow loses.** In every state of every run, whatever the keyboard does meanwhile,
the entries handled, each as the first look of its round finds it, are the log up to some entry,
with whole rounds of 256 entries in a row left out: they stay in order and none comes twice. Where
the program waits because the two indices have met, that is so of the whole log, and the number of
entries lost is a multiple of 256. -/
theorem overflow (keys : Keys) (buffer : ℕ → UInt8) (m : Machine)
    (run : Runs around echo capacity blinkTime (start keys buffer m) s) :
    (∃ seen, seen <+: s.past.logged ∧ Skips 256 seen s.past.handled) ∧
      s.past.handled.Sublist s.past.logged ∧
      (s.pc = .wait → s.keys.read = s.keys.write → Skips 256 s.past.logged s.past.handled ∧
        s.past.logged.length % 256 = s.past.handled.length % 256) := by
  have h := behind_runs (behind_start keys buffer m) run
  obtain ⟨b, -, hs, -⟩ := h.place
  have hseen := List.take_prefix b s.past.logged
  refine ⟨⟨_, hseen, hs⟩, hs.sublist.trans hseen.sublist, fun hpc hw => ?_⟩
  have hall := h.caught_up hpc hw
  exact ⟨hall, hall.length_mod⟩

/-- The keyboard is faster than the program. -/
lemma runs_interrupts (s : State) (codes : List UInt8) :
    Runs around echo capacity blinkTime s (codes.foldl State.interrupt s) := by
  induction codes generalizing s with
  | nil => exact Relation.ReflTransGen.refl
  | cons c codes ih => exact (ih (s.interrupt c)).head (.interrupt c)

/-- A round of 256 keys before the program looks is lost as a whole. -/
theorem overflow_round : ∃ s : State, s.past.logged.length = 256 ∧ s.past.handled = [] ∧
    s.keys.read = s.keys.write ∧ Skips 256 s.past.logged s.past.handled := by
  obtain ⟨-, -, h⟩ := overflow (fun _ => 0) true 10 500000 ⟨fun _ => 0, 0, 0, 0, 0, 0⟩ (fun _ => 0)
    (initTerminal 2 1 (fun _ => 0) 7 (.boot fun _ => 0)) (runs_interrupts _ (List.replicate 256 30))
  exact ⟨_, by decide +kernel, by decide +kernel, by decide +kernel,
    (h (by decide +kernel) (by decide +kernel)).1⟩

end Mono98.KeyboardOverflow
