import Mono98.Lib.Progress
import Mono98.LineBuffer
import Mono98.LineEcho

/-!
From the keyboard to the caller of `kgetline`.

The raw bytes of the keyboard arrive in the interrupt handler at any time. It keeps track of
the shift keys and logs the rest, and the drain loop makes a line of the log, later and in its
own time. What `kgetline` returns is the line of an editor that reads the raw bytes themselves.
-/

namespace Mono98.LineInput

open Mono98.Graphics Mono98.Tty Mono98.TtyRows Mono98.TtyRun Mono98.Keyboard Mono98.KeyboardRing
open Mono98.KeyboardLine Mono98.LineBuffer Mono98.Lib.Bytes Mono98.Lib.Word Mono98.Lib.Ring
open Mono98.Lib.Progress

/-! ### The reference editor -/

/-- The shift flag, and the line. -/
structure Editor where
  shift : Bool
  line : List UInt8

/-- One raw byte. Modifiers set the flag or do nothing, keys without a character do nothing,
and so do releases, none of which has one. -/
def Editor.byte (s : Editor) (b : UInt8) : Editor :=
  if b = 0x2A ∨ b = 0x36 then { s with shift := true }
  else if b = 0xAA ∨ b = 0xB6 then { s with shift := false }
  else if b = 0x1D ∨ b = 0x9D then s
  else if kbdus b = 0 then s
  else if kbdus b = 8 then { s with line := s.line.dropLast }
  else { s with line := s.line ++ [if s.shift then shiftKbdus b else kbdus b] }

/-- The editor behind the bytes `raw`, with a shift key held from the start or not. -/
def editRaw (shift : Bool) (raw : List UInt8) : Editor := raw.foldl Editor.byte ⟨shift, []⟩

@[simp] lemma editRaw_snoc (shift : Bool) (raw : List UInt8) (b : UInt8) :
    editRaw shift (raw ++ [b]) = (editRaw shift raw).byte b := by
  simp [editRaw]

/-! ### Runs with their bytes -/

variable (around : ℤ → ℕ) (echo : Bool) (capacity blinkTime : ℕ)

/-- The states of the runs from `s₀` in which the interrupts have brought the bytes `raw`, and
no more than 255 entries are ever pending. -/
inductive Fed (s₀ : State) : List UInt8 → State → Prop
  | refl : Fed s₀ [] s₀
  | next {raw s s'} (run : Fed s₀ raw s) (h : s.next around echo capacity blinkTime = some s') :
    Fed s₀ raw s'
  | interrupt {raw s} (run : Fed s₀ raw s) (scancode : UInt8)
    (bound : (s.interrupt scancode).Bounded) : Fed s₀ (raw ++ [scancode]) (s.interrupt scancode)

/-- The flags of the driver are 0 or 1. -/
structure Flags (keys : Keys) : Prop where
  shift : keys.shift = 0 ∨ keys.shift = 1
  ctrl : keys.ctrl = 0 ∨ keys.ctrl = 1

/-- Whether a shift key is held. -/
def shifted (keys : Keys) : Bool := keys.shift = 1

variable {around echo capacity blinkTime} {s s' : State} {keys : Keys} {buffer : ℕ → UInt8}
variable {m : Machine} {raw : List UInt8} {b : UInt8}

lemma fed_reaches
    (run : Fed around echo capacity blinkTime (start keys buffer m) raw s) :
    Reaches around echo capacity blinkTime (start keys buffer m) s := by
  induction run with
  | refl => exact .refl
  | next run h ih =>
    exact .step ih (.next h) ((inv_reaches (inv_start keys buffer m) ih).next h).bound
  | interrupt run scancode bound ih => exact .step ih (.interrupt scancode) bound

/-- The program does not touch what the interrupts keep. -/
lemma next_keeps (hs : s.next around echo capacity blinkTime = some s') :
    s'.keys.shift = s.keys.shift ∧ s'.keys.ctrl = s.keys.ctrl ∧
      s'.past.logged = s.past.logged := by
  unfold State.next at hs
  split at hs
  case h_1 =>
    split at hs
    · obtain ⟨m, -, rfl⟩ := Option.map_eq_some_iff.mp hs
      exact ⟨rfl, rfl, rfl⟩
    · cases hs; exact ⟨rfl, rfl, rfl⟩
  case h_2 =>
    split at hs
    · cases hs; exact ⟨rfl, rfl, rfl⟩
    · split at hs
      · obtain ⟨m, -, rfl⟩ := Option.map_eq_some_iff.mp hs
        exact ⟨rfl, rfl, rfl⟩
      · cases hs; exact ⟨rfl, rfl, rfl⟩
  case h_8 =>
    obtain ⟨l, -, rfl⟩ := Option.map_eq_some_iff.mp hs
    exact ⟨rfl, rfl, rfl⟩
  case h_12 =>
    obtain ⟨l, -, rfl⟩ := Option.map_eq_some_iff.mp hs
    exact ⟨rfl, rfl, rfl⟩
  case h_14 =>
    obtain ⟨l, -, rfl⟩ := Option.map_eq_some_iff.mp hs
    exact ⟨rfl, rfl, rfl⟩
  case h_15 => cases hs
  all_goals cases hs; exact ⟨rfl, rfl, rfl⟩

/-! ### The log -/

/-- The scancode and the modifier bits of an entry. -/
lemma entry_bits (h : Flags keys) (b : UInt8) :
    (keys.entry b).toUInt8 = b ∧ (keys.entry b &&& 0x8000 ≠ 0 ↔ keys.shift = 1) ∧
      (keys.entry b &&& 0x4000 ≠ 0 ↔ keys.ctrl = 1) := by
  obtain ⟨hshift, hctrl⟩ := h
  unfold Keys.entry
  rcases hshift with hs | hs <;> rcases hctrl with hc | hc <;> rw [hs, hc]
  all_goals
    revert b
    exact byte_forall _ (by decide +kernel)

lemma key_entry (h : Flags keys) (b : UInt8) : key (keys.entry b) = kbdus b := by
  rw [key, (entry_bits h b).1]

lemma charOf_entry (h : Flags keys) (b : UInt8) :
    charOf (keys.entry b) = if shifted keys then shiftKbdus b else kbdus b := by
  obtain ⟨hb, hs, -⟩ := entry_bits h b
  simp only [charOf, hb, hs, shifted, decide_eq_true_eq]

/-- What a byte does to the flags. -/
lemma processScancode_shift (keys : Keys) (b : UInt8) :
    (processScancode keys b).1.shift = if b = 0x2A ∨ b = 0x36 then 1
      else if b = 0xAA ∨ b = 0xB6 then 0 else keys.shift := by
  simp only [processScancode, or_comm (a := b = 0x36)]
  split_ifs <;> rfl

lemma processScancode_ctrl (keys : Keys) (b : UInt8) :
    (processScancode keys b).1.ctrl =
      if b = 0x1D then 1 else if b = 0x9D then 0 else keys.ctrl := by
  unfold processScancode
  split_ifs <;> simp_all

lemma Flags.byte (h : Flags keys) (b : UInt8) : Flags (processScancode keys b).1 := by
  constructor
  · rw [processScancode_shift]
    split_ifs
    exacts [Or.inr rfl, Or.inl rfl, h.shift]
  · rw [processScancode_ctrl]
    split_ifs
    exacts [Or.inr rfl, Or.inl rfl, h.ctrl]

/-- What a byte does to the log. -/
lemma processScancode_editor (h : Flags keys) (line : List UInt8) (b : UInt8) :
    shifted (processScancode keys b).1 = (Editor.byte ⟨shifted keys, line⟩ b).shift ∧
      (Editor.byte ⟨shifted keys, line⟩ b).line =
        if (processScancode keys b).2 then edit line (keys.entry b) else line := by
  unfold processScancode Editor.byte
  by_cases hset : b = 0x2A ∨ b = 0x36
  · rw [if_pos hset.symm, if_pos hset]
    exact ⟨rfl, rfl⟩
  rw [if_neg (fun hs => hset hs.symm), if_neg hset]
  by_cases hclear : b = 0xAA ∨ b = 0xB6
  · rw [if_pos hclear, if_pos hclear]
    exact ⟨rfl, rfl⟩
  rw [if_neg hclear, if_neg hclear]
  by_cases hdown : b = 0x1D
  · rw [if_pos hdown, if_pos (Or.inl hdown)]
    exact ⟨rfl, rfl⟩
  rw [if_neg hdown]
  by_cases hup : b = 0x9D
  · rw [if_pos hup, if_pos (Or.inr hup)]
    exact ⟨rfl, rfl⟩
  -- the byte of a key, or of a release, is logged
  rw [if_neg hup, if_neg (fun hc => hc.elim hdown hup)]
  constructor
  · split_ifs <;> rfl
  · rw [if_pos rfl, edit, key_entry h, charOf_entry h]
    by_cases h0 : kbdus b = 0
    · simp [h0]
    · rw [if_neg h0]
      by_cases h8 : kbdus b = 8
      · rw [if_pos h8, if_pos h8]
      · rw [if_neg h8, if_neg h8, if_pos h0]

/-- Enter is the only key of its character. -/
lemma kbdus_enter (b : UInt8) : kbdus b = 10 ↔ b = 0x1C :=
  byte_forall (fun b => kbdus b = 10 ↔ b = 0x1C) (by decide +kernel) b

/-- The log of a driver that has read the bytes `raw`, none of them an Enter: the line editor
makes of it the line that the reference editor makes of the bytes. -/
structure Logs (shift : Bool) (raw : List UInt8) (s : State) : Prop where
  flags : Flags s.keys
  held : shifted s.keys = (editRaw shift raw).shift
  line : editAll s.past.logged = (editRaw shift raw).line
  keys : ∀ e ∈ s.past.logged, key e ≠ 10
  lines : ∀ pre, pre <+: s.past.logged →
    ∃ pre', pre' <+: raw ∧ editAll pre = (editRaw shift pre').line

variable {shift : Bool}

/-- The next byte. -/
lemma Logs.interrupt (h : Logs shift raw s) (hb : b ≠ 0x1C) :
    Logs shift (raw ++ [b]) (s.interrupt b) := by
  have hflags := h.flags.byte b
  obtain ⟨hshift, hline⟩ := processScancode_editor h.flags (editRaw shift raw).line b
  have hbyte : editRaw shift (raw ++ [b]) =
      Editor.byte ⟨shifted s.keys, (editRaw shift raw).line⟩ b := by
    rw [editRaw_snoc, h.held]
  have hall : editAll (s.interrupt b).past.logged = (editRaw shift (raw ++ [b])).line := by
    rw [hbyte, hline, ← h.line]
    simp only [State.interrupt]
    split
    · rw [editAll_snoc]
    · rfl
  refine ⟨hflags, hshift.trans (by rw [hbyte]), hall, fun e he => ?_, fun pre hp => ?_⟩
  · simp only [State.interrupt] at he
    split at he
    · rcases List.mem_append.mp he with he | he
      · exact h.keys e he
      · rw [List.mem_singleton.mp he, key_entry h.flags]
        exact fun h10 => hb ((kbdus_enter b).mp h10)
    · exact h.keys e he
  · -- the whole log, or a log that was there before
    by_cases hwhole : pre = (s.interrupt b).past.logged
    · rw [hwhole]
      exact ⟨raw ++ [b], List.prefix_refl _, hall⟩
    · have hp' : pre <+: s.past.logged := by
        simp only [State.interrupt] at hp hwhole
        split at hp
        · rename_i hlog
          rw [if_pos hlog] at hwhole
          exact (List.prefix_concat_iff.mp hp).resolve_left hwhole
        · exact hp
      obtain ⟨pre', hpre, heq⟩ := h.lines pre hp'
      exact ⟨pre', hpre.trans (List.prefix_append _ _), heq⟩

/-- The runs before Enter. -/
lemma logs_fed (hk : Flags keys)
    (run : Fed around echo capacity blinkTime (start keys buffer m) raw s) (h : 0x1C ∉ raw) :
    Logs (shifted keys) raw s := by
  induction run with
  | refl =>
    refine ⟨⟨hk.shift, hk.ctrl⟩, rfl, rfl, fun e he => (by cases he), fun pre hp => ?_⟩
    rw [List.prefix_nil.mp hp]
    exact ⟨[], List.prefix_refl _, rfl⟩
  | next _ hs ih =>
    obtain ⟨hshift, hctrl, hlogged⟩ := next_keeps hs
    obtain ⟨⟨h1, h2⟩, h3, h4, h5, h6⟩ := ih h
    unfold shifted at h3 ⊢
    rw [← hshift] at h1 h3
    rw [← hctrl] at h2
    rw [← hlogged] at h4 h5 h6
    exact ⟨⟨h1, h2⟩, h3, h4, h5, h6⟩
  | interrupt _ scancode _ ih =>
    simp only [List.mem_append, List.mem_singleton, not_or] at h
    exact (ih h.1).interrupt (Ne.symm h.2)

/-- A log whose last entry, and no other, is an Enter. -/
structure Entered (shift : Bool) (typed : List UInt8) (es : List UInt16) (logged : List UInt16) :
    Prop where
  logged : ∃ e, logged = es ++ [e] ∧ key e = 10
  keys : ∀ e ∈ es, key e ≠ 10
  line : editAll es = (editRaw shift typed).line
  lines : ∀ pre, pre <+: es → ∃ pre', pre' <+: typed ∧ editAll pre = (editRaw shift pre').line

/-- The runs to the first Enter. -/
lemma entered_fed (hk : Flags keys) {typed : List UInt8} (h : 0x1C ∉ typed)
    (run : Fed around echo capacity blinkTime (start keys buffer m) (typed ++ [0x1C]) s) :
    ∃ es, Entered (shifted keys) typed es s.past.logged := by
  generalize hraw : typed ++ [0x1C] = raw at run
  induction run with
  | refl => simp at hraw
  | next _ hs ih =>
    rw [(next_keeps hs).2.2]
    exact ih hraw
  | @interrupt raw s run scancode _ _ =>
    obtain ⟨rfl, hb⟩ := List.append_inj' hraw rfl
    obtain rfl := (List.cons.inj hb).1
    have hl := logs_fed hk run h
    refine ⟨s.past.logged, ⟨s.keys.entry 0x1C, rfl, ?_⟩, hl.keys, hl.line, hl.lines⟩
    rw [key_entry hl.flags]
    rfl

/-! ### Return -/

/-- The terminal is sound, and small enough for the block cursor. -/
structure Draws (m : Machine) : Prop where
  sound : Sound m
  small : m.term.rows ≤ 8188 ∧ m.term.columns ≤ 8188

variable (around echo) in
lemma Draws.echoed (h : Draws m) {c : UInt8} (h0 : c ≠ 0) :
    ∃ m', echoed around echo c m = some m' ∧ Draws m' := by
  cases echo with
  | false => exact ⟨m, rfl, h⟩
  | true =>
    obtain ⟨m', hm, hs, hb⟩ := LineEcho.echoed_some around h.sound [.blink true] (Or.inl h.small) h0
    exact ⟨m', hm, hs, hb.resolve_right fun hb => hb.2 (List.mem_singleton.mpr rfl)⟩

lemma Draws.blink (h : Draws m) (shown : Bool) :
    ∃ m', blink shown m = some m' ∧ Draws m' := by
  have hb : LineEcho.Blinks m [.blink shown, .blink true] := Or.inl h.small
  obtain ⟨m', hm, hs, hb⟩ := LineEcho.blink_some h.sound hb (List.mem_cons_self)
  exact ⟨m', hm, hs, hb.resolve_right fun hb => hb.2 (by simp)⟩

variable (around) in
/-- The newline behind the line. -/
lemma Draws.finish {l : Line} (h : Draws l.machine) :
    ∃ l', l.finish around = some l' ∧ Draws l'.machine := by
  obtain ⟨⟨⟨⟨xs, hl⟩, hok⟩, -, ha⟩, hsmall⟩ := h
  have hd : Draws { l.machine with term := { l.machine.term with showCursor := false } } :=
    ⟨⟨⟨⟨xs, hl.congr rfl rfl rfl⟩, hok⟩, fun h => (by cases h), ha⟩, hsmall⟩
  obtain ⟨m', hm, hd'⟩ := hd.echoed around true (c := 10) (by decide)
  exact ⟨_, by simp only [Line.finish]; rw [show tputs around _ [10] = some m' from hm]; rfl, hd'⟩

/-- What the program has to do at a place before it is back at the test of the drain loop. -/
def rank : Pc → ℕ
  | .enter => 19
  | .erase => 18
  | .mapped => 17
  | .shifted => 16
  | .store _ => 15
  | .grow => 14
  | .rubout => 13
  | .next => 12
  | .sleep true _ => 10
  | .sleep false _ => 9
  | .wait => 8
  | .drain => 7
  | .test => 6
  | .take => 5
  | .exit => 3
  | .done => 0

/-- What it has to do before it has handled every entry. -/
def ahead (s : State) : ℕ := 20 * (s.past.logged.length - s.past.taken) + rank s.pc

/-- The indices tell whether entries are pending. -/
lemma pending_iff (h : Inv s) :
    s.keys.read ≠ s.keys.write ↔ s.past.taken < s.past.logged.length := by
  have ht := h.ring.taken
  rw [Ne, h.ring.caught_up h.bound]
  omega

variable (around echo capacity blinkTime) in
/-- Every step but the last one comes back. -/
lemma next_some (hd : Draws s.line.machine)
    (hc : s.pc = .grow → s.line.buffer s.line.len ≠ 0) (hdone : s.pc ≠ .done) :
    ∃ s', s.next around echo capacity blinkTime = some s' ∧ Draws s'.line.machine := by
  unfold State.next
  cases hpc : s.pc with
  | wait =>
    simp only
    split_ifs
    · obtain ⟨m', hm, hd'⟩ := hd.blink true
      exact ⟨_, by rw [hm]; rfl, hd'⟩
    · exact ⟨_, rfl, hd⟩
  | sleep shown i =>
    simp only
    split_ifs
    · exact ⟨_, rfl, hd⟩
    · exact ⟨_, rfl, hd⟩
    · obtain ⟨m', hm, hd'⟩ := hd.blink false
      exact ⟨_, by rw [hm]; rfl, hd'⟩
    · exact ⟨_, rfl, hd⟩
  | rubout =>
    simp only [Line.rubout]
    split_ifs
    · obtain ⟨m', hm, hd'⟩ := hd.echoed around echo (c := 8) (by decide)
      exact ⟨_, by rw [hm]; rfl, hd'⟩
    · exact ⟨_, rfl, hd⟩
  | grow =>
    obtain ⟨m', hm, hd'⟩ := hd.echoed around echo (hc hpc)
    exact ⟨_, by simp only [Line.grow, hm]; rfl, hd'⟩
  | exit =>
    obtain ⟨l', hl, hd'⟩ := hd.finish around
    exact ⟨_, by simp only [hl]; rfl, hd'⟩
  | done => exact absurd hpc hdone
  | _ => exact ⟨_, rfl, hd⟩

/-- While entries are pending, each step brings the program nearer to the end of the log. -/
lemma next_ahead (hi : Inv s)
    (hp : Pc.Between s.pc → s.pc ≠ .enter → s.past.taken < s.past.logged.length)
    (hs : s.next around echo capacity blinkTime = some s') : ahead s' < ahead s := by
  have hne : Pc.Between s.pc → s.pc ≠ .enter → s.keys.read ≠ s.keys.write :=
    fun hb hpc => (pending_iff hi).mpr (hp hb hpc)
  unfold State.next at hs
  cases hpc : s.pc with
  | wait =>
    have hne := hne (by rw [hpc]; trivial) (by simp [hpc])
    simp only [hpc, if_neg hne] at hs
    cases hs
    simp [ahead, rank, hpc]
  | sleep shown i =>
    have hne := hne (by rw [hpc]; trivial) (by simp [hpc])
    simp only [hpc] at hs
    split_ifs at hs with _ hshown
    · cases hs
      cases shown <;> simp [ahead, rank, hpc]
    · obtain ⟨m', -, rfl⟩ := Option.map_eq_some_iff.mp hs
      simp [ahead, rank, hpc, State.goes, hshown]
    · cases hs
      simp [ahead, rank, hpc, hshown]
  | test =>
    have hlt := hp (by rw [hpc]; trivial) (by simp [hpc])
    have hw : s.i ≠ s.keys.write := fun he => by
      have := (hi.caught_up (Or.inl hpc)).mp he
      omega
    simp only [hpc, if_pos hw] at hs
    cases hs
    simp [ahead, rank, hpc]
  | take =>
    have hlt := hp (by rw [hpc]; trivial) (by simp [hpc])
    simp only [hpc] at hs
    cases hs
    simp only [ahead, rank, hpc, State.takes]
    omega
  | enter =>
    simp only [hpc] at hs
    cases hs
    simp only [ahead, State.handles, State.sees, hpc]
    split <;> simp [rank]
  | erase =>
    simp only [hpc] at hs
    cases hs
    simp only [ahead, State.sees, hpc]
    split <;> simp [rank]
  | mapped =>
    simp only [hpc] at hs
    cases hs
    simp only [ahead, State.sees, hpc]
    split <;> simp [rank]
  | rubout =>
    simp only [hpc] at hs
    obtain ⟨l', -, rfl⟩ := Option.map_eq_some_iff.mp hs
    simp [ahead, rank, hpc, State.goes]
  | grow =>
    simp only [hpc] at hs
    obtain ⟨l', -, rfl⟩ := Option.map_eq_some_iff.mp hs
    simp [ahead, rank, hpc, State.goes]
  | exit =>
    simp only [hpc] at hs
    obtain ⟨l', -, rfl⟩ := Option.map_eq_some_iff.mp hs
    simp [ahead, rank, hpc, State.goes]
  | done => simp only [hpc] at hs; cases hs
  | _ =>
    simp only [hpc] at hs
    cases hs
    simp [ahead, rank, hpc, State.drains, State.sees]

/-- Between two entries an Enter at the end of the log is still to come. -/
lemma between_pending {l₀ l : Line} {events : List Event} {es : List UInt16} {e : UInt16}
    (hi : Inv s) (hf : Follows around echo capacity l₀ s events l)
    (hlog : s.past.logged = es ++ [e]) (he : key e = 10) (hb : Pc.Between s.pc)
    (hpc : s.pc ≠ .enter) : s.past.taken < s.past.logged.length := by
  rcases hf.stands with ⟨-, -, hh⟩ | ⟨e', hm, -⟩
  · refine Nat.lt_of_le_of_ne hi.ring.taken fun hall => ?_
    have hp := hi.place.handled
    rw [if_neg hpc, hall, List.take_length, hh, hlog] at hp
    exact hf.typed e (by rw [hp]; simp) he
  · cases hq : s.pc <;> rw [hq] at hb hm <;> first | exact hb.elim | exact hm.elim

/-- The character that is echoed is not a terminator. -/
lemma grow_char (run : Reaches around echo capacity blinkTime (start keys buffer m) s)
    (hpc : s.pc = .grow) : s.line.buffer s.line.len ≠ 0 := by
  obtain ⟨events, l, hf⟩ := run_follows keys buffer m run
  have hst := hf.stands
  rw [hpc] at hst
  rcases hst with ⟨hb, -⟩ | ⟨e, ⟨hl, h10, h8, hacc⟩, -⟩
  · exact hb.elim
  · rw [hl]
    simp only [Line.store, Function.update_self]
    exact (char_of_key hacc.1 h10 h8).1

lemma next_draws (run : Reaches around echo capacity blinkTime (start keys buffer m) s)
    (hd : Draws s.line.machine) (hs : s.next around echo capacity blinkTime = some s') :
    Draws s'.line.machine := by
  have hdone : s.pc ≠ .done := fun hpc => by
    unfold State.next at hs
    rw [hpc] at hs
    cases hs
  obtain ⟨s₁, h₁, hd'⟩ := next_some around echo capacity blinkTime hd (grow_char run) hdone
  obtain rfl := Option.some.inj (hs.symm.trans h₁)
  exact hd'

lemma draws_fed (hd : Draws m)
    (run : Fed around echo capacity blinkTime (start keys buffer m) raw s) :
    Draws s.line.machine := by
  induction run with
  | refl => exact hd
  | next run hs ih => exact next_draws (fed_reaches run) ih hs
  | interrupt _ _ _ ih => exact ih

/-- What is kept on the way to the Enter at the end of the log. -/
structure Returning (s₀ : State) (around : ℤ → ℕ) (echo : Bool) (capacity blinkTime : ℕ)
    (logged : List UInt16) (s : State) : Prop where
  run : Reaches around echo capacity blinkTime s₀ s
  logged : s.past.logged = logged
  draws : Draws s.line.machine

/-- A run that has an Enter at the end of its log comes back. -/
lemma Returning.returns {es : List UInt16} {e : UInt16} (he : key e = 10)
    (h : Returning (start keys buffer m) around echo capacity blinkTime (es ++ [e]) s) :
    ∃ s', Runs (fun s => s.next around echo capacity blinkTime) s s' ∧
      Returning (start keys buffer m) around echo capacity blinkTime (es ++ [e]) s' ∧
      s'.pc = .done := by
  refine Runs.of_measure _ (fun s => s.pc = .done) ahead (fun s h hdone => ?_) h
  have hi := inv_reaches (inv_start keys buffer m) h.run
  obtain ⟨events, l, hf⟩ := run_follows keys buffer m h.run
  obtain ⟨s', hs, hd⟩ := next_some around echo capacity blinkTime h.draws (grow_char h.run) hdone
  exact ⟨s', hs, ⟨.step h.run (.next hs) (hi.next hs).bound, (next_keeps hs).2.2.trans h.logged,
    hd⟩, next_ahead hi (between_pending hi hf h.logged he) hs⟩

/-- The line that comes back. -/
lemma Returning.line {es : List UInt16} {e : UInt16} (hcap : capacity ≤ 65535)
    (hkeys : ∀ e ∈ es, key e ≠ 10)
    (hroom : ∀ pre, pre <+: es → (editAll pre).length ≤ capacity)
    (h : Returning (start keys buffer m) around echo capacity blinkTime (es ++ [e]) s)
    (hdone : s.pc = .done) : s.line.len = (editAll es).length ∧
      Stands s.line.buffer 0 (editAll es) ∧ s.line.buffer (editAll es).length = 0 := by
  obtain ⟨events, e', l, hh, -, he', hrun, hfin⟩ := done_line keys buffer m h.run hdone
  -- the entries before the first Enter
  have hes : entries events = es := by
    have hp : entries events ++ [e'] <+: es ++ [e] := by
      rw [← hh, ← h.logged]
      exact (inv_reaches (inv_start keys buffer m) h.run).handled_le
    rcases List.prefix_concat_iff.mp hp with heq | hp
    · exact (List.append_inj' heq rfl).1
    · exact absurd he' (hkeys e' (hp.subset (by simp)))
  subst hes
  obtain ⟨hlen, hst⟩ := holds_run (holds_empty buffer m) hcap hroom hrun
  obtain ⟨m', -, hl⟩ := Option.map_eq_some_iff.mp hfin
  rw [← hl, ← hlen]
  refine ⟨rfl, fun k hk => ?_, Function.update_self _ _ _⟩
  rw [← hst k hk]
  exact Function.update_of_ne (by omega) _ _

variable (around echo blinkTime) in
/-- **What is typed is what comes back.** The interrupts have brought the bytes `typed` and the
first Enter, at whatever moments, and the line has always had room in the buffer. Then the
program comes back, from wherever it stands, and the buffer holds the line of the reference
editor and a terminator. -/
theorem kgetline_line (hk : Flags keys) (buffer : ℕ → UInt8) (hm : Sound m)
    (hsmall : m.term.rows ≤ 8188 ∧ m.term.columns ≤ 8188)
    (hcap : 1 ≤ capacity ∧ capacity ≤ 65535) {typed : List UInt8} (henter : 0x1C ∉ typed)
    (hroom : ∀ pre, pre <+: typed → (editRaw (shifted keys) pre).line.length ≤ capacity - 1)
    (run : Fed around echo capacity blinkTime (start keys buffer m) (typed ++ [0x1C]) s) :
    ∃ s', Runs (fun s => s.next around echo capacity blinkTime) s s' ∧ s'.pc = .done ∧
      s'.line.len = (editRaw (shifted keys) typed).line.length ∧
      Stands s'.line.buffer 0 (editRaw (shifted keys) typed).line ∧
      s'.line.buffer (editRaw (shifted keys) typed).line.length = 0 := by
  obtain ⟨es, ⟨e, hlog, he⟩, hkeys, hline, hlines⟩ := entered_fed hk henter run
  have hd := draws_fed ⟨hm, hsmall⟩ run
  obtain ⟨s', hruns, hr, hdone⟩ := Returning.returns he ⟨fed_reaches run, hlog, hd⟩
  have hfit : ∀ pre, pre <+: es → (editAll pre).length ≤ capacity := fun pre hp => by
    obtain ⟨pre', hpre, heq⟩ := hlines pre hp
    have := hroom pre' hpre
    rw [heq]
    omega
  rw [← hline]
  exact ⟨s', hruns, hdone, hr.line hcap.2 hkeys hfit hdone⟩

/-- An `A` and Enter, both before the program has taken a step. -/
theorem kgetline_line_one :
    ∃ s : State, s.pc = .done ∧ s.line.len = 1 ∧ Stands s.line.buffer 0 [65] := by
  obtain ⟨hm, -⟩ := initTerminal_sound (show 2 ≤ 2 ∧ 2 < 65536 by omega)
    (show 1 ≤ 2 ∧ 2 < 65536 by omega) (fun _ => 0) 7 (areaOk_boot fun _ => 0)
  obtain ⟨s, -, hdone, hlen, hst, -⟩ := kgetline_line (fun _ => 0) true 500000
    (show Flags ⟨fun _ => 7, 1, 3, 4, 0, 0⟩ from ⟨Or.inl rfl, Or.inl rfl⟩) (fun _ => 0) hm
    (show 2 ≤ 8188 ∧ 2 ≤ 8188 by omega) (show 1 ≤ 2 ∧ 2 ≤ 65535 by omega)
    (show (0x1C : UInt8) ∉ [0x1E] by decide)
    (fun pre hp => by
      have hsingle : [0x1E] = [] ++ [(0x1E : UInt8)] := rfl
      rw [hsingle, List.prefix_concat_iff] at hp
      rcases hp with rfl | hp
      · decide
      · rw [List.prefix_nil.mp hp]
        decide)
    ((Fed.refl.interrupt 0x1E (Nat.le_add_left _ _)).interrupt 0x1C (Nat.le_add_left 2 _))
  exact ⟨s, hdone, hlen, hst⟩

end Mono98.LineInput
