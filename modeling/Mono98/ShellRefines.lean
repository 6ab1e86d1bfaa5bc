import Mono98.Lib.Simulation
import Mono98.LineBuffer
import Mono98.LineInput
import Mono98.ShellAnswer

/-!
The shell refines the console.

Every step of the shell, of a program or of the keyboard, in whatever order they come, is a few
steps of the console, or none. The screen is at all times the picture of the page, and a program
always finds the heap as the first one did.
-/

namespace Mono98.ShellRefines

open Mono98.Graphics Mono98.Tty Mono98.TtyRun Mono98.TextPage Mono98.Strings Mono98.Keyboard
open Mono98.KeyboardLine Mono98.LineBuffer Mono98.LineInput Mono98.Process Mono98.Romdisk
open Mono98.RomdiskLookup Mono98.Command Mono98.CommandRun Mono98.Syscall Mono98.Tokens Mono98.Shell
open Mono98.Console Mono98.ScreenPage Mono98.ShellAnswer Mono98.Repaint Mono98.Lib.Bytes
open Mono98.Lib.Word Mono98.Lib.Simulation

/-- `kgetline` has the line of the console in the buffer. -/
structure Pends (around : ℤ → ℕ) (blinkTime : ℕ) (s : KeyboardRing.State) (line : List UInt8) :
    Prop where
  run : ∃ keys buffer m, KeyboardRing.Reaches around true commandSize blinkTime
    (KeyboardRing.start keys buffer m) s
  holds : Holds s.line line
  typeable : ∀ c ∈ line, Typeable c
  room : pending s < commandSize
  last : s.line.buffer maxLine = 0
  ended : s.pc = .done → s.line.buffer line.length = 0

/-- The shell is where the console is. -/
inductive Matches (around : ℤ → ℕ) (blinkTime : ℕ) (t₀ : Terminal) : State → Session → Prop
  | prompt {keys k p} (h : Presents t₀ k.machine p) (heap : k.mallocStart = defaultMallocLocation) :
    Matches around blinkTime t₀ (.prompt keys k) ⟨p, .prompt⟩
  | typing {s k p line} (h : Presents t₀ s.line.machine p)
    (heap : k.mallocStart = defaultMallocLocation) (hs : Pends around blinkTime s line)
    (hpc : s.pc ≠ .done) : Matches around blinkTime t₀ (.typing s k) ⟨p, .typing line⟩
  | done {s k p line} (h : Presents t₀ s.line.machine p)
    (heap : k.mallocStart = defaultMallocLocation) (hs : Pends around blinkTime s line)
    (hpc : s.pc = .done) : Matches around blinkTime t₀ (.typing s k) ⟨p, .entered line⟩
  | entered {keys command k p line} (h : Presents t₀ k.machine p)
    (heap : k.mallocStart = defaultMallocLocation) (hs : IsString command 0 line)
    (hlen : line.length ≤ maxLine) (hz : line = [] → ∃ n, strlen command = some n)
    (proper : Proper line) :
    Matches around blinkTime t₀ (.entered keys command k) ⟨p, .entered line⟩
  | running {keys entry k resume p f args} (h : Presents t₀ k.machine p)
    (hl : Loaded f args entry k resume) :
    Matches around blinkTime t₀ (.running keys entry k resume) ⟨p, .running f args k.mallocStart⟩

variable {fs : List UInt8 → Option (List UInt8)} {files : List PackedFile}
variable {around : ℤ → ℕ} {blinkTime : ℕ} {romdisk : ℕ → UInt8} {t₀ : Terminal} {p : Page}
variable {s s' : KeyboardRing.State} {k k' : Kernel} {line : List UInt8} {m : Machine}

/-- The screen of a state that matches. -/
lemma Matches.presents {c : Session} {s : State} (h : Matches around blinkTime t₀ s c) :
    Presents t₀ s.machine c.page := by
  cases h with
  | prompt h => exact h
  | typing h => exact h
  | done h => exact h
  | entered h => exact h
  | running h => exact h

/-- The program of a state that matches. -/
lemma Matches.loaded {c : Session} {keys : Keys} {entry : Entry} {resume : Kernel → Option Kernel}
    (h : Matches around blinkTime t₀ (.running keys entry k resume) c) :
    ∃ f args, c.mode = .running f args k.mallocStart ∧ Loaded f args entry k resume := by
  cases h with
  | running _ hl => exact ⟨_, _, rfl, hl⟩

/-! ### Reading a line -/

variable (around) in
/-- The echo of a character. -/
lemma presents_echoed (h : Presents t₀ m p) {c : UInt8} (h0 : c ≠ 0) :
    ∃ m', echoed around true c m = some m' ∧
      Presents t₀ m' (TextPage.puts (fontAt around) p [c]) :=
  presents_act around (a := .puts [c]) h ⟨by simp, by simpa using h0⟩

lemma presents_blink (h : Presents t₀ m p) (shown : Bool) :
    ∃ m', blink shown m = some m' ∧ Presents t₀ m' p :=
  presents_act (fun _ => 0) (a := .blink shown) h trivial

/-- The next state is on the same run. -/
lemma Pends.next (h : Pends around blinkTime s line)
    (hs : s.next around true commandSize blinkTime = some s') :
    ∃ keys buffer m, KeyboardRing.Reaches around true commandSize blinkTime
      (KeyboardRing.start keys buffer m) s' := by
  obtain ⟨keys, buffer, m, run⟩ := h.run
  have hi := KeyboardRing.inv_reaches (KeyboardRing.inv_start keys buffer m) run
  exact ⟨keys, buffer, m, .step run (.next hs) (hi.next hs).bound⟩

/-- An interrupt only logs. -/
lemma Pends.interrupt (h : Pends around blinkTime s line) {scancode : UInt8}
    (bound : (s.interrupt scancode).Bounded) :
    Pends around blinkTime (s.interrupt scancode) line := by
  obtain ⟨keys, buffer, m, run⟩ := h.run
  exact ⟨⟨keys, buffer, m, .step run (.interrupt scancode) bound⟩, h.holds, h.typeable, h.room,
    h.last, h.ended⟩

/-- The character that is being stored can be typed. -/
lemma typeable_grow
    (h : ∃ keys buffer m, KeyboardRing.Reaches around true commandSize blinkTime
      (KeyboardRing.start keys buffer m) s) (hpc : s.pc = .grow) :
    Typeable (s.line.buffer s.line.len) := by
  obtain ⟨keys, buffer, m, run⟩ := h
  obtain ⟨events, l, hf⟩ := run_follows keys buffer m run
  have hst := hf.stands
  rw [hpc] at hst
  rcases hst with ⟨hb, -⟩ | ⟨e, ⟨hl, h10, h8, hacc⟩, -⟩
  · exact hb.elim
  · rw [hl]
    simp only [Line.store, Function.update_self]
    exact char_of_key hacc.1 h10 h8

/-- The console goes on to where the shell is. -/
def Matched (around : ℤ → ℕ) (blinkTime : ℕ) (t₀ : Terminal) (files : List PackedFile)
    (c : Session) (s : State) : Prop :=
  ∃ c', Console.Reaches files (fontAt around) c c' ∧ Matches around blinkTime t₀ s c'

lemma matched_refl {c : Session} {s : State} (h : Matches around blinkTime t₀ s c) :
    Matched around blinkTime t₀ files c s := ⟨c, .refl, h⟩

lemma matched_single {c c' : Session} {s : State} (hs : Console.Step files (fontAt around) c c')
    (h : Matches around blinkTime t₀ s c') : Matched around blinkTime t₀ files c s :=
  ⟨c', .single hs, h⟩

/-- A step that leaves the buffer and its line alone. -/
lemma matched_same (h : Pends around blinkTime s line)
    (heap : k.mallocStart = defaultMallocLocation)
    (hs : s.next around true commandSize blinkTime = some s') (room : pending s' < commandSize)
    (hpc : s'.pc ≠ .done) (hlen : s'.line.len = s.line.len)
    (hbuf : s'.line.buffer = s.line.buffer) (hp : Presents t₀ s'.line.machine p) :
    Matched around blinkTime t₀ files ⟨p, .typing line⟩ (.typing s' k) := by
  refine matched_refl
    (.typing hp heap ⟨h.next hs, ⟨?_, ?_⟩, h.typeable, room, ?_, fun hd => ?_⟩ hpc)
  · rw [hlen]
    exact h.holds.len
  · rw [hbuf]
    exact h.holds.stands
  · rw [hbuf]
    exact h.last
  · exact absurd hd hpc

/-- The branch of a backspace. -/
lemma matched_rubout (h : Pends around blinkTime s line)
    (heap : k.mallocStart = defaultMallocLocation) (hpr : Presents t₀ s.line.machine p)
    (hpc : s.pc = .rubout) (hs : s.next around true commandSize blinkTime = some s')
    (room : pending s' < commandSize) :
    Matched around blinkTime t₀ files ⟨p, .typing line⟩ (.typing s' k) := by
  have hnext := hs
  simp only [KeyboardRing.State.next, hpc] at hs
  obtain ⟨l', hl, rfl⟩ := Option.map_eq_some_iff.mp hs
  unfold Line.rubout at hl
  split_ifs at hl with h0
  · obtain ⟨m', hm, rfl⟩ := Option.map_eq_some_iff.mp hl
    obtain ⟨m₁, h₁, hp⟩ := presents_echoed around hpr (c := 8) (by decide)
    obtain rfl := Option.some.inj (hm.symm.trans h₁)
    have hne : line ≠ [] := fun he => h0 (by rw [h.holds.len, he]; rfl)
    have hlen : dec 16 s.line.len = line.dropLast.length := by
      rw [dec_of_pos (by omega), h.holds.len, List.length_dropLast]
    refine matched_single (.rubout hne) (.typing hp heap ⟨h.next hnext, ⟨hlen, fun i hi => ?_⟩,
      fun c hc => h.typeable c (List.mem_of_mem_dropLast hc), room, h.last, fun hd => ?_⟩ ?_)
    · rw [List.getElem_dropLast]
      exact h.holds.stands i (by rw [List.length_dropLast] at hi; omega)
    · cases hd
    · exact fun hd => by cases hd
  · cases hl
    exact matched_same h heap hnext room (fun hd => by cases hd) rfl rfl hpr

/-- The character goes behind the line, where there is room for it. -/
lemma matched_store (h : Pends around blinkTime s line)
    (heap : k.mallocStart = defaultMallocLocation) (hpr : Presents t₀ s.line.machine p)
    {shift : Bool} (hpc : s.pc = .store shift)
    (hs : s.next around true commandSize blinkTime = some s') (room : pending s' < commandSize) :
    Matched around blinkTime t₀ files ⟨p, .typing line⟩ (.typing s' k) := by
  have hnext := hs
  simp only [KeyboardRing.State.next, hpc] at hs
  cases hs
  have hlt : s.line.len + 1 < 256 := room
  refine matched_refl (.typing hpr heap ⟨h.next hnext, ⟨h.holds.len, fun i hi => ?_⟩, h.typeable,
    room, ?_, fun hd => ?_⟩ ?_)
  · rw [← h.holds.stands i hi]
    exact Function.update_of_ne (by have := h.holds.len; omega) _ _
  · rw [← h.last]
    exact Function.update_of_ne (show maxLine ≠ s.line.len by unfold maxLine; omega) _ _
  · cases hd
  · exact fun hd => by cases hd

/-- The character is echoed, and the line has grown. -/
lemma matched_grow (h : Pends around blinkTime s line)
    (heap : k.mallocStart = defaultMallocLocation) (hpr : Presents t₀ s.line.machine p)
    (hpc : s.pc = .grow) (hs : s.next around true commandSize blinkTime = some s')
    (room : pending s' < commandSize) :
    Matched around blinkTime t₀ files ⟨p, .typing line⟩ (.typing s' k) := by
  have hnext := hs
  have hc := typeable_grow h.run hpc
  have hlt : s.line.len + 1 < 256 := by simpa [pending, commandSize, hpc] using h.room
  simp only [KeyboardRing.State.next, hpc] at hs
  obtain ⟨l', hl, rfl⟩ := Option.map_eq_some_iff.mp hs
  obtain ⟨m', hm, rfl⟩ := Option.map_eq_some_iff.mp hl
  obtain ⟨m₁, h₁, hp⟩ := presents_echoed around hpr hc.1
  obtain rfl := Option.some.inj (hm.symm.trans h₁)
  have hlen := h.holds.len
  refine matched_single (.char hc (by unfold maxLine; omega))
    (.typing hp heap ⟨h.next hnext, ⟨?_, ?_⟩, fun c hmem => ?_, room, h.last, fun hd => ?_⟩ ?_)
  · rw [List.length_append, List.length_singleton, ← hlen]
    exact inc_of_lt (by omega)
  · refine stands_append.mpr ⟨h.holds.stands, fun i hi => ?_⟩
    obtain rfl : i = 0 := by simpa using hi
    rw [Nat.zero_add, Nat.add_zero, ← hlen]
    rfl
  · rcases List.mem_append.mp hmem with hmem | hmem
    · exact h.typeable c hmem
    · rwa [List.mem_singleton.mp hmem]
  · cases hd
  · exact fun hd => by cases hd

/-- Enter ends the line. -/
lemma matched_exit (h : Pends around blinkTime s line)
    (heap : k.mallocStart = defaultMallocLocation) (hpr : Presents t₀ s.line.machine p)
    (hpc : s.pc = .exit) (hs : s.next around true commandSize blinkTime = some s')
    (room : pending s' < commandSize) :
    Matched around blinkTime t₀ files ⟨p, .typing line⟩ (.typing s' k) := by
  have hnext := hs
  have hlt : s.line.len < 256 := by simpa [pending, commandSize, hpc] using h.room
  simp only [KeyboardRing.State.next, hpc] at hs
  obtain ⟨l', hl, rfl⟩ := Option.map_eq_some_iff.mp hs
  obtain ⟨m', hm, rfl⟩ := Option.map_eq_some_iff.mp hl
  obtain ⟨m₁, h₁, hp⟩ := presents_act around (a := .echo false [10]) hpr
    (by simp [Action.Text, IsText])
  obtain rfl : m' = m₁ := Option.some.inj (hm.symm.trans h₁)
  have hlen := h.holds.len
  refine matched_single .enter (.done hp heap ⟨h.next hnext, ⟨hlen, fun i hi => ?_⟩, h.typeable,
    room, ?_, fun _ => ?_⟩ rfl)
  · rw [← h.holds.stands i hi]
    exact Function.update_of_ne (by omega) _ _
  · by_cases he : maxLine = s.line.len
    · rw [he]
      exact Function.update_self _ _ _
    · rw [← h.last]
      exact Function.update_of_ne he _ _
  · rw [← hlen]
    exact Function.update_self _ _ _

/-- The cursor blinks. -/
lemma matched_blink (h : Pends around blinkTime s line)
    (heap : k.mallocStart = defaultMallocLocation) (hpr : Presents t₀ s.line.machine p)
    (shown : Bool) {pc : KeyboardRing.Pc} (hpc : pc ≠ .done)
    (hs : s.next around true commandSize blinkTime =
      (blink shown s.line.machine).map fun m => s.goes pc { s.line with machine := m })
    (hs' : s.next around true commandSize blinkTime = some s') (room : pending s' < commandSize) :
    Matched around blinkTime t₀ files ⟨p, .typing line⟩ (.typing s' k) := by
  obtain ⟨m, hm, hp⟩ := presents_blink hpr shown
  have hnext := hs'
  rw [hs, hm, Option.map_some] at hs'
  cases hs'
  exact matched_same h heap hnext room hpc rfl rfl hp

/-- **A step of `kgetline`** is a step of the console, or none. -/
lemma matched_type (h : Pends around blinkTime s line)
    (heap : k.mallocStart = defaultMallocLocation) (hpr : Presents t₀ s.line.machine p)
    (hs : s.next around true commandSize blinkTime = some s') (room : pending s' < commandSize) :
    Matched around blinkTime t₀ files ⟨p, .typing line⟩ (.typing s' k) := by
  have hnext := hs
  -- the line stays, and the program goes on somewhere else
  have stays : s'.line = s.line → s'.pc ≠ .done →
      Matched around blinkTime t₀ files ⟨p, .typing line⟩ (.typing s' k) := fun hl hpc =>
    matched_same h heap hnext room hpc (by rw [hl]) (by rw [hl]) (by rw [hl]; exact hpr)
  cases hpc : s.pc with
  | wait =>
    by_cases hempty : s.keys.read = s.keys.write
    · refine matched_blink h heap hpr true
        (show KeyboardRing.Pc.sleep true 0 ≠ .done by simp) ?_ hnext room
      simp only [KeyboardRing.State.next, hpc, if_pos hempty]
    · simp only [KeyboardRing.State.next, hpc, if_neg hempty] at hs
      cases hs
      exact stays rfl (by simp)
  | sleep shown i =>
    by_cases hlt : i < blinkTime
    · simp only [KeyboardRing.State.next, hpc, if_pos hlt] at hs
      cases hs
      refine stays rfl ?_
      simp only
      split_ifs <;> simp
    · cases shown with
      | true =>
        refine matched_blink h heap hpr false
          (show KeyboardRing.Pc.sleep false 0 ≠ .done by simp) ?_ hnext room
        simp only [KeyboardRing.State.next, hpc, if_neg hlt, if_true]
      | false =>
        simp only [KeyboardRing.State.next, hpc, if_neg hlt, if_false, Bool.false_eq_true] at hs
        cases hs
        exact stays rfl (by simp)
  | rubout => exact matched_rubout h heap hpr hpc hnext room
  | store shift => exact matched_store h heap hpr hpc hnext room
  | grow => exact matched_grow h heap hpr hpc hnext room
  | exit => exact matched_exit h heap hpr hpc hnext room
  | done => simp only [KeyboardRing.State.next, hpc] at hs; cases hs
  | test =>
    simp only [KeyboardRing.State.next, hpc] at hs
    cases hs
    refine stays rfl ?_
    simp only
    split_ifs <;> simp
  | enter =>
    simp only [KeyboardRing.State.next, hpc] at hs
    cases hs
    refine stays rfl ?_
    simp only [KeyboardRing.State.handles, KeyboardRing.State.sees]
    split_ifs <;> simp
  | erase =>
    simp only [KeyboardRing.State.next, hpc] at hs
    cases hs
    refine stays rfl ?_
    simp only [KeyboardRing.State.sees]
    split_ifs <;> simp
  | mapped =>
    simp only [KeyboardRing.State.next, hpc] at hs
    cases hs
    refine stays rfl ?_
    simp only [KeyboardRing.State.sees]
    split_ifs <;> simp
  | _ =>
    simp only [KeyboardRing.State.next, hpc] at hs
    cases hs
    exact stays rfl (by simp [KeyboardRing.State.drains, KeyboardRing.State.takes,
      KeyboardRing.State.sees])

/-! ### Between two lines -/

lemma strlenLoop_some {ptr : ℕ → UInt8} {j : ℕ} (h0 : ptr j = 0) (hj : j < 2 ^ 32) (n result : ℕ)
    (hr : result < j) (hn : j ≤ n + result) : ∃ len, strlenLoop ptr n result = some len := by
  induction n generalizing result with
  | zero => omega
  | succ n ih =>
    rw [strlenLoop, inc_of_lt (by omega)]
    split_ifs with h
    · exact ⟨_, rfl⟩
    · have hne : result + 1 ≠ j := fun he => h (he ▸ h0)
      exact ih (result + 1) (by omega) (by omega)

/-- The scan of an empty line ends within the buffer. -/
lemma Pends.strlen (h : Pends around blinkTime s line) : ∃ n, strlen s.line.buffer = some n :=
  strlenLoop_some h.last (by decide) _ 0 (by decide) (by decide)

lemma Pends.isString (h : Pends around blinkTime s line) (hpc : s.pc = .done) :
    IsString s.line.buffer 0 line ∧ line.length ≤ maxLine := by
  have hroom := h.room
  rw [pending, if_neg (by simp [hpc]), h.holds.len] at hroom
  refine ⟨⟨h.holds.stands, fun c hc => (h.typeable c hc).1, ?_⟩, Nat.le_of_lt_succ hroom⟩
  rw [Nat.zero_add]
  exact h.ended hpc

/-- A prompt is printed, and an empty line begun. -/
lemma matched_ask {keys : Keys} {command : ℕ → UInt8}
    (hpr : Presents t₀ k.machine p) (heap : k.mallocStart = defaultMallocLocation)
    (h : kputc around k 62 = some k') :
    Matched around blinkTime t₀ files ⟨p, .prompt⟩
      (.typing (KeyboardRing.start keys (memset command 0 commandSize) k'.machine) k') := by
  obtain ⟨k₁, h₁, hp, hr⟩ := printed_kputs around hpr (show IsText [62] by simp [IsText])
  obtain rfl : k' = k₁ := Option.some.inj (h.symm.trans h₁)
  refine matched_single .ask (.typing hp (by rw [hr, heap]) ⟨⟨_, _, _, .refl⟩, ⟨rfl, ?_⟩, by simp,
    ?_, ?_, fun hd => by cases hd⟩ (by simp [KeyboardRing.start]))
  · exact stands_nil _ _
  · simp [pending, KeyboardRing.start, commandSize]
  · simp only [KeyboardRing.start]
    rw [memset_apply, if_pos (by decide)]

/-- Where the shell is when `handle_command` has come back, or has entered a program. -/
def behind (keys : Keys) : Outcome → State
  | .back k => .prompt keys k
  | .enters entry k resume => .running keys entry k resume

/-- The line is handled as the console answers it. -/
lemma matches_answer (hd : Bootable fs files romdisk) (keys : Keys) {command filesize : ℕ → UInt8}
    (hpr : Presents t₀ k.machine p) (heap : k.mallocStart = defaultMallocLocation)
    (hs : IsString command 0 line) (hlen : line.length ≤ maxLine)
    (hz : line = [] → ∃ n, strlen command = some n) (proper : Proper line) :
    ∃ o, handleCommand around romdisk filesize command k = some o ∧
      Matches around blinkTime t₀ (behind keys o) (answer files (fontAt around) p line) := by
  have hans := handleCommand_answered around hd hpr hs hlen hz proper filesize
  rw [Answered] at hans
  unfold answer
  cases hr : reply files line with
  | prints text =>
    rw [hr] at hans
    obtain ⟨k', ho, hp, -, -, hm⟩ := hans.back
    exact ⟨_, ho, .prompt hp (hm.trans heap)⟩
  | clears =>
    rw [hr] at hans
    obtain ⟨k', ho, hp, -, -, hm⟩ := hans.back
    exact ⟨_, ho, .prompt hp (hm.trans heap)⟩
  | launches f =>
    rw [hr] at hans
    obtain ⟨entry, k', resume, ho, hl, -, hmach, hm⟩ := hans
    have hp : Presents t₀ k'.machine p := by rw [hmach]; exact hpr
    have hrun : Matches around blinkTime t₀ (.running keys entry k' resume)
        ⟨p, .running f (arguments line) k'.mallocStart⟩ := .running hp hl
    rw [hm, heap] at hrun
    exact ⟨_, ho, hrun⟩

lemma matched_answer (hd : Bootable fs files romdisk) (keys : Keys) {command filesize : ℕ → UInt8}
    (hpr : Presents t₀ k.machine p) (heap : k.mallocStart = defaultMallocLocation)
    (hs : IsString command 0 line) (hlen : line.length ≤ maxLine)
    (hz : line = [] → ∃ n, strlen command = some n) (proper : Proper line) {o : Outcome}
    (h : handleCommand around romdisk filesize command k = some o) :
    Matched around blinkTime t₀ files ⟨p, .entered line⟩ (behind keys o) := by
  obtain ⟨o', ho, hm⟩ := matches_answer hd keys hpr heap hs hlen hz proper
  obtain rfl := Option.some.inj (h.symm.trans ho)
  exact matched_single .answer hm

/-- A reset of an empty buffer. -/
lemma advanceText_noInput {t : Terminal} (h : NoInput t) : advanceText t 0 = t := by
  obtain ⟨hb, hl, ho⟩ := h
  have hfill : memset t.textBuffer 0 256 = t.textBuffer := by
    funext i
    rw [memset_apply]
    split_ifs with hi
    · exact (hb i hi).symm
    · rfl
  have h0 : (t.textOffset + 0) % 2 ^ 8 = t.textOffset := by rw [ho]; rfl
  simp only [advanceText, h0, hfill]
  rw [if_pos (by rw [ho, hl]), ← hl]
  cases t
  simp only at ho hl
  simp only [ho, hl]

/-- A read finds the text buffer empty, and leaves it so. -/
lemma sysRead_machine (h : Presents t₀ k.machine p) (fd : UInt8) (buf : ℕ → UInt8) (len : ℕ) :
    (sysRead k fd buf len).kernel.machine = k.machine := by
  unfold sysRead
  split_ifs
  · have hsafe : safeLen k.term len = 0 := by
      simp only [safeLen, Kernel.term, h.input.buflen, h.input.offset]
      rfl
    have hadv : advanceText k.term (safeLen k.term len) = k.machine.term := by
      rw [hsafe]
      exact advanceText_noInput h.input
    show (⟨advanceText k.term (safeLen k.term len), k.machine.video⟩ : Machine) = k.machine
    rw [hadv]
  · rfl

/-- A system call of a program prints, takes memory, or does nothing that can be seen. -/
lemma matched_call {keys : Keys} {entry : Entry} {resume : Kernel → Option Kernel} {f : PackedFile}
    {args : List (List UInt8)} {c : Call} {a : Answer} (hpr : Presents t₀ k.machine p)
    (hl : Loaded f args entry k resume) (prints : c.Prints) (h : syscall around k c = some a) :
    Matched around blinkTime t₀ files ⟨p, .running f args k.mallocStart⟩
      (.running keys entry a.kernel resume) := by
  have loaded : ∀ {k' : Kernel}, k'.program = k.program → Loaded f args entry k' resume :=
    fun hk => ⟨hl.address, hl.argc, hl.argv, by rw [hk]; exact hl.contents, hl.resume⟩
  rcases syscall_cases h with
    ⟨⟨hc, hfd⟩, m, hm, rfl⟩ | ⟨-, rfl⟩ | ⟨-, rfl⟩ | ⟨-, rfl⟩ | ⟨-, rfl⟩
  · obtain ⟨str, hstr, hlen⟩ := prints hc hfd
    rw [textAt_eq hstr (by omega)] at hm
    obtain ⟨m₁, h₁, hp⟩ := presents_act around (a := .puts str) hpr
      ⟨hlen, hstr.nonzero⟩
    obtain rfl : m = m₁ := Option.some.inj (hm.symm.trans h₁)
    exact matched_single (.write str) (.running hp (loaded rfl))
  · have hm := sysRead_machine hpr c.fd c.buf c.arg3.toNat
    have hp : Presents t₀ (sysRead k c.fd c.buf c.arg3.toNat).kernel.machine p := by
      rw [hm]
      exact hpr
    have hk : (sysRead k c.fd c.buf c.arg3.toNat).kernel.program = k.program ∧
        (sysRead k c.fd c.buf c.arg3.toNat).kernel.mallocStart = k.mallocStart := by
      unfold sysRead
      split_ifs <;> exact ⟨rfl, rfl⟩
    rw [← hk.2]
    exact matched_refl (.running hp (loaded hk.1))
  · exact matched_single (.malloc c.arg1.toNat) (.running hpr (loaded rfl))
  · exact matched_refl (.running hpr hl)
  · exact matched_refl (.running hpr (loaded rfl))

/-- **Every step** of the shell is matched by the console. -/
theorem simulates (hd : Bootable fs files romdisk) (t₀ : Terminal) :
    Simulates (Shell.Step around blinkTime romdisk) (Console.Step files (fontAt around))
      (Matches around blinkTime t₀) := by
  intro s s' c hm hs
  cases hs with
  | next hs =>
    cases hs with
    | ask command h =>
      obtain ⟨hpr, heap⟩ := hm
      exact matched_ask hpr heap h
    | type h room =>
      cases hm with
      | typing hpr heap hp hpc => exact matched_type hp heap hpr h room
      | done hpr heap hp hpc => simp only [KeyboardRing.State.next, hpc] at h; cases h
    | enter hpc hs proper =>
      cases hm with
      | typing hpr heap hp hne => exact absurd hpc hne
      | done hpr heap hp _ =>
        obtain ⟨hstr, hlen⟩ := hp.isString hpc
        obtain rfl := hs.unique hstr
        exact matched_refl (.entered hpr heap hstr hlen (fun _ => hp.strlen) proper)
    | back filesize h =>
      cases hm with
      | entered hpr heap hs hlen hz proper => exact matched_answer hd _ hpr heap hs hlen hz proper h
    | launch filesize h =>
      cases hm with
      | entered hpr heap hs hlen hz proper => exact matched_answer hd _ hpr heap hs hlen hz proper h
    | call c prints h =>
      cases hm with
      | running hpr hl => exact matched_call hpr hl prints h
    | exit h =>
      cases hm with
      | running hpr hl =>
        rw [hl.resume] at h
        cases h
        exact matched_single .exit (.prompt hpr rfl)
  | interrupt scancode bound =>
    cases hm with
    | prompt hpr heap => exact matched_refl (.prompt hpr heap)
    | typing hpr heap hp hpc => exact matched_refl (.typing hpr heap (hp.interrupt bound) hpc)
    | done hpr heap hp hpc => exact matched_refl (.done hpr heap (hp.interrupt bound) hpc)
    | entered hpr heap hs hlen hz proper => exact matched_refl (.entered hpr heap hs hlen hz proper)
    | running hpr hl => exact matched_refl (.running hpr hl)

end Mono98.ShellRefines
