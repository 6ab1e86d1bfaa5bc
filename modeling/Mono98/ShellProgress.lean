import Mono98.ShellPrograms

/-!
The shell never gets stuck.

Wherever a run has come to, the next thing that the shell does comes back: no null pointer is
followed, no loop goes on for ever. Keys that are pending are always dealt with.
-/

namespace Mono98.ShellProgress

open Mono98.Graphics Mono98.Tty Mono98.TtyRun Mono98.TextPage Mono98.Strings Mono98.Keyboard
open Mono98.KeyboardRing Mono98.KeyboardLine Mono98.LineInput Mono98.Process
open Mono98.RomdiskLookup Mono98.Command Mono98.CommandRun Mono98.Syscall Mono98.Shell
open Mono98.Console Mono98.ScreenPage Mono98.ShellAnswer Mono98.ShellRefines Mono98.ShellRun
open Mono98.ShellInput Mono98.ShellPrograms
open Mono98.Lib.Bytes Mono98.Lib.Progress

/-- What the shell does next comes back. Behind the last step of `kgetline` there is a line. -/
def CanGo (around : ℤ → ℕ) (blinkTime : ℕ) (romdisk : ℕ → UInt8) : Shell.State → Prop
  | .prompt _ k => ∃ k', kputc around k 62 = some k'
  | .typing s _ =>
    (∃ s', s.next around true commandSize blinkTime = some s') ∨
      s.pc = .done ∧ ∃ line, IsString s.line.buffer 0 line ∧ line.length ≤ maxLine
  | .entered _ command k =>
    ∀ filesize, ∃ o, handleCommand around romdisk filesize command k = some o
  | .running _ _ k resume =>
    (∀ c, Call.Prints c → ∃ a, syscall around k c = some a) ∧ ∃ k', resume k = some k'

/-- `kgetline` has come back, or it has handled every key that has been logged. -/
def Handled (s : KeyboardRing.State) : Prop :=
  s.pc = .done ∨ Pc.Between s.pc ∧ s.past.handled = s.past.logged

variable {fs : List UInt8 → Option (List UInt8)} {files : List PackedFile}
variable {around : ℤ → ℕ} {blinkTime : ℕ} {romdisk : ℕ → UInt8} {k k₀ : Kernel}
variable {t₀ : Terminal} {m : Machine} {p : Page} {line : List UInt8} {s : KeyboardRing.State}

/-- The terminal of the kernel is small enough for its cursor. -/
lemma draws_of_presents (h : Presents t₀ m p) : Draws m where
  sound := h.sound
  small := by
    obtain ⟨hr, hc⟩ := h.good.fits
    omega

lemma next_of_pends (hp : Presents t₀ s.line.machine p) (hs : Pends around blinkTime s line)
    (hpc : s.pc ≠ .done) :
    ∃ s', s.next around true commandSize blinkTime = some s' ∧ Draws s'.line.machine := by
  obtain ⟨keys, buffer, m, run⟩ := hs.run
  exact next_some around true commandSize blinkTime (draws_of_presents hp) (grow_char run) hpc

/-- `kgetline` by itself gets through everything that is pending. -/
lemma handled_of_draws {keys : Keys} {buffer : ℕ → UInt8} (hd : Draws s.line.machine)
    (run : KeyboardRing.Reaches around true commandSize blinkTime (start keys buffer m) s) :
    ∃ s', Runs (fun s => s.next around true commandSize blinkTime) s s' ∧ Handled s' := by
  let Kept (s : KeyboardRing.State) : Prop := Draws s.line.machine ∧
    KeyboardRing.Reaches around true commandSize blinkTime (start keys buffer m) s
  have progress : ∀ s, Kept s → ¬ Handled s → ∃ s',
      s.next around true commandSize blinkTime = some s' ∧ Kept s' ∧ ahead s' < ahead s := by
    rintro s ⟨hd, run⟩ hne
    have hi := inv_reaches (inv_start keys buffer m) run
    obtain ⟨hdone, hpend⟩ := not_or.mp hne
    obtain ⟨s', hs, hd'⟩ := next_some around true commandSize blinkTime hd (grow_char run) hdone
    refine ⟨s', hs, ⟨hd', .step run (.next hs) (hi.next hs).bound⟩, next_ahead hi ?_ hs⟩
    intro hb hpc
    refine Nat.lt_of_le_of_ne hi.ring.taken fun hall => hpend ⟨hb, ?_⟩
    rw [hi.place.handled, if_neg hpc, hall, List.take_length]
  obtain ⟨s', hruns, -, hs'⟩ := Runs.of_measure Kept Handled ahead progress ⟨hd, run⟩
  exact ⟨s', hruns, hs'⟩

variable (around blinkTime)

/-- **The shell never gets stuck.** In every state of every run what it does next comes back, and
while it reads a line it deals with all keys that are pending, wherever it stands. -/
theorem never_stuck (hd : Bootable fs files romdisk) (hk : Started around romdisk k₀ k)
    {s : Shell.State} (run : Shell.Reaches around blinkTime romdisk (.prompt bootKeys k) s) :
    CanGo around blinkTime romdisk s ∧ ∀ t k', s = .typing t k' →
      ∃ t', Runs (fun t => t.next around true commandSize blinkTime) t t' ∧ Handled t' := by
  obtain ⟨c, hc, hm⟩ := run_matches hd hk run
  cases hm with
  | prompt hp heap =>
    obtain ⟨k', hk', -⟩ := printed_kputs around hp (show IsText [62] by simp [IsText])
    exact ⟨⟨k', hk'⟩, fun t k' h => by cases h⟩
  | typing hp heap hs hpc =>
    obtain ⟨s', hs', -⟩ := next_of_pends hp hs hpc
    obtain ⟨keys, buffer, m, hrun⟩ := hs.run
    refine ⟨Or.inl ⟨s', hs'⟩, ?_⟩
    rintro t k' ⟨⟩
    exact handled_of_draws (draws_of_presents hp) hrun
  | done hp heap hs hpc =>
    obtain ⟨hstr, hlen⟩ := hs.isString hpc
    refine ⟨Or.inr ⟨hpc, _, hstr, hlen⟩, ?_⟩
    rintro t k' ⟨⟩
    exact ⟨_, .refl _, Or.inl hpc⟩
  | entered hp heap hs hlen hz proper =>
    refine ⟨fun filesize => ?_, fun t k' h => by cases h⟩
    obtain ⟨o, ho, -⟩ : ∃ o, handleCommand around romdisk filesize _ _ = some o ∧
        Matches around blinkTime k₀.term (behind bootKeys o) _ :=
      matches_answer hd bootKeys hp heap hs hlen hz proper
    exact ⟨o, ho⟩
  | running hp hl =>
    refine ⟨⟨fun c prints => ?_, ⟨_, hl.resume _⟩⟩, fun t k' h => by cases h⟩
    obtain ⟨a, ha, -⟩ := syscall_some around hp.sound prints
    exact ⟨a, ha⟩

theorem never_stuck_program : ∃ k₁ : Kernel, ∃ resume : Kernel → Option Kernel,
    (∀ c, Call.Prints c → ∃ a, syscall (fun _ => 0) k₁ c = some a) ∧ ∃ k', resume k₁ = some k' := by
  obtain ⟨romdisk, k₀, k, keys, entry, k₁, resume, hd, hk, run⟩ := runs_program
  obtain ⟨h, -⟩ := never_stuck (fun _ => 0) 500000 hd hk run
  exact ⟨k₁, resume, h⟩

end Mono98.ShellProgress
