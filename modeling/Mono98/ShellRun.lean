import Mono98.ShellRefines

/-!
Runs of the shell from the start of the machine.

The greeting and the list of the disk are on the page when the first prompt is printed. From
there every run is one of the console. What a program finds when it is entered does not depend
on what has run before it, and there is never anything for it to read.
-/

namespace Mono98.ShellRun

open Mono98.Graphics Mono98.Tty Mono98.TtyRun Mono98.TextPage Mono98.Strings Mono98.Keyboard
open Mono98.Process Mono98.Romdisk Mono98.RomdiskLookup Mono98.Packer Mono98.Command
open Mono98.CommandRun Mono98.Listing Mono98.Syscall Mono98.Shell Mono98.Console Mono98.ScreenPage
open Mono98.ShellAnswer Mono98.ShellRefines Mono98.Picture Mono98.Repaint Mono98.Lib.Bytes
open Mono98.Lib.Simulation

/-- What is on the page at the first prompt. -/
def greeting (files : List PackedFile) : List UInt8 := kernelMotd ++ (diskList files ++ [10])

def firstPage (around : ℤ → ℕ) (files : List PackedFile) : Page :=
  TextPage.puts (fontAt around) (blankPage kernelTerminalRows kernelTerminalColumns 0)
    (greeting files)

variable {fs : List UInt8 → Option (List UInt8)} {files : List PackedFile}
variable {around : ℤ → ℕ} {blinkTime : ℕ} {romdisk : ℕ → UInt8} {k : Kernel} {s : State}

/-- The terminal of a kernel that has booted, after its first refresh. -/
lemma presents_boot (background : ℕ → UInt8) (mem : ℤ → UInt8) :
    let k := Kernel.boot background mem
    ∃ v, refreshTerminal k.term true k.machine.video = some v ∧
      Presents k.term ⟨k.term, v⟩ (blankPage kernelTerminalRows kernelTerminalColumns 0) := by
  intro k
  have hr : 2 ≤ kernelTerminalRows ∧ kernelTerminalRows ≤ 21 := by decide
  have hc : 1 ≤ kernelTerminalColumns ∧ kernelTerminalColumns ≤ 36 := by decide
  obtain ⟨v, hv, hg, hp⟩ := good_initTerminal hr hc background 0 (v := .boot mem) ⟨rfl, rfl⟩
  obtain ⟨-, hview⟩ := initTerminal_sound (show 2 ≤ kernelTerminalRows ∧ kernelTerminalRows < 65536
    by decide) (show 1 ≤ kernelTerminalColumns ∧ kernelTerminalColumns < 65536 by decide)
    background 0 (areaOk_boot mem)
  refine ⟨v, hv, hg, hp, ?_, ⟨fun _ _ => rfl, rfl, rfl⟩⟩
  show Shows (TtyRows.view (initTerminal kernelTerminalRows kernelTerminalColumns background 0
    (.boot mem)).term) _
  rw [hview]
  exact shows_blank _ _ _

variable (around) in
/-- The greeting. -/
lemma greet_some (hd : Bootable fs files romdisk) (background filesize : ℕ → UInt8)
    (mem : ℤ → UInt8) : ∃ k, greet around romdisk filesize (.boot background mem) = some k ∧
      Presents (Kernel.boot background mem).term k.machine (firstPage around files) ∧
      k.mallocStart = defaultMallocLocation := by
  obtain ⟨v, hv, hp⟩ := presents_boot background mem
  set k₀ : Kernel := { Kernel.boot background mem with
    machine := ⟨(Kernel.boot background mem).term, v⟩ } with hk₀
  have hs₀ : Sound k₀.machine := hp.sound
  have hmotd : Says around k₀ (kernelMotd.foldlM (kputc around) k₀) kernelMotd := by
    have h0 : ∀ c ∈ kernelMotd, c ≠ 0 := by simp [kernelMotd, ascii]
    have h : Says around k₀ (kernelMotd.foldlM (kputc around) k₀)
        (kernelMotd.flatMap fun c => [c]) :=
      says_foldlM (fun c hc k hk => says_kputs hk ⟨by simp, by simpa using h0 c hc⟩) hs₀
    rwa [List.flatMap_singleton'] at h
  have hsays : Says around k₀ ((kernelMotd.foldlM (kputc around) k₀).bind fun k =>
      (displayRomdisk around romdisk filesize k).bind fun k => kputs around k [10])
      (greeting files) :=
    hmotd.bind fun k hk => (says_displayRomdisk around hd hk filesize).bind fun k hk =>
      says_kputs hk (t := [10]) (by simp [IsText])
  obtain ⟨k, hk, hsend, -⟩ := hsays
  have h0 : ∀ c ∈ greeting files, c ≠ 0 := by
    intro c hc
    have hm : ∀ c ∈ kernelMotd, c ≠ 0 := by simp [kernelMotd, ascii]
    simp only [greeting, List.mem_append, List.mem_singleton] at hc
    rcases hc with hc | hc | rfl
    · exact hm c hc
    · exact diskList_nonzero hd c hc
    · decide
  obtain ⟨hp', hr⟩ := printed_of_sends (k := k₀) hp h0 hsend
  refine ⟨k, ?_, hp', by rw [hr]; rfl⟩
  rw [greet, hv]
  exact hk

lemma kmain_some (hd : Bootable fs files romdisk) (low : ℕ → UInt8) (mem : ℤ → UInt8) :
    ∃ background, kmain romdisk low mem = some (.boot background mem) := by
  obtain ⟨r, hr, -⟩ := hd.lookup (isString_literal "BACKGROUND" (by simp [ascii]))
  exact ⟨_, by rw [kmain, hr]; rfl⟩

/-- The kernel `k₀` has been set up, and the shell stands at its first prompt with `k`. -/
structure Started (around : ℤ → ℕ) (romdisk : ℕ → UInt8) (k₀ k : Kernel) : Prop where
  start : ∃ low mem filesize, kmain romdisk low mem = some k₀ ∧
    greet around romdisk filesize k₀ = some k

variable {k₀ : Kernel}

lemma matches_start (hd : Bootable fs files romdisk) (hk : Started around romdisk k₀ k) :
    Matches around blinkTime k₀.term (.prompt bootKeys k) ⟨firstPage around files, .prompt⟩ := by
  obtain ⟨low, mem, filesize, h₀, h⟩ := hk.start
  obtain ⟨background, hb⟩ := kmain_some hd low mem
  obtain rfl := Option.some.inj (h₀.symm.trans hb)
  obtain ⟨k', hk', hp, heap⟩ := greet_some around hd background filesize mem
  obtain rfl := Option.some.inj (h.symm.trans hk')
  exact .prompt hp heap

/-- Every run from the first prompt on is one of the console. -/
lemma run_matches (hd : Bootable fs files romdisk) (hk : Started around romdisk k₀ k)
    (run : Shell.Reaches around blinkTime romdisk (.prompt bootKeys k) s) :
    ∃ c, Console.Reaches files (fontAt around) ⟨firstPage around files, .prompt⟩ c ∧
      Matches around blinkTime k₀.term s c :=
  (simulates hd k₀.term).run (matches_start hd hk) run

lemma started (around : ℤ → ℕ) (hd : Bootable fs files romdisk) (low filesize : ℕ → UInt8)
    (mem : ℤ → UInt8) : ∃ k₀ k, Started around romdisk k₀ k := by
  obtain ⟨background, hb⟩ := kmain_some hd low mem
  obtain ⟨k, hk, -⟩ := greet_some around hd background filesize mem
  exact ⟨_, k, ⟨low, mem, filesize, hb, hk⟩⟩

/-- The disk with a program and a text. -/
lemma bootable_programAndText : ∃ romdisk, Bootable programAndTextAt programAndText romdisk := by
  obtain ⟨romdisk, hd⟩ := packed_programAndText
  exact ⟨romdisk, hd, by decide, by decide, by decide⟩

variable (around blinkTime)

end Mono98.ShellRun
