import Mono98.ShellInput

/-!
Programs under the shell.

Whatever has run before, a program finds the same things when it is entered, and there is never
anything for it to read. What it writes goes to the page, in order, whatever its other calls are,
and when it returns the heap is empty again.
-/

namespace Mono98.ShellPrograms

open Mono98.Graphics Mono98.Tty Mono98.TtyRun Mono98.TextPage Mono98.Strings Mono98.Keyboard
open Mono98.LineInput Mono98.Process Mono98.Romdisk Mono98.RomdiskLookup Mono98.Packer
open Mono98.Command Mono98.CommandRun Mono98.Listing Mono98.Syscall Mono98.Shell Mono98.Console
open Mono98.ScreenPage Mono98.ShellAnswer Mono98.ShellRefines Mono98.ShellRun Mono98.ShellInput
open Mono98.Repaint Mono98.Lib.Bytes Mono98.Lib.Simulation

variable {fs : List UInt8 → Option (List UInt8)} {files : List PackedFile}
variable {around : ℤ → ℕ} {blinkTime : ℕ} {romdisk : ℕ → UInt8} {k k' k₀ : Kernel}
variable {t₀ : Terminal} {p : Page} {calls : List Call}

/-! ### What calls do -/

/-- What the calls write, each up to its terminator and whatever length it is given. -/
def written (calls : List Call) : List UInt8 :=
  calls.flatMap fun c => if c.kind = some .write ∧ c.fd = 1 then textAt c.buf else []

/-- How much memory the calls ask for. -/
def asked (calls : List Call) : ℕ :=
  (calls.map fun c => if c.kind = some .malloc then c.arg1.toNat else 0).sum

/-- The kernel behind the calls of a program. -/
structure Served (around : ℤ → ℕ) (t₀ : Terminal) (p : Page) (k k' : Kernel)
    (calls : List Call) : Prop where
  presents : Presents t₀ k'.machine (TextPage.puts (fontAt around) p (written calls))
  heap : k'.mallocStart = (k.mallocStart + asked calls) % 2 ^ 32
  program : k'.program = k.program
  args : k'.programArgs = k.programArgs

lemma written_append (calls calls' : List Call) :
    written (calls ++ calls') = written calls ++ written calls' := List.flatMap_append

lemma asked_append (calls calls' : List Call) :
    asked (calls ++ calls') = asked calls + asked calls' := by
  simp [asked]

lemma written_single (c : Call) :
    written [c] = if c.kind = some .write ∧ c.fd = 1 then textAt c.buf else [] :=
  List.flatMap_singleton _ _

lemma asked_single (c : Call) :
    asked [c] = if c.kind = some .malloc then c.arg1.toNat else 0 := by
  simp [asked]

lemma Served.append {k₁ : Kernel} {calls' : List Call} (h : Served around t₀ p k k₁ calls)
    (h' : Served around t₀ (TextPage.puts (fontAt around) p (written calls)) k₁ k' calls') :
    Served around t₀ p k k' (calls ++ calls') where
  presents := by
    rw [written_append, TextPage.puts, List.foldl_append]
    exact h'.presents
  heap := by rw [h'.heap, h.heap, asked_append, Nat.mod_add_mod, Nat.add_assoc]
  program := h'.program.trans h.program
  args := h'.args.trans h.args

variable (around) in
/-- One call. -/
lemma served_call (hp : Presents t₀ k.machine p) (heap : k.mallocStart < 2 ^ 32) {c : Call}
    (prints : c.Prints) :
    ∃ a, syscall around k c = some a ∧ Served around t₀ p k a.kernel [c] := by
  obtain ⟨a, ha, -⟩ := syscall_some around hp.sound prints
  refine ⟨a, ha, ?_⟩
  have quiet : ∀ {k' : Kernel}, k'.machine = k.machine → k'.mallocStart = k.mallocStart →
      k'.program = k.program → k'.programArgs = k.programArgs →
      ¬ (c.kind = some .write ∧ c.fd = 1) → c.kind ≠ some .malloc →
      Served around t₀ p k k' [c] := by
    intro k' hm hh hpr ha hw hc
    refine ⟨?_, ?_, hpr, ha⟩
    · rw [written_single, if_neg hw, hm]
      exact hp
    · rw [asked_single, if_neg hc, hh, Nat.add_zero, Nat.mod_eq_of_lt heap]
  rcases syscall_cases ha with
    ⟨⟨hc, hfd⟩, m, hm, rfl⟩ | ⟨⟨hc, -⟩, rfl⟩ | ⟨hc, rfl⟩ | ⟨hc, rfl⟩ | ⟨hns, rfl⟩
  · obtain ⟨str, hstr, hlen⟩ := prints hc hfd
    have htext := textAt_eq hstr (by omega)
    obtain ⟨m₁, h₁, hp'⟩ := presents_act around (a := .puts str) hp ⟨hlen, hstr.nonzero⟩
    rw [htext] at hm
    obtain rfl : m = m₁ := Option.some.inj (hm.symm.trans h₁)
    refine ⟨?_, ?_, rfl, rfl⟩
    · rw [written_single, if_pos ⟨hc, hfd⟩, htext]
      exact hp'
    · rw [asked_single, if_neg (by simp [hc]), Nat.add_zero, Nat.mod_eq_of_lt heap]
  · have hrest : (sysRead k c.fd c.buf c.arg3.toNat).kernel.mallocStart = k.mallocStart ∧
        (sysRead k c.fd c.buf c.arg3.toNat).kernel.program = k.program ∧
        (sysRead k c.fd c.buf c.arg3.toNat).kernel.programArgs = k.programArgs := by
      unfold sysRead
      split_ifs <;> exact ⟨rfl, rfl, rfl⟩
    exact quiet (sysRead_machine hp _ _ _) hrest.1 hrest.2.1 hrest.2.2 (by simp [hc]) (by simp [hc])
  · refine ⟨?_, ?_, rfl, rfl⟩
    · rw [written_single, if_neg (by simp [hc])]
      exact hp
    · rw [asked_single, if_pos hc]
      rfl
  · exact quiet rfl rfl rfl rfl (by simp [hc]) (by simp [hc])
  · exact quiet rfl rfl rfl rfl (fun h => hns (by simp [Call.Served, h.1, h.2]))
      (fun h => hns (by simp [Call.Served, h]))

/-- The shell lets a program make its calls. -/
lemma goes_calls {keys : Keys} {entry : Entry} {resume : Kernel → Option Kernel}
    (prints : ∀ c ∈ calls, c.Prints) (h : runCalls around k calls = some k') :
    Goes around blinkTime romdisk (.running keys entry k resume)
      (.running keys entry k' resume) := by
  induction calls generalizing k with
  | nil => cases h; exact .refl
  | cons c calls ih =>
    rw [runCalls, List.foldlM_cons, Option.bind_eq_bind, Option.bind_eq_some_iff] at h
    obtain ⟨k₁, h₁, h⟩ := h
    obtain ⟨a, ha, rfl⟩ := Option.map_eq_some_iff.mp h₁
    exact .head (.call c (prints c List.mem_cons_self) ha)
      (ih (fun c hc => prints c (List.mem_cons_of_mem _ hc)) h)

/-- The heap of the console is below the end of memory. -/
lemma heap_lt {glyph : UInt8 → ℕ} {c : Session} (run : Console.Reaches files glyph ⟨p, .prompt⟩ c) :
    ∀ f args heap, c.mode = .running f args heap → heap < 2 ^ 32 := by
  refine kept (P := fun c => ∀ f args heap, c.mode = .running f args heap → heap < 2 ^ 32)
    (fun c c' h hs => ?_) (by simp) run
  cases hs with
  | answer =>
    intro f args heap
    unfold answer
    split
    · simp
    · simp
    · rintro ⟨⟩
      decide
  | malloc len =>
    rintro f args heap ⟨⟩
    exact Nat.mod_lt _ (by decide)
  | write msg => exact h
  | _ => simp

/-! ### Programs in a run -/

/-- A disk, and a run that enters the line `RUN` on it. -/
lemma enters_run : ∃ romdisk k₀ k keys command k₁ p,
    Bootable programAndTextAt programAndText romdisk ∧ Started (fun _ => 0) romdisk k₀ k ∧
    Shell.Reaches (fun _ => 0) 500000 romdisk (.prompt bootKeys k) (.entered keys command k₁) ∧
    Matches (fun _ => 0) 500000 k₀.term (.entered keys command k₁) ⟨p, .entered (ascii "RUN")⟩ := by
  obtain ⟨romdisk, hd⟩ := bootable_programAndText
  obtain ⟨k₀, k, hk⟩ := started (fun _ => 0) hd (fun _ => 0) (fun _ => 0) fun _ => 0
  obtain ⟨keys, command, k₁, p, run, hm⟩ := enters_line hd hk
    (show (0x1C : UInt8) ∉ [0x13, 0x16, 0x31] by decide) (by decide) (by decide) (by decide)
  exact ⟨romdisk, k₀, k, keys, command, k₁, p, hd, hk, run, hm⟩

/-- The run goes on into the program. -/
lemma runs_program : ∃ romdisk k₀ k keys entry k₁ resume,
    Bootable programAndTextAt programAndText romdisk ∧ Started (fun _ => 0) romdisk k₀ k ∧
    Shell.Reaches (fun _ => 0) 500000 romdisk (.prompt bootKeys k)
      (.running keys entry k₁ resume) := by
  obtain ⟨romdisk, k₀, k, keys, command, k₁, p, hd, hk, run, hm⟩ := enters_run
  obtain ⟨o, ho, hb⟩ := matches_behind hd hm fun _ => 0
  have hgo : Next (fun _ => 0) 500000 romdisk (.entered keys command k₁) (behind keys o) :=
    goes_behind ho
  cases o with
  | back k' => cases hb
  | enters entry k₂ resume =>
    exact ⟨romdisk, k₀, k, keys, entry, k₂, resume, hd, hk, run.tail (.next hgo)⟩

variable (around blinkTime)

/-- **Programs do not see each other.** Whatever has run before, a program is entered because a
line names its file, with the tokens of that line as its arguments, the file in memory, a clear
`errno`, an empty heap, and nothing to read. -/
theorem program_environment (hd : Bootable fs files romdisk) (hk : Started around romdisk k₀ k)
    {keys : Keys} {command filesize : ℕ → UInt8} {k₁ k₂ : Kernel} {entry : Entry}
    {resume : Kernel → Option Kernel}
    (run : Shell.Reaches around blinkTime romdisk (.prompt bootKeys k) (.entered keys command k₁))
    (h : handleCommand around romdisk filesize command k₁ = some (.enters entry k₂ resume)) :
    ∃ line f, IsString command 0 line ∧ fileNamed files (programName line) = some f ∧
      magicBytes <+: f.contents ∧ Loaded f (arguments line) entry k₂ resume ∧ k₂.errno = 0 ∧
      k₂.mallocStart = defaultMallocLocation ∧ NoInput k₂.term ∧ k₂.machine = k₁.machine := by
  obtain ⟨c, -, hm⟩ := run_matches hd hk run
  cases hm with
  | @entered _ _ _ p line hpr heap hs hlen hz proper =>
    have hans := handleCommand_answered around hd hpr hs hlen hz proper filesize
    rw [h, Answered] at hans
    cases hr : reply files line with
    | prints text =>
      rw [hr] at hans
      obtain ⟨k', ho, -⟩ := hans.back
      cases ho
    | clears =>
      rw [hr] at hans
      obtain ⟨k', ho, -⟩ := hans.back
      cases ho
    | launches f =>
      rw [hr] at hans
      obtain ⟨entry', k', resume', ho, hl, he, hmach, hheap⟩ := hans
      cases ho
      obtain ⟨hf, hmagic⟩ := reply_launches hr
      refine ⟨line, f, hs, hf, hmagic, hl, he, hheap.trans heap, ?_, hmach⟩
      rw [Kernel.term, hmach]
      exact hpr.input

theorem program_environment_run : ∃ f entry, ∃ k₂ : Kernel, ∃ resume,
    f ∈ programAndText ∧ Loaded f [ascii "RUN"] entry k₂ resume ∧ k₂.errno = 0 ∧
      k₂.mallocStart = defaultMallocLocation ∧ NoInput k₂.term := by
  obtain ⟨romdisk, k₀, k, keys, command, k₁, p, hd, hk, run, hm⟩ := enters_run
  obtain ⟨o, ho, hb⟩ := matches_behind hd hm fun _ => 0
  cases o with
  | back k' => cases hb
  | enters entry k₂ resume =>
    obtain ⟨line, f, hs, hf, -, hl, he, hheap, hin, -⟩ :=
      program_environment (fun _ => 0) 500000 hd hk run ho
    -- the line is the one that has been typed
    cases hm with
    | entered _ _ hs' =>
      obtain rfl := hs.unique hs'
      exact ⟨f, entry, k₂, resume, List.mem_of_find?_eq_some hf, hl, he, hheap, hin⟩

/-- **There is nothing to read.** A program that reads its standard input is told so by no
error: it gets as many zeros as it has asked for, at any time. -/
theorem nothing_to_read (hd : Bootable fs files romdisk) (hk : Started around romdisk k₀ k)
    {keys : Keys} {k₁ : Kernel} {entry : Entry} {resume : Kernel → Option Kernel}
    (run : Shell.Reaches around blinkTime romdisk (.prompt bootKeys k)
      (.running keys entry k₁ resume))
    (buf : ℕ → UInt8) {len : ℕ} (hlen : len ≤ 256) :
    (sysRead k₁ 0 buf len).result = 0 ∧ (sysRead k₁ 0 buf len).kernel = { k₁ with errno := eokay } ∧
      ∀ i, (sysRead k₁ 0 buf len).buf i = if i < len then 0 else buf i := by
  obtain ⟨c, -, hm⟩ := run_matches hd hk run
  have hpr := hm.presents
  have hmach := sysRead_machine hpr 0 buf len
  refine ⟨rfl, ?_, fun i => ?_⟩
  · show { k₁ with machine := (sysRead k₁ 0 buf len).kernel.machine, errno := eokay } = _
    rw [hmach]
  · show memcpy buf k₁.term.textBuffer len i = _
    rw [memcpy_apply]
    split_ifs with hi
    · exact hpr.input.buffer i (by omega)
    · rfl

theorem nothing_to_read_run : ∃ k₁ : Kernel, (sysRead k₁ 0 (fun _ => 7) 3).result = 0 ∧
    ∀ i, (sysRead k₁ 0 (fun _ => 7) 3).buf i = if i < 3 then 0 else 7 := by
  obtain ⟨romdisk, k₀, k, keys, entry, k₁, resume, hd, hk, run⟩ := runs_program
  obtain ⟨hres, -, hbuf⟩ := nothing_to_read (fun _ => 0) 500000 hd hk run (fun _ => 7)
    (show 3 ≤ 256 by decide)
  exact ⟨k₁, hres, hbuf⟩

end Mono98.ShellPrograms
