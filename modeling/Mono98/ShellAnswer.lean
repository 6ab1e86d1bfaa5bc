import Mono98.Console
import Mono98.ScreenPage
import Mono98.Shell

/-!
What `handle_command` does with a line.

On a disk whose names fit their column and whose files can be checked, every proper line is
answered as the console answers it: the text is on the page, or the file is in memory and is
entered with its tokens.
-/

namespace Mono98.ShellAnswer

open Mono98.Graphics Mono98.Tty Mono98.TtyRun Mono98.TextPage Mono98.Strings Mono98.Process
open Mono98.Romdisk Mono98.RomdiskLookup Mono98.Packer Mono98.Command Mono98.CommandRun
open Mono98.Listing Mono98.Tokens Mono98.Shell Mono98.Console Mono98.ScreenPage Mono98.Lib.Bytes
open Mono98.Lib.Decimal Mono98.Lib.Fold

/-- A packed disk whose names fit their column, and whose files have at least the three bytes
that the loader looks at, and less than 2 GiB. -/
structure Bootable (fs : List UInt8 → Option (List UInt8)) (files : List PackedFile)
    (romdisk : ℕ → UInt8) : Prop extends Packed fs files romdisk where
  column : ∀ f ∈ files, f.base.length ≤ 19
  checked : ∀ f ∈ files, 3 ≤ f.contents.length
  small : ∀ f ∈ files, f.contents.length < 2 ^ 31

variable {fs : List UInt8 → Option (List UInt8)} {files : List PackedFile}
variable {around : ℤ → ℕ} {romdisk command : ℕ → UInt8} {k k' : Kernel} {line name : List UInt8}
variable {t₀ : Terminal} {p : Page}

/-! ### The list of the disk -/

lemma Bootable.entryOk (h : Bootable fs files romdisk) {f : PackedFile} (hf : f ∈ files)
    (off : ℕ) : TableEntry.Ok ⟨f.base, off, f.contents.length⟩ := by
  have h3 := h.checked f hf
  have h31 := h.small f hf
  exact ⟨(h.ok f hf).letters, (h.ok f hf).base, by dsimp only; omega⟩

variable (around) in
/-- The list of the disk is sent. -/
lemma says_displayRomdisk (h : Bootable fs files romdisk) (hk : Sound k.machine)
    (filesize : ℕ → UInt8) :
    Says around k (displayRomdisk around romdisk filesize k) (diskList files) := by
  have hlines : files.flatMap fileLine = files.zipIdx.flatMap fun f => fileLine f.1 := by
    rw [← List.flatMap_map Prod.fst fileLine, List.zipIdx_map_fst]
  have hloop : ∀ k, (listRomdisk romdisk).foldlM (listEntry around romdisk filesize) k =
      files.zipIdx.foldlM (fun k f => listEntry around romdisk filesize k (entryAt f.2)) k := by
    intro k
    rw [listRomdisk, h.disk.entries, List.foldlM_map]
    exact (foldlM_zipIdx (fun _ _ _ => rfl) k).symm
  rw [displayRomdisk, diskList, hlines]
  refine (says_kputs hk (by simp [IsText, ascii])).bind fun k hk => ?_
  refine (says_kputs hk (by simp [IsText, ascii])).bind fun k hk => ?_
  rw [hloop]
  refine (says_foldlM (fun f hf k hk => ?_) hk).bind fun k hk =>
    says_kputs hk (by simp [IsText])
  obtain ⟨hi, heq⟩ := List.getElem?_eq_some_iff.mp (List.mem_zipIdx_iff_getElem?.mp hf)
  have hmem : f.1 ∈ files := heq ▸ List.getElem_mem hi
  obtain ⟨off, hentry, -⟩ := h.disk.file f.2 hi
  rw [heq] at hentry
  exact says_listEntry hk (h.entryOk hmem off) hentry (h.column _ hmem) filesize

lemma diskList_nonzero (h : Bootable fs files romdisk) : ∀ c ∈ diskList files, c ≠ 0 := by
  have hlines : ∀ f ∈ files, ∀ c ∈ fileLine f, c ≠ 0 := by
    intro f hf c hc
    have hnum := ((h.entryOk hf 0).digits fun _ => 0).2.2
    simp only [fileLine, TableEntry.line, List.mem_append, List.mem_replicate,
      List.mem_singleton] at hc
    rcases hc with ((hc | ⟨-, rfl⟩) | hc) | rfl
    · exact (h.ok f hf).nonzero c hc
    · decide
    · exact hnum c hc
    · decide
  have h1 : ∀ c ∈ ascii "Contents of main romdisk\n", c ≠ 0 := by simp [ascii]
  have h2 : ∀ c ∈ ascii "FILENAME           LENGTH\n", c ≠ 0 := by simp [ascii]
  intro c hc
  simp only [diskList, List.mem_append, List.mem_flatMap, List.mem_singleton] at hc
  rcases hc with hc | hc | ⟨f, hf, hc⟩ | rfl
  · exact h1 c hc
  · exact h2 c hc
  · exact hlines f hf c hc
  · decide

/-! ### The built-in commands -/

/-- The comparisons of `handle_command`, on a string. -/
lemma handleCommand_dispatch (hs : IsString command 0 line) (hlen : line.length < 2 ^ 32)
    (filesize : ℕ → UInt8) : handleCommand around romdisk filesize command k =
      if line = ascii "PING" then (kputs around k (ascii "\nPONG\n")).map .back
      else if line = ascii "SANDBOX" then none
      else if line = ascii "CLEAR" then
        (clearTerminal k.machine).map fun m => .back { k with machine := m }
      else if line = ascii "LS-ROMDISK" then
        (displayRomdisk around romdisk filesize k).map .back
      else handleProgram around romdisk command k := by
  have compare : ∀ w : String, (∀ c ∈ ascii w, c ≠ 0) →
      ∃ d, strcmp command (literal w) = some d ∧ (d = 0 ↔ line = ascii w) :=
    fun w hw => strcmp_spec hs (isString_literal w hw) hlen
  obtain ⟨d₁, e₁, i₁⟩ := compare "PING" (by simp [ascii])
  obtain ⟨d₂, e₂, i₂⟩ := compare "SANDBOX" (by simp [ascii])
  obtain ⟨d₃, e₃, i₃⟩ := compare "CLEAR" (by simp [ascii])
  obtain ⟨d₄, e₄, i₄⟩ := compare "LS-ROMDISK" (by simp [ascii])
  simp only [handleCommand, e₁, e₂, e₃, e₄, Option.bind_eq_bind, Option.bind_some, i₁, i₂, i₃, i₄,
    Option.map_eq_bind]
  rfl

/-- The call has come back, with the text on the page and the rest of the kernel as it was, but
for the argument buffers. -/
structure Back (around : ℤ → ℕ) (t₀ : Terminal) (p : Page) (k : Kernel) (o : Option Outcome) :
    Prop where
  back : ∃ k', o = some (.back k') ∧ Presents t₀ k'.machine p ∧ k'.errno = k.errno ∧
    k'.program = k.program ∧ k'.mallocStart = k.mallocStart

lemma back_of_printed {text : List UInt8} {args : ℕ → ℤ → UInt8}
    (h : Printed around t₀ p { k with programArgs := args } k' text) :
    Back around t₀ (TextPage.puts (fontAt around) p text) k (some (.back k')) := by
  obtain ⟨hp, hr⟩ := h
  exact ⟨k', rfl, hp, by rw [hr], by rw [hr], by rw [hr]⟩

/-! ### Programs -/

/-- The file `f` is in memory and is entered with the arguments; behind it the heap is reset. -/
structure Loaded (f : PackedFile) (args : List (List UInt8)) (entry : Entry) (k : Kernel)
    (resume : Kernel → Option Kernel) : Prop where
  address : entry.address = programInjectionAddress + 3
  argc : entry.argc = args.length
  argv : ∀ i (hi : i < args.length), IsString (fun n : ℕ => entry.argv i n) 0 args[i]
  contents : Stands k.program 0 f.contents
  resume : ∀ k, resume k = some { k with mallocStart := defaultMallocLocation }

/-- The file is entered, on a terminal and a heap that nothing has changed. -/
def Enters (f : PackedFile) (args : List (List UInt8)) (k : Kernel) (o : Option Outcome) : Prop :=
  ∃ entry k' resume, o = some (.enters entry k' resume) ∧ Loaded f args entry k' resume ∧
    k'.errno = 0 ∧ k'.machine = k.machine ∧ k'.mallocStart = k.mallocStart

/-- Splitting a proper line. The scan of an empty one reads on behind its terminator. -/
lemma split_line (hs : IsString command 0 line) (hlen : line.length ≤ 255)
    (hz : line = [] → ∃ n, strlen command = some n) (hp : Proper line)
    (args : ℕ → ℤ → UInt8) :
    ∃ argc args', splitString command 32 34 (clearArgs args) = some (argc, args') ∧
      IsString (fun n : ℕ => args' 0 n) 0 (programName line) ∧ (programName line).length ≤ 63 ∧
      (line ≠ [] → argc = (arguments line).length ∧
        ∀ i (hi : i < (arguments line).length),
          IsString (fun n : ℕ => args' i n) 0 (arguments line)[i]) := by
  by_cases hne : line = []
  · subst hne
    obtain ⟨n, hn⟩ := hz rfl
    have hloop := splitLoop_eq hs 32 34 (2 ^ 31) 0 (Nat.zero_le _) (by simp)
      ⟨0, 0, false, clearArgs args⟩
    have hempty := (filled_clearArgs args (show 0 < 32 by decide)).isString
      (show ([] : List UInt8).length < 64 by decide) (by simp)
    refine ⟨_, _, by rw [splitString, hloop, hn]; rfl, hempty, Nat.zero_le _, ?_⟩
    exact fun h => absurd rfl h
  · obtain ⟨args', hsplit, hargs, hname, h63⟩ :=
      split_command hs hne (by omega) hp.closed hp.count hp.short args
    exact ⟨_, args', hsplit, hname, h63, fun _ => ⟨rfl, hargs⟩⟩

/-- A name on the disk is not empty, and neither is the line. -/
lemma line_of_fileNamed (h : Bootable fs files romdisk) {f : PackedFile}
    (hf : fileNamed files (programName line) = some f) : f ∈ files ∧ line ≠ [] := by
  have hmem : f ∈ files := List.mem_of_find?_eq_some hf
  refine ⟨hmem, ?_⟩
  rintro rfl
  have hbase : f.base = programName [] := by simpa using List.find?_some hf
  have := (h.ok f hmem).base.1
  rw [hbase] at this
  exact absurd this (by decide)

variable (around) in
/-- Text that is printed before the call comes back. -/
lemma back_foldlM (h : Presents t₀ k.machine p) {msgs : List (List UInt8)}
    (ht : ∀ msg ∈ msgs, IsText msg) (args : ℕ → ℤ → UInt8) :
    Back around t₀ (TextPage.puts (fontAt around) p msgs.flatten) k
      ((msgs.foldlM (kputs around) { k with programArgs := args }).map .back) := by
  have h' : Presents t₀ ({ k with programArgs := args } : Kernel).machine p := h
  obtain ⟨m, hfold⟩ : ∃ m, msgs.foldlM (kputs around) { k with programArgs := args } =
      some { k with programArgs := args, machine := m } := by
    obtain ⟨m, -, hm⟩ := foldlM_kputs h'.sound ht
    exact ⟨m, hm⟩
  rw [hfold]
  exact back_of_printed (printed_foldlM h' (fun msg hmsg => (ht msg hmsg).2) hfold)

variable (around) in
/-- **The last branch** of `handle_command`: the file of the name is entered if it is a program,
and else there is a report. -/
lemma handleProgram_reply (hd : Bootable fs files romdisk) (h : Presents t₀ k.machine p)
    (hs : IsString command 0 line) (hlen : line.length ≤ 255)
    (hz : line = [] → ∃ n, strlen command = some n) (hp : Proper line) :
    match fileNamed files (programName line) with
    | none => Back around t₀ (TextPage.puts (fontAt around) p (missing (programName line)).flatten)
        k (handleProgram around romdisk command k)
    | some f =>
      if magicBytes <+: f.contents then
        Enters f (arguments line) k (handleProgram around romdisk command k)
      else Back around t₀ (TextPage.puts (fontAt around) p invalid.flatten) k
        (handleProgram around romdisk command k) := by
  obtain ⟨argc, args, hsplit, hname, h63, hargs⟩ := split_line hs hlen hz hp k.programArgs
  obtain ⟨r, hr, hfound⟩ := hd.lookup hname
  simp only [handleProgram, hsplit, hr, Option.bind_eq_bind, Option.bind_some]
  cases hf : fileNamed files (programName line) with
  | none =>
    rw [hf] at hfound
    have htext : IsText (programName line) := ⟨by omega, hname.nonzero⟩
    simp only [hfound, reportMissing_eq hname (by omega)]
    have hb := back_foldlM around h (missing_text htext) args
    rwa [Option.map_eq_bind] at hb
  | some f =>
    rw [hf] at hfound
    obtain ⟨h0, hl, hst⟩ := hfound
    obtain ⟨hmem, hne⟩ := line_of_fileNamed hd hf
    have hmagic := memcmp_magic hst.from_start (hd.checked f hmem)
    simp only [h0, loadProgram, ne_eq, not_true_eq_false, if_false]
    by_cases hm : magicBytes <+: f.contents
    · -- the file begins as a program does
      obtain ⟨rfl, hargv⟩ := hargs hne
      have hcount : (arguments line).length ≤ 32 := hp.count
      rw [if_pos hm, if_neg (not_not.mpr (hmagic.mpr hm))]
      refine ⟨_, _, _, rfl, ⟨rfl, Nat.mod_eq_of_lt (by omega), hargv, fun i hi => ?_,
        fun k => rfl⟩, rfl, rfl, rfl⟩
      show memcpy k.program (fun n => romdisk (r.file + n)) r.length (0 + i) = _
      rw [Nat.zero_add, memcpy_apply, hl, if_pos hi]
      exact hst i hi
    · rw [if_neg hm, if_pos (mt hmagic.mp hm)]
      simp only [reportInvalid_eq]
      have hb := back_foldlM around h invalid_text args
      rwa [Option.map_eq_bind] at hb

/-! ### Every command -/

/-- The command is answered as the console answers the line. -/
def Answered (around : ℤ → ℕ) (t₀ : Terminal) (files : List PackedFile) (p : Page)
    (line : List UInt8) (k : Kernel) (o : Option Outcome) : Prop :=
  match reply files line with
  | .prints text => Back around t₀ (TextPage.puts (fontAt around) p text) k o
  | .clears => Back around t₀ (TextPage.clear p) k o
  | .launches f => Enters f (arguments line) k o

variable (around) in
/-- **`handle_command`** answers every proper line as the console does. -/
theorem handleCommand_answered (hd : Bootable fs files romdisk) (h : Presents t₀ k.machine p)
    (hs : IsString command 0 line) (hlen : line.length ≤ 255)
    (hz : line = [] → ∃ n, strlen command = some n) (hp : Proper line) (filesize : ℕ → UInt8) :
    Answered around t₀ files p line k (handleCommand around romdisk filesize command k) := by
  rw [handleCommand_dispatch hs (by omega) filesize, if_neg hp.sandbox, Answered, reply]
  by_cases hping : line = ascii "PING"
  · obtain ⟨k', hk, hpr⟩ := printed_kputs around h
      (show IsText (ascii "\nPONG\n") by simp [IsText, ascii])
    rw [if_pos hping, if_pos hping, hk]
    exact back_of_printed hpr
  rw [if_neg hping, if_neg hping]
  by_cases hclear : line = ascii "CLEAR"
  · obtain ⟨m, hm, hpr⟩ := presents_act around (a := .clear) h trivial
    rw [if_pos hclear, if_pos hclear, show clearTerminal k.machine = some m from hm]
    exact ⟨_, rfl, hpr, rfl, rfl, rfl⟩
  rw [if_neg hclear, if_neg hclear]
  by_cases hlist : line = ascii "LS-ROMDISK"
  · obtain ⟨k', hk, hsend, -⟩ := says_displayRomdisk around hd h.sound filesize
    rw [if_pos hlist, if_pos hlist, hk]
    exact back_of_printed (printed_of_sends h (diskList_nonzero hd) hsend)
  rw [if_neg hlist, if_neg hlist]
  have hprog := handleProgram_reply around hd h hs hlen hz hp
  cases hf : fileNamed files (programName line) with
  | none =>
    rw [hf] at hprog
    exact hprog
  | some f =>
    rw [hf] at hprog
    dsimp only at hprog ⊢
    split_ifs at hprog ⊢
    · exact hprog
    · exact hprog

end Mono98.ShellAnswer
