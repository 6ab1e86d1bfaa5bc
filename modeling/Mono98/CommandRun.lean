import Mathlib.Tactic.IntervalCases
import Mono98.Command
import Mono98.RomdiskLookup
import Mono98.Tokens
import Mono98.TtyRun

/-!
Running a program from the ROMDISK is all or nothing.

A command that is none of the built-in ones is split, its first token is looked up, and the
file is checked before anything of the kernel is changed. Either the program is entered with
its file in memory and the tokens as its arguments, or a message is printed and nothing else
has happened.
-/

namespace Mono98.CommandRun

open Mono98.Graphics Mono98.Tty Mono98.TtyRun Mono98.Strings Mono98.Process Mono98.Romdisk
open Mono98.RomdiskLookup Mono98.Packer Mono98.Command Mono98.Tokens Mono98.Lib.Bytes

variable {around : ℤ → ℕ} {k : Kernel} {romdisk command : ℕ → UInt8}
variable {s name : List UInt8} {files : List PackedFile}

/-! ### Printing -/

lemma textAt_eq {ptr : ℕ → UInt8} (h : IsString ptr 0 s) (hlen : s.length < 65536) :
    textAt ptr = s := by
  have hsplit : (List.range 65536).map ptr =
      s ++ 0 :: (List.range' (s.length + 1) (65535 - s.length)).map ptr := by
    refine List.ext_getElem (by simp; omega) fun i h₁ h₂ => ?_
    rw [List.getElem_map, List.getElem_range]
    rcases Nat.lt_trichotomy i s.length with hlt | rfl | hgt
    · rw [List.getElem_append_left hlt, h.byte_at hlt]
    · rw [List.getElem_append_right (Nat.le_refl _)]
      simpa using h.at_end
    · obtain ⟨j, rfl⟩ := Nat.exists_eq_add_of_lt hgt
      rw [List.getElem_append_right (by omega)]
      simp [show s.length + j + 1 - s.length = j + 1 by omega, Nat.add_right_comm]
  rw [textAt, hsplit, List.takeWhile_append_of_pos (by simpa using h.nonzero)]
  simp

/-- Strings printed one after the other are a run of the terminal. -/
lemma foldlM_kputs (h : Sound k.machine) {msgs : List (List UInt8)}
    (ht : ∀ msg ∈ msgs, IsText msg) : ∃ m, runOps around k.machine (msgs.map .puts) = some m ∧
      msgs.foldlM (kputs around) k = some { k with machine := m } := by
  induction msgs generalizing k with
  | nil => exact ⟨k.machine, rfl, rfl⟩
  | cons msg msgs ih =>
    obtain ⟨m₁, h₁, hs₁⟩ := tputs_some around h (ht msg (by simp))
    obtain ⟨m, hm, hk⟩ := ih (k := { k with machine := m₁ }) hs₁ fun msg hmsg =>
      ht msg (by simp [hmsg])
    refine ⟨m, ?_, ?_⟩
    · rw [List.map_cons, runOps, List.foldlM_cons, applyOp, h₁]
      exact hm
    · rw [List.foldlM_cons, kputs, h₁]
      exact hk

/-- The strings of the report on a name that is not on the disk. -/
def missing (name : List UInt8) : List (List UInt8) :=
  [[0xF4], ascii "Command '", name, ascii "' not found.\n", [0xF0]]

/-- The strings of the report on a file that is no program. -/
def invalid : List (List UInt8) :=
  [[0xF4], ascii "Program invalid--is this a valid binary?\n", [0xF0]]

lemma reportMissing_eq {ptr : ℕ → UInt8} (h : IsString ptr 0 name) (hlen : name.length < 65536) :
    reportMissing around ptr k = (missing name).foldlM (kputs around) k := by
  simp only [reportMissing, textAt_eq h hlen, missing, List.foldlM_cons, List.foldlM_nil,
    Option.pure_def, Option.bind_eq_bind, Option.bind_fun_some]
  rfl

lemma reportInvalid_eq : reportInvalid around 1 k = invalid.foldlM (kputs around) k := by
  simp only [reportInvalid, invalid, List.foldlM_cons, List.foldlM_nil, Option.pure_def,
    Option.bind_eq_bind, Option.bind_fun_some]
  rfl

/-! ### The parts of a command -/

lemma isString_literal (w : String) (h : ∀ c ∈ ascii w, c ≠ 0) :
    IsString (literal w) 0 (ascii w) :=
  isString_getD h

/-- A command that is none of the built-in ones. -/
def NotBuiltIn (s : List UInt8) : Prop :=
  s ≠ ascii "PING" ∧ s ≠ ascii "SANDBOX" ∧ s ≠ ascii "CLEAR" ∧ s ≠ ascii "LS-ROMDISK"

instance (s : List UInt8) : Decidable (NotBuiltIn s) :=
  inferInstanceAs (Decidable (_ ∧ _ ∧ _ ∧ _))

lemma strcmp_literal {w : String} (hs : IsString command 0 s) (hlen : s.length < 2 ^ 32)
    (hw : ∀ c ∈ ascii w, c ≠ 0) (hne : s ≠ ascii w) :
    ∃ d, strcmp command (literal w) = some d ∧ d ≠ 0 := by
  obtain ⟨d, hd, hiff⟩ := strcmp_spec hs (isString_literal w hw) hlen
  exact ⟨d, hd, fun h0 => hne (hiff.mp h0)⟩

/-- Such a command reaches the last branch. -/
lemma handleCommand_eq (hs : IsString command 0 s) (hlen : s.length < 2 ^ 32)
    (hb : NotBuiltIn s) (filesize : ℕ → UInt8) :
    handleCommand around romdisk filesize command k = handleProgram around romdisk command k := by
  obtain ⟨h₁, h₂, h₃, h₄⟩ := hb
  obtain ⟨d₁, e₁, n₁⟩ := strcmp_literal hs hlen (by simp [ascii]) h₁
  obtain ⟨d₂, e₂, n₂⟩ := strcmp_literal hs hlen (by simp [ascii]) h₂
  obtain ⟨d₃, e₃, n₃⟩ := strcmp_literal hs hlen (by simp [ascii]) h₃
  obtain ⟨d₄, e₄, n₄⟩ := strcmp_literal hs hlen (by simp [ascii]) h₄
  simp [handleCommand, e₁, e₂, e₃, e₄, n₁, n₂, n₃, n₄]

lemma filled_clearArgs (args : ℕ → ℤ → UInt8) {i : ℕ} (hi : i < 32) :
    Filled (clearArgs args i) [] := by
  unfold Filled
  refine ⟨stands_nil _ _, fun n _ hn => if_pos ⟨hi, by omega, ?_⟩⟩
  simpa [maxProgramArgLength] using hn

/-- The three bytes a program begins with. -/
def magicBytes : List UInt8 := [0x50, 0x5C, 0xDE]

/-- The check of the loader, on a file in memory. -/
lemma memcmp_magic {data : ℕ → UInt8} {contents : List UInt8} (h : Stands data 0 contents)
    (h3 : 3 ≤ contents.length) : memcmp data magic 3 = 0 ↔ magicBytes <+: contents := by
  obtain ⟨a, b, c, rest, rfl⟩ : ∃ a b c rest, contents = a :: b :: c :: rest := by
    match contents, h3 with
    | a :: b :: c :: rest, _ => exact ⟨a, b, c, rest, rfl⟩
  have ha : data 0 = a := h 0 (by simp)
  have hb : data 1 = b := h 1 (by simp)
  have hc : data 2 = c := h 2 (by simp)
  rw [memcmp_eq_zero, show (∀ i < 3, data i = magic i) ↔ a = 0x50 ∧ b = 0x5C ∧ c = 0xDE from ?_]
  · simp [magicBytes, eq_comm]
  · rw [← ha, ← hb, ← hc]
    constructor
    · exact fun h => ⟨h 0 (by decide), h 1 (by decide), h 2 (by decide)⟩
    · rintro ⟨h0, h1, h2⟩ i hi
      interval_cases i
      exacts [h0, h1, h2]

/-! ### All or nothing -/

/-- An image in memory that the packer has written, for as many files and bytes as the format
has room for. -/
structure Packed (fs : List UInt8 → Option (List UInt8)) (files : List PackedFile)
    (romdisk : ℕ → UInt8) : Prop where
  ok : ∀ f ∈ files, f.Ok fs
  count : 1 ≤ files.length ∧ files.length ≤ 65535
  size : headerSize + entrySize * files.length + (lengths files).sum < 2 ^ 32
  image : ∃ image, main fs (files.map PackedFile.path) = some ⟨0, some image⟩ ∧
    Stands romdisk 0 image

/-- The first file of a name. -/
def fileNamed (files : List PackedFile) (name : List UInt8) : Option PackedFile :=
  files.find? fun f => f.base = name

/-- The program of the file `f` is entered once, at its third byte, with the file in memory and
the arguments, and behind it the heap is reset. -/
def Runs (o : Option Outcome) (f : PackedFile) (args : List (List UInt8)) : Prop :=
  ∃ entry k resume, o = some (.enters entry k resume) ∧
    entry.address = programInjectionAddress + 3 ∧ entry.argc = args.length ∧
    (∀ i (hi : i < args.length), IsString (fun n : ℕ => entry.argv i n) 0 args[i]) ∧
    Stands k.program 0 f.contents ∧ k.errno = 0 ∧
    ∀ k, resume k = some { k with mallocStart := defaultMallocLocation }

/-- No program is entered, and nothing has happened but that the strings `msgs` have been
printed and the argument buffers written. -/
def Reports (around : ℤ → ℕ) (k : Kernel) (o : Option Outcome) (msgs : List (List UInt8)) : Prop :=
  ∃ k', o = some (.back k') ∧
    runOps around k.machine (msgs.map .puts) = some k'.machine ∧
    k'.errno = k.errno ∧ k'.program = k.program ∧ k'.mallocStart = k.mallocStart

variable {fs : List UInt8 → Option (List UInt8)}

lemma Packed.disk (h : Packed fs files romdisk) : Disk romdisk files := by
  obtain ⟨image, him, hs⟩ := h.image
  obtain ⟨image', him', hdisk⟩ := main_disk h.ok h.count h.size
  obtain rfl : image = image' := by simpa using him.symm.trans him'
  exact hdisk romdisk hs

/-- What the lookup answers, by the first file of the name. -/
lemma Packed.lookup (h : Packed fs files romdisk) {str : ℕ → UInt8} (hstr : IsString str 0 name) :
    ∃ r, getRomdiskFile romdisk str = some r ∧
      match fileNamed files name with
      | some f => r.noent = 0 ∧ r.length = f.contents.length ∧ Stands romdisk r.file f.contents
      | none => r.noent = 1 := by
  obtain ⟨r, hr, ha⟩ := h.disk.lookup (fun f hf => (h.ok f hf).base.2) hstr
  refine ⟨r, hr, ?_⟩
  rcases ha with ⟨i, hi, hname, hfirst, h0, hlen, hs⟩ | ⟨hnone, h1⟩
  · have hf : fileNamed files name = some files[i] := by
      rw [fileNamed, List.find?_eq_some_iff_getElem]
      exact ⟨by simpa using hname, i, hi, rfl, fun j hj => by simpa using hfirst j hj⟩
    rw [hf]
    exact ⟨h0, hlen, hs⟩
  · have hf : fileNamed files name = none := by
      rw [fileNamed, List.find?_eq_none]
      exact fun f hf => by simpa using hnone f hf
    rw [hf]
    exact h1

/-- The arguments of a command, and the name of the program. -/
def arguments (s : List UInt8) : List (List UInt8) := tokens 32 34 s

def programName (s : List UInt8) : List UInt8 := (arguments s).headD []

/-- What splitting the command leaves. -/
lemma split_command (hs : IsString command 0 s) (hne : s ≠ []) (hlen : s.length < 2 ^ 31)
    (hq : s.count 34 % 2 = 0) (hcount : (arguments s).length ≤ 32)
    (htok : ∀ t ∈ arguments s, t.length ≤ 63) (args : ℕ → ℤ → UInt8) :
    ∃ args', splitString command 32 34 (clearArgs args) = some ((arguments s).length, args') ∧
      (∀ i (hi : i < (arguments s).length),
        IsString (fun n : ℕ => args' i n) 0 (arguments s)[i]) ∧
      IsString (fun n : ℕ => args' 0 n) 0 (programName s) ∧ (programName s).length ≤ 63 := by
  obtain ⟨args', hsplit, hargs⟩ := splitString_spec hs hne (by decide)
    (show Closes 34 false s from hq) hlen hcount htok fun i hi => filled_clearArgs args hi
  have hpos : 0 < (arguments s).length := tokensFrom_pos 32 34 false [] s
  have hname : programName s = (arguments s)[0] := by
    rw [programName, List.headD_eq_head?_getD, List.head?_eq_getElem?,
      List.getElem?_eq_getElem hpos]
    rfl
  refine ⟨args', hsplit, hargs, ?_, ?_⟩
  · rw [hname]
    exact hargs 0 hpos
  · rw [hname]
    exact htok _ (List.getElem_mem hpos)

variable (around) in
/-- Printing the strings and coming back. -/
lemma reports_foldlM (hk : Sound k.machine) {msgs : List (List UInt8)}
    (ht : ∀ msg ∈ msgs, IsText msg) (args : ℕ → ℤ → UInt8) :
    Reports around k ((msgs.foldlM (kputs around) { k with programArgs := args }).map .back)
      msgs := by
  obtain ⟨m, hm, hfold⟩ := foldlM_kputs (k := { k with programArgs := args }) hk ht
  exact ⟨{ k with programArgs := args, machine := m }, by rw [hfold]; rfl, hm, rfl, rfl, rfl⟩

lemma missing_text (h : IsText name) : ∀ msg ∈ missing name, IsText msg := by
  simp only [missing, List.forall_mem_cons]
  exact ⟨by simp [IsText], by simp [IsText, ascii], h, by simp [IsText, ascii], by simp [IsText],
    by simp⟩

lemma invalid_text : ∀ msg ∈ invalid, IsText msg := by simp [invalid, IsText, ascii]

/-- **Running a command** is all or nothing: the file that its first token names is entered
with the tokens as arguments, or a report is printed. -/
theorem run_command (hd : Packed fs files romdisk) (hk : Sound k.machine)
    (hs : IsString command 0 s) (hne : s ≠ []) (hlen : s.length < 2 ^ 31) (hb : NotBuiltIn s)
    (hq : s.count 34 % 2 = 0) (hcount : (arguments s).length ≤ 32)
    (htok : ∀ t ∈ arguments s, t.length ≤ 63) (filesize : ℕ → UInt8) :
    (∀ f, fileNamed files (programName s) = some f → magicBytes <+: f.contents →
      Runs (handleCommand around romdisk filesize command k) f (arguments s)) ∧
    (fileNamed files (programName s) = none →
      Reports around k (handleCommand around romdisk filesize command k)
        (missing (programName s))) ∧
    (∀ f, fileNamed files (programName s) = some f → 3 ≤ f.contents.length →
      ¬ magicBytes <+: f.contents →
      Reports around k (handleCommand around romdisk filesize command k) invalid) := by
  obtain ⟨args, hsplit, hargs, hname, hname63⟩ :=
    split_command hs hne hlen hq hcount htok k.programArgs
  obtain ⟨r, hr, hfound⟩ := hd.lookup hname
  rw [handleCommand_eq hs (by omega) hb]
  simp only [handleProgram, hsplit, hr, Option.bind_eq_bind, Option.bind_some]
  refine ⟨fun f hf hm => ?_, fun hf => ?_, fun f hf h3 hm => ?_⟩
  · rw [hf] at hfound
    obtain ⟨h0, hl, hst⟩ := hfound
    have hload := (memcmp_magic hst.from_start hm.length_le).mpr hm
    simp only [h0, loadProgram, hload, ne_eq, not_true_eq_false, if_false]
    refine ⟨_, _, _, rfl, rfl, Nat.mod_eq_of_lt (by omega), hargs, fun i hi => ?_, rfl,
      fun k => rfl⟩
    show memcpy k.program (fun n => romdisk (r.file + n)) r.length (0 + i) = _
    rw [Nat.zero_add, memcpy_apply, hl, if_pos hi]
    exact hst i hi
  · rw [hf] at hfound
    have htext : IsText (programName s) := ⟨by omega, hname.nonzero⟩
    simp only [hfound, reportMissing_eq hname (by omega)]
    have h := reports_foldlM around hk (missing_text htext) args
    rwa [Option.map_eq_bind] at h
  · rw [hf] at hfound
    obtain ⟨h0, hl, hst⟩ := hfound
    have hload := mt (memcmp_magic hst.from_start h3).mp hm
    simp only [h0, loadProgram, hload, ne_eq, not_true_eq_false, not_false_eq_true, if_false,
      if_true, reportInvalid_eq]
    have h := reports_foldlM around hk invalid_text args
    rwa [Option.map_eq_bind] at h

/-- A program of one byte behind the beginning, and a text. -/
def programAndText : List PackedFile :=
  [⟨[97], ascii "RUN", magicBytes ++ [195]⟩, ⟨[97], ascii "NOTE", ascii "HELLO"⟩]

/-- The file system that has the two files. -/
def programAndTextAt (path : List UInt8) : Option (List UInt8) :=
  (programAndText.find? fun f => f.path = path).map PackedFile.contents

lemma packed_programAndText : ∃ romdisk, Packed programAndTextAt programAndText romdisk := by
  have hok : ∀ f ∈ programAndText, f.Ok programAndTextAt := by
    simp only [programAndText, List.mem_cons, List.not_mem_nil, or_false]
    rintro f (rfl | rfl) <;> exact ⟨by simp, by simp [ascii], by simp [ascii], rfl⟩
  obtain ⟨image, him, -⟩ := main_disk hok (by decide) (by decide)
  exact ⟨fun i => image.getD i 0, hok, by decide, by decide, image, him,
    fun i hi => by simp [hi]⟩

/-- The kernel once it has booted. -/
lemma sound_boot (background : ℕ → UInt8) (mem : ℤ → UInt8) :
    Sound (Kernel.boot background mem).machine :=
  (initTerminal_sound (show 2 ≤ 16 ∧ 16 < 65536 by omega) (show 1 ≤ 32 ∧ 32 < 65536 by omega)
    background 0 (areaOk_boot mem)).1

/-- The command `RUN "A B" C` after the boot. -/
theorem run_command_two : ∃ romdisk,
    Runs (handleCommand (fun _ => 0) romdisk (fun _ => 0) (literal "RUN \"A B\" C")
      (.boot (fun _ => 0) fun _ => 0)) ⟨[97], ascii "RUN", magicBytes ++ [195]⟩
        [ascii "RUN", ascii "A B", ascii "C"] := by
  obtain ⟨romdisk, hd⟩ := packed_programAndText
  exact ⟨romdisk, (run_command hd (sound_boot _ _)
    (isString_literal "RUN \"A B\" C" (by simp [ascii])) (by decide) (by decide) (by decide)
    (by decide) (by decide) (by decide) fun _ => 0).1 _ rfl (by decide)⟩

end Mono98.CommandRun
