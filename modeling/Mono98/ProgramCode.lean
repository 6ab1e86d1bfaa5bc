import Mono98.Lib.Progress
import Mono98.Lib.X86
import Mono98.ShellPrograms
import Mono98.SyscallReads

/-!
The machine code of programs.

`load_program` calls the code of a program as a C function, and the program calls `syscall` as
one, through the pointer below its code. The two programs that come with the disk, one from the
assembler and one from the compiler, are executed byte by byte, with interrupts between any two
instructions.
-/

namespace Mono98.ProgramCode

open Mono98.Graphics Mono98.Tty Mono98.TextPage Mono98.LineInput Mono98.Process
open Mono98.RomdiskLookup Mono98.Packer Mono98.Command Mono98.CommandRun Mono98.Listing
open Mono98.Syscall Mono98.Shell Mono98.Console Mono98.ScreenPage Mono98.ShellAnswer
open Mono98.ShellRefines Mono98.ShellRun Mono98.ShellInput Mono98.ShellPrograms
open Mono98.SyscallReads Mono98.Strings Mono98.Keyboard
open Mono98.Lib.Bytes Mono98.Lib.Words Mono98.Lib.X86 Mono98.Lib.Progress

/-! ### The programs -/

/-- The programs in `romdisk/contents`. -/
inductive Sample
  | testasm
  | testc

/-- Their files. -/
def Sample.code : Sample → List UInt8
  | .testasm =>
    [0x50, 0x5C, 0xDE, 0x6A, 0x00, 0x6A, 0xFF, 0x68, 0xB9, 0x39, 0x33, 0x00, 0x6A, 0x01, 0x6A, 0x02,
     0x68, 0xB5, 0x39, 0x33, 0x00, 0xA1, 0x95, 0x39, 0x33, 0x00, 0xFF, 0xE0, 0x83, 0xC4, 0x14, 0xC3,
     0x68, 0x65, 0x6C, 0x6C, 0x6F, 0x2C, 0x20, 0x77, 0x6F, 0x72, 0x6C, 0x64, 0x20, 0x66, 0x72, 0x6F,
     0x6D, 0x20, 0x61, 0x73, 0x6D, 0x0A, 0x00]
  | .testc =>
    [0x50, 0x5C, 0xDE, 0x55, 0x89, 0xE5, 0x83, 0xEC, 0x04, 0x8B, 0x45, 0x08, 0x88, 0x45, 0xFC, 0xB8,
     0x00, 0x00, 0x00, 0x00, 0xC9, 0xC3, 0x55, 0x89, 0xE5, 0x83, 0xEC, 0x18, 0x8B, 0x45, 0x08, 0x88,
     0x45, 0xF4, 0x0F, 0xB6, 0x45, 0xF4, 0x83, 0xEC, 0x08, 0xFF, 0x75, 0x0C, 0x50, 0xE8, 0xD1, 0xFF,
     0xFF, 0xFF, 0x83, 0xC4, 0x10, 0xC9, 0xC3, 0x14, 0x00, 0x00, 0x00, 0x00, 0x00, 0x00, 0x00, 0x01,
     0x7A, 0x52, 0x00, 0x01, 0x7C, 0x08, 0x01, 0x1B, 0x0C, 0x04, 0x04, 0x88, 0x01, 0x00, 0x00, 0x1C,
     0x00, 0x00, 0x00, 0x1C, 0x00, 0x00, 0x00, 0xAC, 0xFF, 0xFF, 0xFF, 0x13, 0x00, 0x00, 0x00, 0x00,
     0x41, 0x0E, 0x08, 0x85, 0x02, 0x42, 0x0D, 0x05, 0x4F, 0xC5, 0x0C, 0x04, 0x04, 0x00, 0x00, 0x14,
     0x00, 0x00, 0x00, 0x00, 0x00, 0x00, 0x00, 0x01, 0x7A, 0x52, 0x00, 0x01, 0x7C, 0x08, 0x01, 0x1B,
     0x0C, 0x04, 0x04, 0x88, 0x01, 0x00, 0x00, 0x1C, 0x00, 0x00, 0x00, 0x1C, 0x00, 0x00, 0x00, 0x87,
     0xFF, 0xFF, 0xFF, 0x21, 0x00, 0x00, 0x00, 0x00, 0x41, 0x0E, 0x08, 0x85, 0x02, 0x42, 0x0D, 0x05,
     0x5D, 0xC5, 0x0C, 0x04, 0x04, 0x00, 0x00, 0x04, 0x00, 0x00, 0x00, 0x18, 0x00, 0x00, 0x00, 0x05,
     0x00, 0x00, 0x00, 0x47, 0x4E, 0x55, 0x00, 0x02, 0x00, 0x01, 0xC0, 0x04, 0x00, 0x00, 0x00, 0x00,
     0x00, 0x00, 0x00, 0x01, 0x00, 0x01, 0xC0, 0x04, 0x00, 0x00, 0x00, 0x01, 0x00, 0x00, 0x00, 0x04,
     0x00, 0x00, 0x00, 0x18, 0x00, 0x00, 0x00, 0x05, 0x00, 0x00, 0x00, 0x47, 0x4E, 0x55, 0x00, 0x02,
     0x00, 0x01, 0xC0, 0x04, 0x00, 0x00, 0x00, 0x00, 0x00, 0x00, 0x00, 0x01, 0x00, 0x01, 0xC0, 0x04,
     0x00, 0x00, 0x00, 0x01, 0x00, 0x00, 0x00]

/-- What they print. -/
def Sample.output : Sample → List UInt8
  | .testasm => ascii "hello, world from asm\n"
  | .testc => []

/-! ### The processor under the kernel -/

/-- `__syscall_location`: the word below the program that `kmain` sets to `&syscall`. -/
def syscallLocation : ℕ := 0x333995

/-- Where the kernel has `syscall`, the place behind the call in `load_program`, and the end of
its stack. All of it is below the programs. -/
structure KernelSpace where
  handler : ℕ
  back : ℕ
  top : ℕ
  handler_lt : handler < syscallLocation
  back_lt : back < syscallLocation
  top_le : top ≤ syscallLocation
  back_ne : back ≠ handler

/-- What the kernel leaves alone when it is entered: the stack of those that are waiting for it,
and the memory of the program. -/
def KernelSpace.Keeps (space : KernelSpace) (b : ℕ) : Prop :=
  b < space.top ∨ syscallLocation ≤ b

structure Hosted where
  cpu : Cpu
  kernel : Kernel

/-- The arguments of `syscall`, on the stack behind the return address. -/
def callOf (c : Cpu) (scancodes : ℕ → UInt16) (unused : ℕ → UInt8) : Call where
  syscallNo := c.mem (c.reg .esp + 4)
  arg1 := UInt32.ofNat (word c.mem (c.reg .esp + 8))
  buf := fun i => c.mem (word c.mem (c.reg .esp + 12) + i)
  arg3 := UInt32.ofNat (word c.mem (c.reg .esp + 16))
  scancodes := scancodes
  unused := unused

/-- How `syscall` comes back to its caller. Its arguments belong to its own frame; above that,
nothing that the kernel leaves alone changes but the buffer. -/
structure Returns (space : KernelSpace) (c : Cpu) (a : Answer) (c' : Cpu) : Prop where
  eip : c'.eip = c.top
  esp : c'.reg .esp = c.reg .esp + 4
  eax : c'.reg .eax = a.result % 2 ^ 32
  saved : ∀ r ∈ Reg.saved, c'.reg r = c.reg r
  mem : ∀ b, c.reg .esp + 24 ≤ b → space.Keeps b →
    c'.mem b = if word c.mem (c.reg .esp + 12) ≤ b then a.buf (b - word c.mem (c.reg .esp + 12))
      else c.mem b

variable (around : ℤ → ℕ) (space : KernelSpace)

/-- An instruction of the program, or a call that the kernel serves. -/
inductive Turn : Hosted → Hosted → Prop
  | instr {c c' k} (h : c.eip ≠ space.handler) (hs : c.step = some c') : Turn ⟨c, k⟩ ⟨c', k⟩
  | serve {c c' k a} (scancodes : ℕ → UInt16) (unused : ℕ → UInt8) (h : c.eip = space.handler)
    (ha : syscall around k (callOf c scancodes unused) = some a) (hr : Returns space c a c') :
    Turn ⟨c, k⟩ ⟨c', a.kernel⟩

/-- An interrupt, by way of `asm_interrupt_keyboard_handler` or `asm_interrupt_timer_handler`:
`pusha`, the call of the handler, `popa`, `iret`. -/
inductive Interrupt : Hosted → Hosted → Prop
  | mk {c c' k} (flags cs back : UInt32)
    (h : Returned space.Keeps ((c.trap flags cs).pusha.push back.toNat) c') :
    Interrupt ⟨c, k⟩ ⟨c'.popa.iret, k⟩

/-- Any number of interrupts, and a turn of the program. -/
inductive Step : Hosted → Hosted → Prop
  | turn {h h₁ h'} (hi : Relation.ReflTransGen (Interrupt space) h h₁)
    (ht : Turn around space h₁ h') : Step h h'

/-- `load_program` has called the program: the file is in memory, and the stack of the kernel has
room for what the program pushes and for an interrupt. -/
structure Called (entry : Entry) (k : Kernel) (len : ℕ) (c : Cpu) : Prop where
  eip : c.eip = entry.address
  back : c.top = space.back
  low : 72 ≤ c.reg .esp
  room : c.reg .esp + 12 ≤ space.top
  loaded : ∀ i < len, c.mem (programInjectionAddress + i) = k.program i
  pointer : word c.mem syscallLocation = space.handler

/-- The program has returned 0 to `load_program`, which finds its registers and its stack. -/
structure Ended (c₀ c : Cpu) : Prop where
  eip : c.eip = space.back
  esp : c.reg .esp = c₀.reg .esp + 4
  eax : c.reg .eax = 0
  saved : ∀ r ∈ Reg.saved, c.reg r = c₀.reg r
  stack : ∀ b, c₀.reg .esp ≤ b → b < space.top → c.mem b = c₀.mem b

/-! ### Interrupts -/

variable {around space} {Goal : Hosted → Prop} {c c' c₀ c₁ : Cpu} {k k₀ k₁ : Kernel} {i : Instr}
variable {code : List UInt8} {off n : ℕ} {vs : List ℕ}

/-- There is room for an interrupt on the stack. -/
structure Room (space : KernelSpace) (c : Cpu) : Prop where
  low : 48 ≤ c.reg .esp
  high : c.reg .esp ≤ space.top

lemma Room.keeps (h : Room space c) {b : ℕ} (hb : b < c.reg .esp) : space.Keeps b :=
  Or.inl (Nat.lt_of_lt_of_le hb h.high)

/-- Interrupts are not seen by the program. -/
lemma resumed_of_interrupts (hr : Room space c) (he : c.eip < 2 ^ 32) {h : Hosted}
    (hi : Relation.ReflTransGen (Interrupt space) ⟨c, k⟩ h) :
    ∃ c₁, h = ⟨c₁, k⟩ ∧ Resumed space.Keeps c c₁ := by
  induction hi with
  | refl => exact ⟨c, rfl, .refl _ c⟩
  | tail _ hi ih =>
    obtain ⟨c₁, rfl, h₁⟩ := ih
    cases hi with
    | mk flags cs back h =>
      refine ⟨_, rfl, h₁.trans (resumed_of_returned ?_ ?_ (fun a ha => ?_) flags cs back h)⟩
      · rw [h₁.reg]
        exact hr.low
      · rw [h₁.eip]
        exact he
      · rw [h₁.reg] at ha
        exact hr.keeps ha

/-- The next turn, whatever has interrupted the program. -/
lemma eventually_turn (hr : Room space c) (he : c.eip < 2 ^ 32)
    (some : ∃ h, Turn around space ⟨c, k⟩ h)
    (all : ∀ c₁ h, Resumed space.Keeps c c₁ → Turn around space ⟨c₁, k⟩ h →
      Eventually (Step around space) Goal h) :
    Eventually (Step around space) Goal ⟨c, k⟩ := by
  obtain ⟨h, ht⟩ := some
  refine .later ⟨h, .turn .refl ht⟩ fun h' hstep => ?_
  obtain ⟨hi, ht⟩ := hstep
  obtain ⟨c₁, rfl, h₁⟩ := resumed_of_interrupts hr he hi
  exact all c₁ h' h₁ ht

/-! ### Steps in the code -/

/-- Code that stands in the memory of programs stays there. -/
lemma stands_kept (hr : Room space c) (h : Stands c.mem programInjectionAddress code)
    (h₁ : Resumed space.Keeps c c₁) : Stands c₁.mem programInjectionAddress code := by
  intro j hj
  have := hr.high
  have := space.top_le
  have hle : syscallLocation ≤ programInjectionAddress := by decide
  rw [h₁.mem _ (by omega) (Or.inr (by omega))]
  exact h j hj

/-- An instruction of code that stands in memory. -/
lemma eventually_code (hr : Room space c) (hc : Stands c.mem programInjectionAddress code)
    (hlen : code.length < 2 ^ 31) (he : c.eip = programInjectionAddress + off)
    (hoff : off + 5 ≤ code.length)
    (hd : (decode fun k => code.getD (off + k) 0) = some (i, n))
    (h' : ∀ c₁, Resumed space.Keeps c c₁ → Eventually (Step around space) Goal
      ⟨{ c₁ with eip := programInjectionAddress + (off + n) }.exec i, k⟩) :
    Eventually (Step around space) Goal ⟨c, k⟩ := by
  have hbase : programInjectionAddress = 0x333999 := rfl
  have hstep : ∀ c₁, Resumed space.Keeps c c₁ →
      c₁.step = some ({ c₁ with eip := programInjectionAddress + (off + n) }.exec i) := by
    intro c₁ h₁
    have hs := step_code (stands_kept hr hc h₁) (h₁.eip.trans he) hoff hd
    rwa [Nat.add_assoc] at hs
  have hne : c.eip ≠ space.handler := by
    have hlt := space.handler_lt
    have : syscallLocation ≤ programInjectionAddress := by decide
    omega
  refine eventually_turn hr (by omega) ⟨_, .instr hne (hstep c (.refl _ c))⟩ fun c₁ h h₁ ht => ?_
  cases ht with
  | instr _ hs =>
    obtain rfl := Option.some.inj ((hstep c₁ h₁).symm.trans hs)
    exact h' c₁ h₁
  | serve _ _ he' => exact absurd (h₁.eip.symm.trans he') hne

/-- The program is at some place of its code, and has pushed some words. -/
structure At (space : KernelSpace) (c₀ : Cpu) (code : List UInt8) (off : ℕ) (vs : List ℕ)
    (c : Cpu) : Prop where
  eip : c.eip = programInjectionAddress + off
  pushed : Pushed space.Keeps c₀.mem (c₀.reg .esp) vs c
  code : Stands c.mem programInjectionAddress code
  saved : ∀ r ∈ Reg.saved, c.reg r = c₀.reg r

lemma At.kept (h : At space c₀ code off vs c) (hr : Room space c)
    (hs : c₀.reg .esp ≤ space.top) (h₁ : Resumed space.Keeps c c₁) :
    At space c₀ code off vs c₁ where
  eip := h₁.eip.trans h.eip
  pushed := h.pushed.kept (by rw [h₁.reg]) h₁.mem fun _ ha => Or.inl (Nat.lt_of_lt_of_le ha hs)
  code := stands_kept hr h.code h₁
  saved := h₁.reg ▸ h.saved

/-- A word is pushed. -/
lemma At.push (h : At space c₀ code off vs c) {v : ℕ} (room : 4 ≤ c.reg .esp)
    (hs : c₀.reg .esp ≤ programInjectionAddress) (hv : v < 2 ^ 32) :
    At space c₀ code (off + n) (vs ++ [v])
      ({ c with eip := programInjectionAddress + (off + n) }.push v) := by
  have hp : Pushed space.Keeps c₀.mem (c₀.reg .esp) vs
      { c with eip := programInjectionAddress + (off + n) } :=
    ⟨h.pushed.esp, h.pushed.words, h.pushed.frame⟩
  have hpush := hp.push room hv
  have hle : syscallLocation ≤ programInjectionAddress := by decide
  refine ⟨rfl, hpush, fun j hj => ?_, fun r hr => ?_⟩
  · have hk : space.Keeps (programInjectionAddress + j) := Or.inr (by omega)
    rw [hpush.frame _ (by omega) hk, ← h.pushed.frame _ (by omega) hk]
    exact h.code j hj
  · have hne : r ≠ .esp := by
      rintro rfl
      exact absurd hr (by decide)
    rw [Cpu.push_of_ne _ hne]
    exact h.saved r hr

/-- A register that the caller does not rely on is set. -/
lemma At.set (h : At space c₀ code off vs c) {r : Reg} (hr : r ∉ Reg.saved) (hne : r ≠ .esp)
    (v : ℕ) : At space c₀ code (off + n) vs
      ({ c with eip := programInjectionAddress + (off + n) }.set r v) where
  eip := rfl
  pushed := ⟨(Cpu.set_of_ne _ hne.symm v).symm ▸ h.pushed.esp, h.pushed.words, h.pushed.frame⟩
  code := h.code
  saved := fun r' hr' => by
    have hr'' : r' ≠ r := fun he => hr (he ▸ hr')
    exact (Cpu.set_of_ne _ hr'' v).trans (h.saved r' hr')

/-- An instruction that pushes a word; there are at most six of them. -/
lemma At.pushes {entry : Entry} {len : ℕ} (hc : Called space entry k len c₀)
    (h : At space c₀ code off vs c) {v : ℕ} (hlen : code.length < 2 ^ 31) (hvs : vs.length < 6)
    (hv : v < 2 ^ 32) (hoff : off + 5 ≤ code.length)
    (hd : (decode fun k => code.getD (off + k) 0) = some (i, n))
    (hi : ∀ c' : Cpu, c'.reg = c.reg → c'.exec i = c'.push v)
    (h' : ∀ c', At space c₀ code (off + n) (vs ++ [v]) c' →
      Eventually (Step around space) Goal ⟨c', k⟩) :
    Eventually (Step around space) Goal ⟨c, k⟩ := by
  have hesp := h.pushed.esp
  have low := hc.low
  have hroom := hc.room
  have htop := space.top_le
  have hle : syscallLocation ≤ programInjectionAddress := by decide
  have hr : Room space c := ⟨by omega, by omega⟩
  refine eventually_code hr h.code hlen h.eip hoff hd fun c₁ h₁ => ?_
  rw [hi { c₁ with eip := programInjectionAddress + (off + n) } h₁.reg]
  have hreg : c₁.reg .esp = c.reg .esp := by rw [h₁.reg]
  exact h' _ ((h.kept hr (by omega) h₁).push (by omega) (by omega) hv)

/-- Where the program is entered. -/
lemma Called.at_start {entry : Entry} (h : Called space entry k code.length c)
    (ha : entry.address = programInjectionAddress + 3) (hcode : Stands k.program 0 code) :
    At space c code 3 [] c where
  eip := h.eip.trans ha
  pushed := pushed_nil _ c
  code := by
    intro j hj
    rw [h.loaded j hj, ← hcode j hj, Nat.zero_add]
  saved := fun _ _ => rfl

/-- The program is about to return, with `n` bytes left on the stack. -/
structure Leaving (space : KernelSpace) (c₀ : Cpu) (code : List UInt8) (off n : ℕ) (c : Cpu) :
    Prop where
  eip : c.eip = programInjectionAddress + off
  code : Stands c.mem programInjectionAddress code
  esp : c.reg .esp + n = c₀.reg .esp
  eax : c.reg .eax = 0
  saved : ∀ r ∈ Reg.saved, c.reg r = c₀.reg r
  mem : ∀ b, c₀.reg .esp ≤ b → space.Keeps b → c.mem b = c₀.mem b

lemma Leaving.kept (h : Leaving space c₀ code off n c) (hr : Room space c)
    (h₁ : Resumed space.Keeps c c₁) : Leaving space c₀ code off n c₁ where
  eip := h₁.eip.trans h.eip
  code := stands_kept hr h.code h₁
  esp := h₁.reg ▸ h.esp
  eax := h₁.reg ▸ h.eax
  saved := h₁.reg ▸ h.saved
  mem := fun b hb hk => by
    have := h.esp
    exact (h₁.mem b (by omega) hk).trans (h.mem b hb hk)

/-- `ret`. -/
lemma Leaving.returns {entry : Entry} {len : ℕ} (hc : Called space entry k₁ len c₀)
    (h : Leaving space c₀ code off 0 c) (hlen : code.length < 2 ^ 31) (hoff : off + 5 ≤ code.length)
    (hd : (decode fun k => code.getD (off + k) 0) = some (.ret, n))
    (h' : ∀ c', Ended space c₀ c' → Goal ⟨c', k⟩) :
    Eventually (Step around space) Goal ⟨c, k⟩ := by
  have low := hc.low
  have hroom := hc.room
  have htop := space.top_le
  have hbelow : syscallLocation = 0x333995 := rfl
  have hesp := h.esp
  have hr : Room space c := ⟨by omega, by omega⟩
  refine eventually_code hr h.code hlen h.eip hoff hd fun c₁ h₁ => .now (h' _ ?_)
  obtain ⟨-, -, hesp, heax, hsaved, hmem⟩ := h.kept hr h₁
  have hne : ∀ r ∈ Reg.saved, r ≠ .esp := by decide
  refine ⟨?_, ?_, ?_, fun r hs => ?_, fun b h₁ h₂ => hmem b h₁ (Or.inl h₂)⟩
  · rw [← hc.back]
    show word c₁.mem (c₁.reg .esp) = word c₀.mem (c₀.reg .esp)
    rw [← hesp, Nat.add_zero]
    exact load_congr fun b h₁ h₂ => hmem b (by omega) (Or.inl (by omega))
  · show (c₁.set .esp (c₁.reg .esp + 4)).reg .esp = _
    rw [Cpu.set_self, Nat.mod_eq_of_lt (by omega)]
    omega
  · show (c₁.set .esp (c₁.reg .esp + 4)).reg .eax = _
    rw [Cpu.set_of_ne _ (by decide), heax]
  · show (c₁.set .esp (c₁.reg .esp + 4)).reg r = _
    rw [Cpu.set_of_ne _ (hne r hs), hsaved r hs]

/-! ### Calls -/

lemma exists_returns (hr : Room space c) (a : Answer) : ∃ c', Returns space c a c' := by
  have htop := space.top_le
  have hbelow : syscallLocation = 0x333995 := rfl
  have hhigh := hr.high
  have hne : ∀ r ∈ Reg.saved, r ≠ .esp ∧ r ≠ .eax := by decide
  let c₁ := c.set .eax a.result
  let c₂ := c₁.set .esp (c.reg .esp + 4)
  refine ⟨{ c₂ with
    eip := c.top
    mem := fun b => if word c.mem (c.reg .esp + 12) ≤ b then
      a.buf (b - word c.mem (c.reg .esp + 12)) else c.mem b }, rfl, ?_, ?_, fun r hs => ?_,
    fun b _ _ => rfl⟩
  · show c₂.reg .esp = _
    rw [Cpu.set_self, Nat.mod_eq_of_lt (by omega)]
  · show c₂.reg .eax = _
    rw [Cpu.set_of_ne _ (by decide), Cpu.set_self]
  · show c₂.reg r = _
    rw [Cpu.set_of_ne _ (hne r hs).1, Cpu.set_of_ne _ (hne r hs).2]

variable {t₀ : Terminal} {p : Page}

/-- A call of `syscall`, whatever the compiled code leaves behind. -/
lemma eventually_serve (hr : Room space c) (he : c.eip = space.handler)
    (hp : Presents t₀ k.machine p) (heap : k.mallocStart < 2 ^ 32)
    (prints : ∀ c₁, Resumed space.Keeps c c₁ → ∀ s u, (callOf c₁ s u).Prints)
    (h' : ∀ c₁, Resumed space.Keeps c c₁ → ∀ s u a c',
      syscall around k (callOf c₁ s u) = some a →
      Served around t₀ p k a.kernel [callOf c₁ s u] → Returns space c₁ a c' →
        Eventually (Step around space) Goal ⟨c', a.kernel⟩) :
    Eventually (Step around space) Goal ⟨c, k⟩ := by
  have hlt := space.handler_lt
  have hbelow : syscallLocation = 0x333995 := rfl
  refine eventually_turn hr (by omega) ?_ fun c₁ h h₁ ht => ?_
  · obtain ⟨a, ha, -⟩ := served_call around hp heap (prints c (.refl _ c) (fun _ => 0) fun _ => 0)
    obtain ⟨c', hret⟩ := exists_returns hr a
    exact ⟨_, .serve _ _ he ha hret⟩
  · cases ht with
    | instr hne _ => exact absurd (h₁.eip.trans he) hne
    | @serve _ c' _ a s u _ ha hret =>
      obtain ⟨a', ha', hs⟩ := served_call around hp heap (prints c₁ h₁ s u)
      obtain rfl := Option.some.inj (ha.symm.trans ha')
      exact h' c₁ h₁ s u a c' ha hs hret

/-! ### The program from the assembler -/

/-- The program has come back, and its calls have printed `output`. -/
structure Done (around : ℤ → ℕ) (space : KernelSpace) (t₀ : Terminal) (p : Page) (c₀ : Cpu)
    (k₀ : Kernel) (output : List UInt8) (h : Hosted) : Prop where
  ended : Ended space c₀ h.cpu
  calls : ∃ calls, (∀ c ∈ calls, Call.Prints c) ∧ written calls = output ∧
    runCalls around k₀ calls = some h.kernel ∧ Served around t₀ p k₀ h.kernel calls

/-- The words that are pushed: the arguments from the last to the first, and where to return. -/
def testasmWords : List ℕ := [0, 0xFFFFFFFF, 0x3339B9, 1, 2, 0x3339B5]

lemma testasm_pushes {entry : Entry} (hc : Called space entry k Sample.testasm.code.length c)
    (h : At space c Sample.testasm.code 3 [] c)
    (h' : ∀ c', At space c Sample.testasm.code 21 testasmWords c' →
      Eventually (Step around space) Goal ⟨c', k⟩) :
    Eventually (Step around space) Goal ⟨c, k⟩ := by
  have hlen : Sample.testasm.code.length < 2 ^ 31 := by decide
  refine h.pushes hc hlen (by decide) (by decide) (by decide) rfl (fun _ _ => rfl) fun c₁ h₁ => ?_
  refine h₁.pushes hc hlen (by decide) (by decide) (by decide) rfl (fun _ _ => rfl) fun c₂ h₂ => ?_
  refine h₂.pushes hc hlen (by decide) (by decide) (by decide) rfl (fun _ _ => rfl) fun c₃ h₃ => ?_
  refine h₃.pushes hc hlen (by decide) (by decide) (by decide) rfl (fun _ _ => rfl) fun c₄ h₄ => ?_
  refine h₄.pushes hc hlen (by decide) (by decide) (by decide) rfl (fun _ _ => rfl) fun c₅ h₅ => ?_
  exact h₅.pushes hc hlen (by decide) (by decide) (by decide) rfl (fun _ _ => rfl) h'

/-- In front of the call: the words are on the stack, and the kernel is entered. -/
structure Calling (space : KernelSpace) (c₀ c : Cpu) : Prop where
  eip : c.eip = space.handler
  pushed : Pushed space.Keeps c₀.mem (c₀.reg .esp) testasmWords c
  code : Stands c.mem programInjectionAddress Sample.testasm.code
  saved : ∀ r ∈ Reg.saved, c.reg r = c₀.reg r

lemma Calling.kept (h : Calling space c₀ c) (hr : Room space c) (hs : c₀.reg .esp ≤ space.top)
    (h₁ : Resumed space.Keeps c c₁) : Calling space c₀ c₁ where
  eip := h₁.eip.trans h.eip
  pushed := h.pushed.kept (by rw [h₁.reg]) h₁.mem fun _ ha => Or.inl (Nat.lt_of_lt_of_le ha hs)
  code := stands_kept hr h.code h₁
  saved := h₁.reg ▸ h.saved

/-- The words on the stack are the call `write(1, str, -1)`. -/
lemma Calling.callOf (h : Calling space c₀ c) (s : ℕ → UInt16) (u : ℕ → UInt8) :
    (callOf c s u).kind = some .write ∧ (callOf c s u).fd = 1 ∧
      IsString (callOf c s u).buf 0 (Sample.output .testasm) := by
  have hno : word c.mem (c.reg .esp + 4) = 2 := h.pushed.at (show 1 < 6 by decide)
  have hfd : word c.mem (c.reg .esp + 8) = 1 := h.pushed.at (show 2 < 6 by decide)
  have hstr : word c.mem (c.reg .esp + 12) = 0x3339B9 := h.pushed.at (show 3 < 6 by decide)
  have hcode := h.code
  have hsplit : Sample.testasm.code =
      Sample.testasm.code.take 32 ++ (Sample.output .testasm ++ [0]) := by decide
  rw [hsplit, stands_append, stands_append] at hcode
  obtain ⟨-, htext, hzero⟩ := hcode
  refine ⟨?_, ?_, ?_, by decide +kernel, ?_⟩
  · rw [Call.kind, ProgramCode.callOf, toNat_word, hno]
    rfl
  · rw [Call.fd, ProgramCode.callOf, hfd]
    rfl
  · intro j hj
    simp only [ProgramCode.callOf, hstr, Nat.zero_add]
    exact htext j hj
  · simp only [ProgramCode.callOf, hstr, Nat.zero_add]
    exact hzero 0 (by decide)

/-- What `syscall` leaves behind when the program has called it. -/
lemma Calling.returned {entry : Entry} {len : ℕ} (hc : Called space entry k₁ len c₀)
    (h : Calling space c₀ c) {a : Answer} {s : ℕ → UInt16} {u : ℕ → UInt8}
    (ha : syscall around k (ProgramCode.callOf c s u) = some a) (hr : Returns space c a c') :
    Leaving space c₀ Sample.testasm.code 28 20 c' := by
  have hroom := hc.room
  have htop := space.top_le
  have hbelow : syscallLocation = 0x333995 := rfl
  have hbase : programInjectionAddress = 0x333999 := rfl
  obtain ⟨hkind, hfd, -⟩ := h.callOf s u
  have hesp : c.reg .esp + 24 = c₀.reg .esp := h.pushed.esp
  have hback : c.top = 0x3339B5 := h.pushed.at (show 0 < 6 by decide)
  have hbuf : a.buf = (ProgramCode.callOf c s u).buf :=
    syscall_buf ha fun hread => by
      rw [hkind] at hread
      cases hread.1
  have hresult : a.result = 0 := by
    simp only [syscall, hkind, sysWrite, hfd, if_true] at ha
    obtain ⟨m, -, rfl⟩ := Option.map_eq_some_iff.mp ha
    rfl
  have hmem : ∀ b, c₀.reg .esp ≤ b → space.Keeps b → c'.mem b = c.mem b := by
    intro b hb hk
    rw [hr.mem b (by omega) hk, hbuf]
    split
    · next hle => simp only [ProgramCode.callOf, Nat.add_sub_cancel' hle]
    · rfl
  refine ⟨hr.eip.trans hback, fun j hj => ?_, ?_, ?_, fun r hs => ?_, fun b hb hk => ?_⟩
  · rw [hmem _ (by omega) (Or.inr (by omega))]
    exact h.code j hj
  · rw [hr.esp]
    omega
  · rw [hr.eax, hresult, Nat.zero_mod]
  · rw [hr.saved r hs, h.saved r hs]
  · exact (hmem b hb hk).trans (h.pushed.frame b hb hk)

/-- From the call on: the text is printed, and the program returns. -/
lemma Calling.printed {entry : Entry} (hc : Called space entry k Sample.testasm.code.length c₀)
    (h : Calling space c₀ c) (hp : Presents t₀ k.machine p) (heap : k.mallocStart < 2 ^ 32) :
    Eventually (Step around space) (Done around space t₀ p c₀ k (Sample.output .testasm))
      ⟨c, k⟩ := by
  have low := hc.low
  have hroom := hc.room
  have htop := space.top_le
  have hbelow : syscallLocation = 0x333995 := rfl
  have hlen : Sample.testasm.code.length < 2 ^ 31 := by decide
  have hesp : c.reg .esp + 24 = c₀.reg .esp := h.pushed.esp
  have hr : Room space c := ⟨by omega, by omega⟩
  refine eventually_serve hr h.eip hp heap (fun c₁ h₁ s u _ _ => ?_)
    fun c₁ h₁ s u a c₂ hcall hserved hret => ?_
  · obtain ⟨-, -, hstr⟩ := (h.kept hr (by omega) h₁).callOf s u
    exact ⟨_, hstr, by decide⟩
  have h := h.kept hr (by omega) h₁
  obtain ⟨hkind, hfd, hstr⟩ := h.callOf s u
  have h₂ := h.returned hc hcall hret
  have hesp := h₂.esp
  have hr₂ : Room space c₂ := ⟨by omega, by omega⟩
  -- the arguments are dropped, and the program returns
  refine eventually_code hr₂ h₂.code hlen h₂.eip (by decide)
    (show _ = some (Instr.add .esp 20, 3) from rfl) fun c₃ h₃ => ?_
  obtain ⟨-, hcode, hesp, heax, hsaved, hmem⟩ := h₂.kept hr₂ h₃
  have hne : ∀ r ∈ Reg.saved, r ≠ .esp := by decide
  refine Leaving.returns hc ⟨rfl, hcode, ?_, ?_, fun r hs => ?_, hmem⟩ hlen (by decide)
    (show _ = some (Instr.ret, 1) from rfl) fun c' hended =>
      ⟨hended, [ProgramCode.callOf c₁ s u], ?_, ?_, ?_, hserved⟩
  · show (c₃.set .esp (c₃.reg .esp + 20)).reg .esp + 0 = _
    rw [Cpu.set_self, Nat.mod_eq_of_lt (by omega), Nat.add_zero, hesp]
  · show (c₃.set .esp (c₃.reg .esp + 20)).reg .eax = _
    rw [Cpu.set_of_ne _ (by decide), heax]
  · show (c₃.set .esp (c₃.reg .esp + 20)).reg r = _
    rw [Cpu.set_of_ne _ (hne r hs), hsaved r hs]
  · rintro _ (_ | ⟨_, ⟨⟩⟩) - -
    exact ⟨_, hstr, by decide⟩
  · rw [written_single, if_pos ⟨hkind, hfd⟩, textAt_eq hstr (by decide)]
  · rw [runCalls, List.foldlM_cons, hcall]
    rfl

/-- **The program from the assembler** prints its text and returns. -/
lemma testasm_done {entry : Entry} (hc : Called space entry k Sample.testasm.code.length c)
    (ha : entry.address = programInjectionAddress + 3)
    (hcode : Stands k.program 0 Sample.testasm.code) (hp : Presents t₀ k.machine p)
    (heap : k.mallocStart < 2 ^ 32) :
    Eventually (Step around space) (Done around space t₀ p c k (Sample.output .testasm))
      ⟨c, k⟩ := by
  have low := hc.low
  have hroom := hc.room
  have htop := space.top_le
  have hbelow : syscallLocation = 0x333995 := rfl
  have hlen : Sample.testasm.code.length < 2 ^ 31 := by decide
  refine testasm_pushes hc (hc.at_start ha hcode) fun c₁ h₁ => ?_
  have hesp : c₁.reg .esp + 24 = c.reg .esp := h₁.pushed.esp
  have hr₁ : Room space c₁ := ⟨by omega, by omega⟩
  -- the pointer is fetched, and the kernel is entered with the words on the stack
  refine eventually_code hr₁ h₁.code hlen h₁.eip (by decide)
    (show _ = some (Instr.loadAbs syscallLocation, 5) from rfl) fun c₂ h₂ => ?_
  have h₂ := h₁.kept hr₁ (by omega) h₂
  have hpointer : word c₂.mem syscallLocation = space.handler := by
    rw [← hc.pointer]
    exact load_congr fun b hb _ => h₂.pushed.frame b (by omega) (Or.inr hb)
  have h₃ := h₂.set (n := 5) (show Reg.eax ∉ Reg.saved by decide) (by decide)
    (word c₂.mem syscallLocation)
  have hesp₃ := h₃.pushed.esp
  have hwords : testasmWords.length = 6 := rfl
  have hr₃ : Room space ({ c₂ with eip := programInjectionAddress + (21 + 5) }.set .eax
    (word c₂.mem syscallLocation)) := ⟨by omega, by omega⟩
  refine eventually_code hr₃ h₃.code hlen h₃.eip (by decide)
    (show _ = some (Instr.jmp .eax, 2) from rfl) fun c₄ h₄ => ?_
  obtain ⟨-, ⟨hesp, hwords, hframe⟩, hcode, hsaved⟩ := h₃.kept hr₃ (by omega) h₄
  refine Calling.printed hc ⟨?_, ⟨hesp, hwords, hframe⟩, hcode, hsaved⟩ hp heap
  have heax : c₄.reg .eax = word c₂.mem syscallLocation % 2 ^ 32 := by
    rw [h₄.reg]
    exact Cpu.set_self _ _ _
  have hlt := space.handler_lt
  exact heax.trans (by rw [hpointer, Nat.mod_eq_of_lt (by omega)])

/-! ### The program from the compiler -/

/-- The frame of a function: the caller's `ebp` has been pushed, `ebp` points to it, and there are
`m` bytes below it. -/
structure Frame (space : KernelSpace) (c₀ : Cpu) (code : List UInt8) (off m : ℕ) (c : Cpu) :
    Prop where
  eip : c.eip = programInjectionAddress + off
  code : Stands c.mem programInjectionAddress code
  ebp : c.reg .ebp + 4 = c₀.reg .esp
  esp : c.reg .esp + m = c.reg .ebp
  word : word c.mem (c.reg .ebp) = c₀.reg .ebp
  saved : ∀ r ∈ Reg.saved, r ≠ .ebp → c.reg r = c₀.reg r
  mem : ∀ b, c₀.reg .esp ≤ b → space.Keeps b → c.mem b = c₀.mem b

variable {m : ℕ}

lemma Frame.room {entry : Entry} {len : ℕ} (hc : Called space entry k₁ len c₀)
    (h : Frame space c₀ code off m c) (hm : m ≤ 20) : Room space c := by
  have hebp := h.ebp
  have hesp := h.esp
  have low := hc.low
  have hroom := hc.room
  exact ⟨by omega, by omega⟩

lemma Frame.kept (h : Frame space c₀ code off m c) (hr : Room space c)
    (hs : c₀.reg .esp ≤ space.top) (h₁ : Resumed space.Keeps c c₁) :
    Frame space c₀ code off m c₁ where
  eip := h₁.eip.trans h.eip
  code := stands_kept hr h.code h₁
  ebp := h₁.reg ▸ h.ebp
  esp := h₁.reg ▸ h.esp
  word := by
    have hebp := h.ebp
    have hesp := h.esp
    rw [h₁.reg, ← h.word]
    exact load_congr fun b hb hb' => h₁.mem b (by omega) (Or.inl (by omega))
  saved := h₁.reg ▸ h.saved
  mem := fun b hb hk => by
    have hebp := h.ebp
    have hesp := h.esp
    exact (h₁.mem b (by omega) hk).trans (h.mem b hb hk)

/-- `push ebp` and `mov ebp, esp`. -/
lemma Called.frame {entry : Entry} (hc : Called space entry k code.length c)
    (ha : entry.address = programInjectionAddress + 3) (hcode : Stands k.program 0 code)
    (hlen : 9 ≤ code.length ∧ code.length < 2 ^ 31)
    (hpush : (decode fun k => code.getD (3 + k) 0) = some (.push .ebp, 1))
    (hmov : (decode fun k => code.getD (4 + k) 0) = some (.mov .ebp .esp, 2))
    (h' : ∀ c', Frame space c code 6 0 c' → Eventually (Step around space) Goal ⟨c', k⟩) :
    Eventually (Step around space) Goal ⟨c, k⟩ := by
  have low := hc.low
  have hroom := hc.room
  refine (hc.at_start ha hcode).pushes hc hlen.2 (by decide) (c.reg_lt .ebp) (by omega) hpush
    (fun c' h => by rw [← h]; rfl) fun c₁ h₁ => ?_
  have hesp : c₁.reg .esp + 4 = c.reg .esp := h₁.pushed.esp
  have hr : Room space c₁ := ⟨by omega, by omega⟩
  refine eventually_code hr h₁.code hlen.2 h₁.eip (by omega) hmov fun c₂ h₂ => ?_
  have hreg : c₂.reg .esp = c₁.reg .esp := by rw [h₂.reg]
  have h₂ := h₁.kept hr (by omega) h₂
  let c₃ : Cpu := { c₂ with eip := programInjectionAddress + 6 }.set .ebp (c₂.reg .esp)
  have hebp : c₃.reg .ebp = c₂.reg .esp :=
    (Cpu.set_self _ _ _).trans (Nat.mod_eq_of_lt (c₂.reg_lt .esp))
  have hne : ∀ r ≠ Reg.ebp, c₃.reg r = c₂.reg r := fun r hr => Cpu.set_of_ne _ hr _
  refine h' c₃ ⟨rfl, h₂.code, ?_, ?_, ?_, fun r hs hr => ?_, h₂.pushed.frame⟩
  · rw [hebp, hreg, hesp]
  · rw [hebp, hne .esp (by decide), Nat.add_zero]
  · rw [hebp]
    exact h₂.pushed.at (show 0 < 1 by decide)
  · rw [hne r hr]
    exact h₂.saved r hs

/-- A register that the caller does not rely on is set. -/
lemma Frame.set (h : Frame space c₀ code off m c) {r : Reg} (hr : r ∉ Reg.saved) (hesp : r ≠ .esp)
    (v : ℕ) :
    Frame space c₀ code (off + n) m
      ({ c with eip := programInjectionAddress + (off + n) }.set r v) := by
  have hne : ∀ r' ∈ Reg.saved, r' ≠ r := fun r' hr' he => hr (he ▸ hr')
  have hset : ∀ r' ≠ r, ({ c with eip := programInjectionAddress + (off + n) }.set r v).reg r' =
      c.reg r' := fun r' hr' => Cpu.set_of_ne _ hr' v
  have hebp := hset .ebp (hne .ebp (by decide))
  refine ⟨rfl, h.code, hebp ▸ h.ebp, ?_, hebp ▸ h.word, fun r' hr' he => ?_, h.mem⟩
  · rw [hset _ hesp.symm, hebp]
    exact h.esp
  · rw [hset r' (hne r' hr')]
    exact h.saved r' hr' he

/-- `sub esp, n`. -/
lemma Frame.sub (h : Frame space c₀ code off 0 c) {v : ℕ} (hv : v ≤ c.reg .esp) :
    Frame space c₀ code (off + n) v
      ({ c with eip := programInjectionAddress + (off + n) }.set .esp
        (c.reg .esp + (2 ^ 32 - v))) := by
  have hlt := c.reg_lt .esp
  have hesp := h.esp
  have hset : ∀ r ≠ Reg.esp, ({ c with eip := programInjectionAddress + (off + n) }.set .esp
      (c.reg .esp + (2 ^ 32 - v))).reg r = c.reg r := fun r hr => Cpu.set_of_ne _ hr _
  have hebp := hset .ebp (by decide)
  refine ⟨rfl, h.code, hebp ▸ h.ebp, ?_, hebp ▸ h.word, fun r hr he => ?_, h.mem⟩
  · rw [hebp, Cpu.set_self]
    omega
  · have hne : ∀ r ∈ Reg.saved, r ≠ .esp := by decide
    rw [hset r (hne r hr)]
    exact h.saved r hr he

/-- An instruction that sets such a register. -/
lemma Frame.sets {entry : Entry} {len : ℕ} (hc : Called space entry k₁ len c₀)
    (h : Frame space c₀ code off m c) (hm : m ≤ 20) (hlen : code.length < 2 ^ 31)
    (hoff : off + 5 ≤ code.length)
    (hd : (decode fun k => code.getD (off + k) 0) = some (i, n)) {r : Reg} (hr : r ∉ Reg.saved)
    (hesp : r ≠ .esp) {v : Cpu → ℕ} (hi : ∀ c : Cpu, c.exec i = c.set r (v c))
    (h' : ∀ c', Frame space c₀ code (off + n) m c' →
      (∀ w, (∀ c, v c = w) → c'.reg r = w % 2 ^ 32) →
      Eventually (Step around space) Goal ⟨c', k⟩) :
    Eventually (Step around space) Goal ⟨c, k⟩ := by
  have hroom := hc.room
  refine eventually_code (h.room hc hm) h.code hlen h.eip hoff hd fun c₁ h₁ => ?_
  rw [hi]
  refine h' _ ((h.kept (h.room hc hm) (by omega) h₁).set hr hesp _) fun w hw => ?_
  rw [Cpu.set_self, hw]

/-- A byte is stored below the frame. -/
lemma Frame.stores {entry : Entry} {len : ℕ} (hc : Called space entry k₁ len c₀)
    (h : Frame space c₀ code off m c) (hm : m ≤ 20) (hlen : code.length < 2 ^ 31)
    (hoff : off + 5 ≤ code.length) {r : Reg}
    (hd : (decode fun k => code.getD (off + k) 0) = some (.storeByte .ebp (sext 0xFC) r, n))
    (h' : ∀ c', Frame space c₀ code (off + n) m c' → Eventually (Step around space) Goal ⟨c', k⟩) :
    Eventually (Step around space) Goal ⟨c, k⟩ := by
  have hroom := hc.room
  have htop := space.top_le
  have low := hc.low
  have hbelow : syscallLocation = 0x333995 := rfl
  have hbase : programInjectionAddress = 0x333999 := rfl
  refine eventually_code (h.room hc hm) h.code hlen h.eip hoff hd fun c₁ h₁ => ?_
  have h := h.kept (h.room hc hm) (by omega) h₁
  have hebp := h.ebp
  have ha : (c₁.reg .ebp + sext 0xFC) % 2 ^ 32 + 4 = c₁.reg .ebp := by
    have : sext 0xFC = 2 ^ 32 - 4 := rfl
    omega
  have hmem : ∀ b, c₁.reg .ebp ≤ b → Function.update c₁.mem ((c₁.reg .ebp + sext 0xFC) % 2 ^ 32)
      (UInt8.ofNat (c₁.reg r)) b = c₁.mem b :=
    fun b hb => Function.update_of_ne (by omega) ..
  have hcode : Stands (Function.update c₁.mem ((c₁.reg .ebp + sext 0xFC) % 2 ^ 32)
      (UInt8.ofNat (c₁.reg r))) programInjectionAddress code := by
    intro j hj
    rw [hmem _ (by omega)]
    exact h.code j hj
  simp only [Cpu.exec]
  refine h' _ ⟨rfl, hcode, h.ebp, h.esp, ?_, h.saved, fun b hb hk => ?_⟩
  · rw [← h.word]
    exact load_congr fun b hb _ => hmem b hb
  · rw [← h.mem b hb hk]
    exact hmem b (by omega)

/-- `leave` and `ret`. -/
lemma Frame.returns {entry : Entry} {len : ℕ} (hc : Called space entry k₁ len c₀)
    (h : Frame space c₀ code off m c) (hm : m ≤ 20) (hlen : code.length < 2 ^ 31)
    (hoff : off + 6 ≤ code.length) (heax : c.reg .eax = 0)
    (hleave : (decode fun k => code.getD (off + k) 0) = some (.leave, 1))
    (hret : (decode fun k => code.getD (off + 1 + k) 0) = some (.ret, 1))
    (h' : ∀ c', Ended space c₀ c' → Goal ⟨c', k⟩) :
    Eventually (Step around space) Goal ⟨c, k⟩ := by
  have hroom := hc.room
  have htop := space.top_le
  have hbelow : syscallLocation = 0x333995 := rfl
  refine eventually_code (h.room hc hm) h.code hlen h.eip (by omega) hleave fun c₁ h₁ => ?_
  have heax : c₁.reg .eax = 0 := by rw [h₁.reg, heax]
  have h := h.kept (h.room hc hm) (by omega) h₁
  have hebp := h.ebp
  have hlt : c₁.reg .ebp % 2 ^ 32 = c₁.reg .ebp := Nat.mod_eq_of_lt (c₁.reg_lt .ebp)
  refine Leaving.returns hc ⟨rfl, h.code, ?_, ?_, fun r hr => ?_, h.mem⟩ hlen (by omega) hret h'
  · simp only [Cpu.exec, Cpu.pop, Cpu.set_self, ne_eq, reduceCtorEq, not_false_eq_true,
      Cpu.set_of_ne, hlt]
    omega
  · simp only [Cpu.exec, Cpu.pop, ne_eq, reduceCtorEq, not_false_eq_true, Cpu.set_of_ne]
    exact heax
  · have hne : r ≠ .esp := by
      rintro rfl
      exact absurd hr (by decide)
    by_cases hr' : r = .ebp
    · simp only [hr', Cpu.exec, Cpu.pop, Cpu.top, Cpu.set_self, Cpu.set_mem, hlt, h.word]
      exact Nat.mod_eq_of_lt (c₀.reg_lt .ebp)
    · simp only [Cpu.exec, Cpu.pop, ne_eq, hne, hr', not_false_eq_true, Cpu.set_of_ne]
      exact h.saved r hr hr'

/-- **The program from the compiler** returns 0, and calls nothing. -/
lemma testc_done {entry : Entry} (hc : Called space entry k Sample.testc.code.length c)
    (ha : entry.address = programInjectionAddress + 3)
    (hcode : Stands k.program 0 Sample.testc.code) (hp : Presents t₀ k.machine p)
    (heap : k.mallocStart < 2 ^ 32) :
    Eventually (Step around space) (Done around space t₀ p c k (Sample.output .testc)) ⟨c, k⟩ := by
  have low := hc.low
  have hroom := hc.room
  have hlen : Sample.testc.code.length = 247 := by decide +kernel
  refine hc.frame ha hcode (by omega) rfl rfl fun c₁ h₁ => ?_
  -- `argc` goes through `eax` into the frame
  refine eventually_code (h₁.room hc (by decide)) h₁.code (by omega) h₁.eip (by omega)
    (show _ = some (Instr.sub .esp 4, 3) from rfl) fun c₂ h₂ => ?_
  have h₂ := h₁.kept (h₁.room hc (by decide)) (by omega) h₂
  have hebp := h₂.ebp
  have hesp := h₂.esp
  have h₃ := h₂.sub (n := 3) (show 4 ≤ c₂.reg .esp by omega)
  refine h₃.sets hc (by decide) (by omega) (by omega)
    (show _ = some (Instr.load .eax .ebp 8, 3) from rfl) (show Reg.eax ∉ Reg.saved by decide)
    (by decide) (fun _ => rfl) fun c₃ h₃ _ => ?_
  refine h₃.stores hc (by decide) (by omega) (by omega)
    (show _ = some (Instr.storeByte .ebp (sext 0xFC) .eax, 3) from rfl) fun c₄ h₄ => ?_
  refine h₄.sets hc (by decide) (by omega) (by omega)
    (show _ = some (Instr.movImm .eax 0, 5) from rfl) (show Reg.eax ∉ Reg.saved by decide)
    (by decide) (v := fun _ => 0) (fun _ => rfl) fun c₅ h₅ heax => ?_
  refine h₅.returns hc (by decide) (by omega) (by omega) (heax 0 fun _ => rfl) rfl rfl
    fun c₆ he => ⟨he, [], ?_, rfl, rfl, ?_⟩
  · exact fun _ h => absurd h List.not_mem_nil
  · exact ⟨hp, (Nat.mod_eq_of_lt heap).symm, rfl, rfl⟩

/-! ### Programs in a run -/

variable {fs : List UInt8 → Option (List UInt8)} {files : List PackedFile} {f : PackedFile}
variable {blinkTime : ℕ} {romdisk : ℕ → UInt8} {args : List (List UInt8)} {keys : Keys}
variable {entry : Entry} {resume : Kernel → Option Kernel} {sample : Sample}

lemma sample_done (hl : Loaded f args entry k resume) (hf : f.contents = sample.code)
    (hc : Called space entry k sample.code.length c) (hp : Presents t₀ k.machine p)
    (heap : k.mallocStart < 2 ^ 32) :
    Eventually (Step around space) (Done around space t₀ p c k sample.output) ⟨c, k⟩ := by
  have hcode : Stands k.program 0 sample.code := hf ▸ hl.contents
  cases sample with
  | testasm => exact testasm_done hc hl.address hcode hp heap
  | testc => exact testc_done hc hl.address hcode hp heap

variable (around blinkTime) in
/-- **The programs on the disk run.** Wherever the kernel and its stack are, and in any state of
any run in which one of the two programs has been called, it comes back on every path with 0, with
the registers and the stack as a C function has to leave them, its text has been printed behind
what was on the page, and the shell goes on to its prompt. -/
theorem samples_run (hd : Bootable fs files romdisk) (hk : Started around romdisk k₀ k)
    (run : Shell.Reaches around blinkTime romdisk (.prompt bootKeys k)
      (.running keys entry k₁ resume))
    (hl : Loaded f args entry k₁ resume) (hf : f.contents = sample.code)
    (hc : Called space entry k₁ sample.code.length c) :
    ∃ p, Presents k₀.term k₁.machine p ∧ Eventually (Step around space) (fun h =>
      Ended space c h.cpu ∧
        Presents k₀.term h.kernel.machine (TextPage.puts (fontAt around) p sample.output) ∧
        Goes around blinkTime romdisk (.running keys entry k₁ resume)
          (.prompt keys { h.kernel with mallocStart := defaultMallocLocation })) ⟨c, k₁⟩ := by
  obtain ⟨session, hsession, hm⟩ := run_matches hd hk run
  cases hm with
  | running hpr hl' =>
    refine ⟨_, hpr, (sample_done hl hf hc hpr (heap_lt hsession _ _ _ rfl)).mono fun h hdone => ?_⟩
    obtain ⟨calls, prints, hw, hcalls, hs⟩ := hdone.calls
    refine ⟨hdone.ended, hw ▸ hs.presents, ?_⟩
    exact (goes_calls prints hcalls).tail (.exit (hl.resume h.kernel))

/-- A disk with the two programs. -/
def sampleFiles : List PackedFile :=
  [⟨[97], ascii "TESTASM", Sample.testasm.code⟩, ⟨[98], ascii "TESTC", Sample.testc.code⟩]

def sampleFilesAt (path : List UInt8) : Option (List UInt8) :=
  (sampleFiles.find? fun f => f.path = path).map PackedFile.contents

lemma bootable_sampleFiles : ∃ romdisk, Bootable sampleFilesAt sampleFiles romdisk := by
  have hok : ∀ f ∈ sampleFiles, f.Ok sampleFilesAt := by
    simp only [sampleFiles, List.mem_cons, List.not_mem_nil, or_false]
    rintro f (rfl | rfl) <;> exact ⟨by simp, by simp [ascii], by simp [ascii], rfl⟩
  obtain ⟨image, him, -⟩ := main_disk hok (by decide +kernel) (by decide +kernel)
  exact ⟨fun i => image.getD i 0, ⟨hok, by decide +kernel, by decide +kernel, image, him,
    fun i hi => by simp [hi]⟩, by decide +kernel, by decide +kernel, by decide +kernel⟩

/-- A run that enters the first one. -/
lemma runs_testasm : ∃ romdisk k₀ k keys entry k₁ resume, ∃ f : PackedFile, ∃ args,
    Bootable sampleFilesAt sampleFiles romdisk ∧ Started (fun _ => 0) romdisk k₀ k ∧
    Shell.Reaches (fun _ => 0) 500000 romdisk (.prompt bootKeys k)
      (.running keys entry k₁ resume) ∧
    Loaded f args entry k₁ resume ∧ f.contents = Sample.testasm.code := by
  obtain ⟨romdisk, hd⟩ := bootable_sampleFiles
  obtain ⟨k₀, k, hk⟩ := started (fun _ => 0) hd (fun _ => 0) (fun _ => 0) fun _ => 0
  obtain ⟨keys, command, k₁, p, run, hm⟩ := enters_line hd hk
    (show (0x1C : UInt8) ∉ [0x14, 0x12, 0x1F, 0x14, 0x1E, 0x1F, 0x32] by decide) (by decide)
    (by decide) (by decide)
  obtain ⟨o, ho, hb⟩ := matches_behind hd hm fun _ => 0
  have hgo : Next (fun _ => 0) 500000 romdisk (.entered keys command k₁) (behind keys o) :=
    goes_behind ho
  have hreply : reply sampleFiles (editRaw false [0x14, 0x12, 0x1F, 0x14, 0x1E, 0x1F, 0x32]).line =
      .launches ⟨[97], ascii "TESTASM", Sample.testasm.code⟩ := by
    rw [reply, if_neg (by decide), if_neg (by decide), if_neg (by decide)]
    exact if_pos (show magicBytes <+: Sample.testasm.code by decide)
  rw [answer, hreply] at hb
  generalize defaultMallocLocation = heap at hb
  cases o with
  | back k' => cases hb
  | enters entry k₂ resume =>
    cases hb with
    | running _ hl =>
      exact ⟨romdisk, k₀, k, keys, entry, k₂, resume, _, _, hd, hk, run.tail (.next hgo), hl, rfl⟩

/-- It is called with the stack at 0x80000. -/
theorem samples_run_testasm : ∃ space t₀ p c k₁, Eventually (Step (fun _ => 0) space)
    (fun h => Presents t₀ h.kernel.machine
      (TextPage.puts (fontAt fun _ => 0) p (ascii "hello, world from asm\n"))) ⟨c, k₁⟩ := by
  obtain ⟨romdisk, k₀, k, keys, entry, k₁, resume, f, args, hd, hk, run, hl, hf⟩ := runs_testasm
  let space : KernelSpace :=
    ⟨0x9000, 0xA000, 0x90000, by decide, by decide, by decide, by decide⟩
  let mem := storeWord 0x333995 0x9000 (storeWord 0x80000 0xA000 fun b => k₁.program (b - 0x333999))
  have hmem : ∀ b, 0x333999 ≤ b → mem b = k₁.program (b - 0x333999) := by
    intro b hb
    simp only [mem, storeWord]
    rw [if_neg (by omega), if_neg (by omega)]
  have hc : Called space entry k₁ Sample.testasm.code.length
      ⟨fun _ => 0x80000, 0x33399C, mem, fun _ => by decide⟩ := by
    refine ⟨hl.address.symm, ?_, show 72 ≤ 0x80000 by decide, show 0x80000 + 12 ≤ 0x90000 by decide,
      fun i _ => ?_, word_storeWord _ _ (by decide)⟩
    · exact (word_storeWord_apart (show 0x80000 + 4 ≤ 0x333995 ∨ _ from Or.inl (by decide))).trans
        (word_storeWord _ _ (by decide))
    · exact (hmem _ (Nat.le_add_right _ i)).trans
        (congrArg k₁.program (Nat.add_sub_cancel_left _ i))
  obtain ⟨p, -, h⟩ := samples_run (fun _ => 0) 500000 hd hk run hl hf hc
  exact ⟨space, k₀.term, p, _, k₁, h.mono fun _ h => h.2.1⟩

end Mono98.ProgramCode
