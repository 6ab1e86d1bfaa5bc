import Mono98.Command
import Mono98.KeyboardRing
import Mono98.Syscall

/-!
The shell, and the programs that it runs.

`shell` prints its greeting and the list of the disk, and then for ever asks for a line and
handles it as a command. A command comes back, or it enters a program, which makes system calls
and returns, and leaves the memory of the kernel alone. The keyboard interrupts at any time.

The disk, the variables of the kernel, its blocks, the program and the screen are apart from each
other, as they are for all that the boot loader can load.
-/

namespace Mono98.Shell

open Mono98.Graphics Mono98.Tty Mono98.Strings Mono98.Keyboard Mono98.Process Mono98.Romdisk
open Mono98.Command Mono98.Syscall Mono98.Tokens Mono98.Lib.Bytes

/-! ### Before the loop -/

def kernelMotd : List UInt8 := ascii "WELCOME TO MONO98!\n\n"

/-- The globals of the keyboard driver as they are linked. -/
def bootKeys : Keys := ⟨fun _ => 0, 1, 0, 0, 0, 0⟩

/-- The terminal is set up with the file `BACKGROUND`; without it the background is what the
null pointer points to. -/
def kmain (romdisk low : ℕ → UInt8) (mem : ℤ → UInt8) : Option Kernel :=
  (getRomdiskFile romdisk (literal "BACKGROUND")).map fun file =>
    .boot (if file.noent = 0 then fun n => romdisk (file.file + n) else low) mem

variable (around : ℤ → ℕ)

/-- The statements of `shell` before its loop. The pauses between the letters of the greeting
leave the kernel alone. -/
def greet (romdisk filesize : ℕ → UInt8) (k : Kernel) : Option Kernel := do
  let v ← refreshTerminal k.term true k.machine.video
  let k := { k with machine := ⟨k.term, v⟩ }
  let k ← kernelMotd.foldlM (kputc around) k
  let k ← displayRomdisk around romdisk filesize k
  kputc around k 10

/-! ### The loop -/

/-- `sizeof(command)`. -/
def commandSize : ℕ := 256

/-- Where the shell stands: at the top of its loop, in `kgetline`, in front of `handle_command`,
or in a program. In `kgetline` the terminal is that of the pending line. -/
inductive State
  | prompt (keys : Keys) (k : Kernel)
  | typing (s : KeyboardRing.State) (k : Kernel)
  | entered (keys : Keys) (command : ℕ → UInt8) (k : Kernel)
  | running (keys : Keys) (entry : Entry) (k : Kernel) (resume : Kernel → Option Kernel)

namespace State

def machine : State → Machine
  | prompt _ k | entered _ _ k | running _ _ k _ => k.machine
  | typing s _ => s.line.machine

def keys : State → Keys
  | prompt keys _ | entered keys _ _ | running keys _ _ _ => keys
  | typing s _ => s.keys

/-- The keyboard interrupts. -/
def interrupt (scancode : UInt8) : State → State
  | prompt keys k => prompt (processScancode keys scancode).1 k
  | typing s k => typing (s.interrupt scancode) k
  | entered keys command k => entered (processScancode keys scancode).1 command k
  | running keys entry k resume => running (processScancode keys scancode).1 entry k resume

/-- No more than 255 entries are pending while a line is read. -/
def Bounded : State → Prop
  | typing s _ => s.Bounded
  | _ => True

end State

/-- The length of the pending line, with the character that is being stored. -/
def pending (s : KeyboardRing.State) : ℕ := if s.pc = .grow then s.line.len + 1 else s.line.len

/-- A line that the tables of the shell have room for, with its quotes closed. The sandbox is
left to itself. -/
structure Proper (line : List UInt8) : Prop where
  sandbox : line ≠ ascii "SANDBOX"
  closed : line.count 34 % 2 = 0
  count : (tokens 32 34 line).length ≤ 32
  short : ∀ t ∈ tokens 32 34 line, t.length ≤ 63

instance (line : List UInt8) : Decidable (Proper line) :=
  decidable_of_iff (line ≠ ascii "SANDBOX" ∧ line.count 34 % 2 = 0 ∧
      (tokens 32 34 line).length ≤ 32 ∧ ∀ t ∈ tokens 32 34 line, t.length ≤ 63)
    ⟨fun ⟨h₁, h₂, h₃, h₄⟩ => ⟨h₁, h₂, h₃, h₄⟩, fun ⟨h₁, h₂, h₃, h₄⟩ => ⟨h₁, h₂, h₃, h₄⟩⟩

/-- A step of the shell or of the program that it runs: the lines have room in `command` and
are proper, and the programs print strings. -/
inductive Next (around : ℤ → ℕ) (blinkTime : ℕ) (romdisk : ℕ → UInt8) : State → State → Prop
  | ask {keys k k'} (command : ℕ → UInt8) (h : kputc around k 62 = some k') :
    Next around blinkTime romdisk (.prompt keys k)
      (.typing (KeyboardRing.start keys (memset command 0 commandSize) k'.machine) k')
  | type {s s' k} (h : s.next around true commandSize blinkTime = some s')
    (room : pending s' < commandSize) :
    Next around blinkTime romdisk (.typing s k) (.typing s' k)
  | enter {s k} (h : s.pc = .done) {line : List UInt8} (hs : IsString s.line.buffer 0 line)
    (proper : Proper line) :
    Next around blinkTime romdisk (.typing s k)
      (.entered s.keys s.line.buffer { k with machine := s.line.machine })
  | back {keys command k k'} (filesize : ℕ → UInt8)
    (h : handleCommand around romdisk filesize command k = some (.back k')) :
    Next around blinkTime romdisk (.entered keys command k) (.prompt keys k')
  | launch {keys command k entry k' resume} (filesize : ℕ → UInt8)
    (h : handleCommand around romdisk filesize command k = some (.enters entry k' resume)) :
    Next around blinkTime romdisk (.entered keys command k) (.running keys entry k' resume)
  | call {keys entry k resume a} (c : Call) (prints : c.Prints) (h : syscall around k c = some a) :
    Next around blinkTime romdisk (.running keys entry k resume)
      (.running keys entry a.kernel resume)
  | exit {keys entry k resume k'} (h : resume k = some k') :
    Next around blinkTime romdisk (.running keys entry k resume) (.prompt keys k')

/-- A step, or an interrupt of the keyboard. -/
inductive Step (around : ℤ → ℕ) (blinkTime : ℕ) (romdisk : ℕ → UInt8) : State → State → Prop
  | next {s s'} (h : Next around blinkTime romdisk s s') : Step around blinkTime romdisk s s'
  | interrupt {s} (scancode : UInt8) (bound : (s.interrupt scancode).Bounded) :
    Step around blinkTime romdisk s (s.interrupt scancode)

/-- Runs of the shell. -/
def Reaches (around : ℤ → ℕ) (blinkTime : ℕ) (romdisk : ℕ → UInt8) : State → State → Prop :=
  Relation.ReflTransGen (Step around blinkTime romdisk)

/-- Runs without an interrupt. -/
def Goes (around : ℤ → ℕ) (blinkTime : ℕ) (romdisk : ℕ → UInt8) : State → State → Prop :=
  Relation.ReflTransGen (Next around blinkTime romdisk)

lemma Goes.reaches {around : ℤ → ℕ} {blinkTime : ℕ} {romdisk : ℕ → UInt8} {s s' : State}
    (run : Goes around blinkTime romdisk s s') : Reaches around blinkTime romdisk s s' :=
  Relation.ReflTransGen.mono (fun _ _ h => Step.next h) s s' run

end Mono98.Shell
