import Mono98.Strings
import Mono98.Tty

/-!
Programs and their system calls.

The kernel is the state that a command or a system call works on. Memory is kept in separate
pieces, each seen from its pointer: the row buffers of the terminal, the memory of the program
from `PROGRAM_INJECTION_ADDRESS` on with the `errno` word below it, and the argument buffers.
-/

namespace Mono98.Process

open Mono98.Graphics Mono98.Tty Mono98.Strings

def programInjectionAddress : ℕ := 0x333999
def defaultMallocLocation : ℕ := 0x2800000

def kernelTerminalRows : ℕ := 16
def kernelTerminalColumns : ℕ := 32

def eokay : ℕ := 0
def einvalidOperation : ℕ := 2

structure Kernel where
  machine : Machine
  errno : ℕ
  program : ℕ → UInt8
  mallocStart : ℕ
  programArgs : ℕ → ℤ → UInt8

namespace Kernel

variable (k : Kernel)

/-- The kernel terminal, whose text buffer a program reads. -/
def term : Terminal := k.machine.term

def setTerm (t : Terminal) : Kernel := { k with machine := { k.machine with term := t } }

/-- The kernel once `kmain` has made its terminal. -/
def boot (background : ℕ → UInt8) (mem : ℤ → UInt8) : Kernel where
  machine := initTerminal kernelTerminalRows kernelTerminalColumns background 0 (.boot mem)
  errno := 0
  program := fun _ => 0
  mallocStart := defaultMallocLocation
  programArgs := fun _ _ => 0

end Kernel

/-! ### System calls -/

/-- What a call returns, the kernel afterwards, and the user's buffer. -/
structure Answer where
  result : ℕ
  kernel : Kernel
  buf : ℕ → UInt8

/-- The length that `SYS_READ` advances by. The sum is one of 32 bits. -/
def safeLen (t : Terminal) (len : ℕ) : ℕ :=
  if t.textBuflen ≤ (t.textOffset + len) % 2 ^ 32 then
    (t.textBuflen + 2 ^ 32 - t.textOffset) % 2 ^ 32
  else len

/-- `text_offset += n`, and the reset when everything has been read. -/
def advanceText (t : Terminal) (n : ℕ) : Terminal :=
  let t := { t with textOffset := (t.textOffset + n) % 2 ^ 8 }
  if t.textOffset = t.textBuflen then
    { t with textBuflen := 0, textOffset := 0, textBuffer := memset t.textBuffer 0 256 }
  else t

/-- `SYS_READ`. -/
def sysRead (k : Kernel) (fd : UInt8) (buf : ℕ → UInt8) (len : ℕ) : Answer :=
  if fd = 0 then
    let safe := safeLen k.term len
    let buf := memcpy buf k.term.textBuffer len
    ⟨0, { k.setTerm (advanceText k.term safe) with errno := eokay }, buf⟩
  else ⟨2 ^ 32 - 1, { k with errno := einvalidOperation }, buf⟩

/-- `SYS_MALLOC`. -/
def sysMalloc (k : Kernel) (len : ℕ) : ℕ × Kernel :=
  (k.mallocStart, { k with errno := eokay, mallocStart := (k.mallocStart + len) % 2 ^ 32 })

/-! ### Loading -/

/-- A jump into a program: the address, and the arguments of the call. -/
structure Entry where
  address : ℕ
  argc : ℕ
  argv : ℕ → ℤ → UInt8

/-- A call of the loader returns, or it enters the program; when the program comes back with
some kernel, the loader goes on with it. -/
inductive Loading
  | returns (result : UInt8) (k : Kernel)
  | enters (entry : Entry) (k : Kernel) (resume : Kernel → UInt8 × Kernel)

def magic : ℕ → UInt8 := fun i => [0x50, 0x5C, 0xDE].getD i 0

def loadProgram (k : Kernel) (programData : ℕ → UInt8) (programLen : ℕ) (argc : ℕ)
    (argv : ℕ → ℤ → UInt8) : Loading :=
  if memcmp programData magic 3 ≠ 0 then .returns 1 k
  else
    .enters ⟨programInjectionAddress + 3, argc % 2 ^ 8, argv⟩
      { k with errno := 0, program := memcpy k.program programData programLen }
      fun k => (0, { k with mallocStart := defaultMallocLocation })

end Mono98.Process
