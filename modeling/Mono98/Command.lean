import Mono98.Process
import Mono98.Romdisk

/-!
The commands of the shell.

A command prints on the kernel terminal, lists the ROMDISK, or loads a program from it. A call
is `none` when it faults or never comes back.
-/

namespace Mono98.Command

open Mono98.Tty Mono98.Strings Mono98.Romdisk Mono98.Process

/-- The bytes of a string literal. -/
def ascii (s : String) : List UInt8 := s.toList.map fun c => UInt8.ofNat c.toNat

/-- A string literal in memory. -/
def literal (s : String) : ℕ → UInt8 := fun i => (ascii s).getD i 0

/-- The string at a pointer, as far as the 16-bit index of `tputs` reaches. -/
def textAt (ptr : ℕ → UInt8) : List UInt8 := ((List.range 65536).map ptr).takeWhile (· ≠ 0)

def terminalColourCode (colour : UInt8) : UInt8 := 0xF0 ||| colour

def termBlack : UInt8 := 0
def termRed : UInt8 := 4

variable (around : ℤ → ℕ)

def kputs (k : Kernel) (msg : List UInt8) : Option Kernel :=
  (tputs around k.machine msg).map fun m => { k with machine := m }

def kputc (k : Kernel) (c : UInt8) : Option Kernel := kputs around k [c]

/-! ### The listing -/

/-- A `uint32_t` as `int`. -/
def toInt32 (n : ℕ) : ℤ := if n < 2 ^ 31 then n else n - 2 ^ 32

/-- The bound of the loop that fills the column of the names, a difference of 32 bits. -/
def spacing (len : ℕ) : ℕ := (11 + (8 + 2 ^ 32 - len)) % 2 ^ 32

/-- `__list_romdisk` on the entry at `p`. The digits of the length go to the 16 bytes at
`filesize`; without a digit `itoa` turns 256 bytes around and faults. The loop counts with a
`uint8_t` and does not end when its bound is out of range. -/
def listEntry (romdisk filesize : ℕ → UInt8) (k : Kernel) (p : ℕ) : Option Kernel := do
  if length romdisk p = 0 then none
  else
    let k ← kputs around k (textAt (filename romdisk p))
    let len ← strlen (filename romdisk p)
    if spacing len < 2 ^ 8 then
      let k ← (List.range (spacing len)).foldlM (fun k _ => kputc around k 32) k
      let k ← kputs around k (textAt (itoa (toInt32 (length romdisk p)) filesize))
      kputs around k (ascii "\n")
    else none

def displayRomdisk (romdisk filesize : ℕ → UInt8) (k : Kernel) : Option Kernel := do
  let k ← kputs around k (ascii "Contents of main romdisk\n")
  let k ← kputs around k (ascii "FILENAME           LENGTH\n")
  let k ← (listRomdisk romdisk).foldlM (listEntry around romdisk filesize) k
  kputc around k 10

/-! ### Handling a command -/

def maxProgramArgs : ℕ := 32
def maxProgramArgLength : ℕ := 64

/-- The argument buffers filled with zeros. -/
def clearArgs (args : ℕ → ℤ → UInt8) : ℕ → ℤ → UInt8 := fun i n =>
  if i < maxProgramArgs ∧ 0 ≤ n ∧ n < maxProgramArgLength then 0 else args i n

/-- A command returns, or it enters a program; when the program comes back with some kernel,
the command goes on with it. -/
inductive Outcome
  | back (k : Kernel)
  | enters (entry : Entry) (k : Kernel) (resume : Kernel → Option Kernel)

/-- The report on a name that is not on the disk. -/
def reportMissing (name : ℕ → UInt8) (k : Kernel) : Option Kernel := do
  let k ← kputc around k (terminalColourCode termRed)
  let k ← kputs around k (ascii "Command '")
  let k ← kputs around k (textAt name)
  let k ← kputs around k (ascii "' not found.\n")
  kputc around k (terminalColourCode termBlack)

/-- What is done with the result of `load_program`. -/
def reportInvalid (result : UInt8) (k : Kernel) : Option Kernel :=
  if result ≠ 0 then do
    let k ← kputc around k (terminalColourCode termRed)
    let k ← kputs around k (ascii "Program invalid--is this a valid binary?\n")
    kputc around k (terminalColourCode termBlack)
  else some k

/-- The last branch of `handle_command`. -/
def handleProgram (romdisk command : ℕ → UInt8) (k : Kernel) : Option Outcome := do
  let (argc, args) ← splitString command 32 34 (clearArgs k.programArgs)
  let k := { k with programArgs := args }
  let program ← getRomdiskFile romdisk fun n => args 0 n
  if program.noent ≠ 0 then
    let k ← reportMissing around (fun n => args 0 n) k
    some (.back k)
  else
    match loadProgram k (fun n => romdisk (program.file + n)) program.length argc args with
    | .returns result k =>
      let k ← reportInvalid around result k
      some (.back k)
    | .enters entry k resume =>
      some (.enters entry k fun k =>
        let (result, k) := resume k
        reportInvalid around result k)

/-- `handle_command`; `SANDBOX` echoes the keyboard and never returns. -/
def handleCommand (romdisk filesize command : ℕ → UInt8) (k : Kernel) : Option Outcome := do
  if (← strcmp command (literal "PING")) = 0 then
    let k ← kputs around k (ascii "\nPONG\n")
    some (.back k)
  else if (← strcmp command (literal "SANDBOX")) = 0 then none
  else if (← strcmp command (literal "CLEAR")) = 0 then
    let m ← clearTerminal k.machine
    some (.back { k with machine := m })
  else if (← strcmp command (literal "LS-ROMDISK")) = 0 then
    let k ← displayRomdisk around romdisk filesize k
    some (.back k)
  else handleProgram around romdisk command k

end Mono98.Command
