import Mono98.CommandRun
import Mono98.Listing
import Mono98.TextPage

/-!
The shell as its user sees it.

There is a page, and a line that is typed behind a prompt. An entered line is answered: text is
printed, the page is cleared, or the file that the first token names is run with the tokens as
arguments. A program prints and asks for memory, always from the same heap, and ends.
-/

namespace Mono98.Console

open Mono98.TextPage Mono98.RomdiskLookup Mono98.Command Mono98.CommandRun Mono98.Listing
open Mono98.Process

/-- The prompt, a line being typed, a line entered, or a file that runs. -/
inductive Mode
  | prompt
  | typing (line : List UInt8)
  | entered (line : List UInt8)
  | running (f : PackedFile) (args : List (List UInt8)) (heap : ℕ)

structure Session where
  page : Page
  mode : Mode

/-- What a line is answered with. -/
inductive Reply
  | prints (text : List UInt8)
  | clears
  | launches (f : PackedFile)

/-- The line of a file in the list of the disk. -/
def fileLine (f : PackedFile) : List UInt8 := TableEntry.line ⟨f.base, 0, f.contents.length⟩

def diskList (files : List PackedFile) : List UInt8 :=
  ascii "Contents of main romdisk\n" ++ (ascii "FILENAME           LENGTH\n" ++
    (files.flatMap fileLine ++ [10]))

variable (files : List PackedFile)

def reply (line : List UInt8) : Reply :=
  if line = ascii "PING" then .prints (ascii "\nPONG\n")
  else if line = ascii "CLEAR" then .clears
  else if line = ascii "LS-ROMDISK" then .prints (diskList files)
  else
    match fileNamed files (programName line) with
    | none => .prints (missing (programName line)).flatten
    | some f => if magicBytes <+: f.contents then .launches f else .prints invalid.flatten

variable (glyph : UInt8 → ℕ)

/-- The console after the answer. -/
def answer (p : Page) (line : List UInt8) : Session :=
  match reply files line with
  | .prints text => ⟨TextPage.puts glyph p text, .prompt⟩
  | .clears => ⟨TextPage.clear p, .prompt⟩
  | .launches f => ⟨p, .running f (arguments line) defaultMallocLocation⟩

/-- A character that a key has, besides Enter and Backspace. -/
def Typeable (c : UInt8) : Prop := c ≠ 0 ∧ c ≠ 10 ∧ c ≠ 8 ∧ c.toNat < 128

/-- The longest line that can be typed. -/
def maxLine : ℕ := 255

inductive Step : Session → Session → Prop
  | ask {p} : Step ⟨p, .prompt⟩ ⟨TextPage.puts glyph p [62], .typing []⟩
  | char {p line c} (hc : Typeable c) (room : line.length < maxLine) :
    Step ⟨p, .typing line⟩ ⟨TextPage.puts glyph p [c], .typing (line ++ [c])⟩
  | rubout {p line} (h : line ≠ []) :
    Step ⟨p, .typing line⟩ ⟨TextPage.puts glyph p [8], .typing line.dropLast⟩
  | enter {p line} : Step ⟨p, .typing line⟩ ⟨TextPage.puts glyph p [10], .entered line⟩
  | answer {p line} : Step ⟨p, .entered line⟩ (answer files glyph p line)
  | write {p f args heap} (msg : List UInt8) :
    Step ⟨p, .running f args heap⟩ ⟨TextPage.puts glyph p msg, .running f args heap⟩
  | malloc {p f args heap} (len : ℕ) :
    Step ⟨p, .running f args heap⟩ ⟨p, .running f args ((heap + len) % 2 ^ 32)⟩
  | exit {p f args heap} : Step ⟨p, .running f args heap⟩ ⟨p, .prompt⟩

/-- What a user can see happen. -/
def Reaches : Session → Session → Prop := Relation.ReflTransGen (Step files glyph)

variable {files glyph}

lemma reply_launches {line : List UInt8} {f : PackedFile} (h : reply files line = .launches f) :
    fileNamed files (programName line) = some f ∧ magicBytes <+: f.contents := by
  unfold reply at h
  split_ifs at h
  split at h
  · cases h
  · next g hg =>
    split_ifs at h with hm
    cases h
    exact ⟨hg, hm⟩

end Mono98.Console
