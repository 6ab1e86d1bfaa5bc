import Mono98.Tty

/-!
The keyboard driver: the scancode tables, the interrupt side, and the line editor.

`process_scancode` logs an entry for every scancode that is not a modifier, and `kgetline`
edits a line with the entries. A line is the buffer of the caller with the number of pending
characters, and the terminal that the characters are echoed to.
-/

namespace Mono98.Keyboard

open Mono98.Graphics Mono98.Tty Mono98.Lib.Word

/-- The entries of `kbdus` up to its last key; the rest of the 256 are zero. -/
def kbdusTable : List UInt8 := [
  0, 27, 49, 50, 51, 52, 53, 54, 55, 56,
  57, 48, 45, 61, 8, -- Backspace
  9, -- Tab
  81, 87, 69, 82, 84, 89, 85, 73, 79, 80, 91, 93, 10, -- Enter
  0, -- Control
  65, 83, 68, 70, 71, 72, 74, 75, 76, 59, 39, 96, 0, -- Left shift
  92, 90, 88, 67, 86, 66, 78, 77, 44, 46, 47, 0, -- Right shift
  42, 0, 32, 0, 0, 0, 0, 0, 0, 0, 0, 0, 0, 0, 0, 0, 0, 0, 0,
  45, 0, 0, 0, 43]

/-- The same for `shift_kbdus`. -/
def shiftKbdusTable : List UInt8 := [
  0, 27, 33, 64, 35, 36, 37, 94, 38, 42,
  40, 41, 95, 43, 8, -- Backspace
  9, -- Tab
  113, 119, 101, 114, 116, 121, 117, 105, 111, 112, 123, 125, 10, -- Enter
  0, -- Control
  97, 115, 100, 102, 103, 104, 106, 107, 108, 58, 34, 126, 0, -- Left shift
  124, 122, 120, 99, 118, 98, 110, 109, 60, 62, 63, 0, -- Right shift
  42, 0, 32, 0, 0, 0, 0, 0, 0, 0, 0, 0, 0, 0, 0, 0, 0, 0, 0,
  45, 0, 0, 0, 43]

def kbdus (scancode : UInt8) : UInt8 := kbdusTable.getD scancode.toNat 0

def shiftKbdus (scancode : UInt8) : UInt8 := shiftKbdusTable.getD scancode.toNat 0

/-! ### The interrupt side -/

/-- The globals of the driver. -/
structure Keys where
  scancodeBuffer : ℕ → UInt16
  bufempty : UInt8
  read : ℕ
  write : ℕ
  shift : UInt8
  ctrl : UInt8

/-- `(i + 1) % sizeof(scancode_buffer)`, stored in a `uint8_t`. The buffer has 256 elements
but 512 bytes. -/
def bump (i : ℕ) : ℕ := (i + 1) % 512 % 2 ^ 8

/-- The entry logged for a scancode. -/
def Keys.entry (k : Keys) (scancode : UInt8) : UInt16 :=
  scancode.toUInt16 ||| k.shift.toUInt16 <<< 15 ||| k.ctrl.toUInt16 <<< 14

/-- The keys afterwards, and whether an entry has been logged. -/
def processScancode (k : Keys) (scancode : UInt8) : Keys × Bool :=
  if scancode = 0x36 ∨ scancode = 0x2A then ({ k with shift := 1 }, false)
  else if scancode = 0xAA ∨ scancode = 0xB6 then ({ k with shift := 0 }, false)
  else if scancode = 0x1D then ({ k with ctrl := 1 }, false)
  else if scancode = 0x9D then ({ k with ctrl := 0 }, false)
  else
    ({ k with
      bufempty := 0
      scancodeBuffer := Function.update k.scancodeBuffer k.write (k.entry scancode)
      write := bump k.write }, true)

/-! ### The line editor -/

/-- The pending line, the caller's buffer, and the terminal. -/
structure Line where
  len : ℕ
  buffer : ℕ → UInt8
  machine : Machine

/-- `kbdus[(uint8_t)e]`. -/
def key (e : UInt16) : UInt8 := kbdus e.toUInt8

/-- The character of an entry, by its shift bit. -/
def charOf (e : UInt16) : UInt8 :=
  if e &&& 0x8000 ≠ 0 then shiftKbdus e.toUInt8 else kbdus e.toUInt8

/-- `kbdus[…] != 0 && (len - 1) != capacity`, a comparison of `int`s. -/
def Line.accepts (capacity : ℕ) (l : Line) (e : UInt16) : Prop :=
  key e ≠ 0 ∧ (l.len : ℤ) - 1 ≠ capacity

instance (capacity : ℕ) (l : Line) (e : UInt16) : Decidable (l.accepts capacity e) :=
  inferInstanceAs (Decidable (_ ∧ _))

variable (around : ℤ → ℕ) (echo : Bool) (capacity : ℕ)

/-- `if (echo) tputs(&kernel_terminal, (uint8_t[]){c, '\0'})`. -/
def echoed (c : UInt8) (m : Machine) : Option Machine :=
  if echo then tputs around m [c] else some m

/-- The branch of a backspace. -/
def Line.rubout (l : Line) : Option Line :=
  if l.len ≠ 0 then
    (echoed around echo 8 l.machine).map fun m => { l with len := dec 16 l.len, machine := m }
  else some l

/-- `buffer[len] = c`. -/
def Line.store (l : Line) (c : UInt8) : Line :=
  { l with buffer := Function.update l.buffer l.len c }

/-- The echo of `buffer[len]`, and `len++`. -/
def Line.grow (l : Line) : Option Line :=
  (echoed around echo (l.buffer l.len) l.machine).map fun m =>
    { l with len := inc 16 l.len, machine := m }

/-- The body of the loop over the entries, for an entry that is not Enter. -/
def Line.handle (l : Line) (e : UInt16) : Option Line :=
  if key e = 8 then l.rubout around echo
  else if l.accepts capacity e then (l.store (charOf e)).grow around echo
  else some l

/-- `show_cursor = shown`, and a refresh. -/
def blink (shown : Bool) (m : Machine) : Option Machine := do
  let t := { m.term with showCursor := shown }
  let v ← refreshTerminal t false m.video
  some ⟨t, v⟩

/-- What `kgetline` does while a line is pending: it handles an entry, or blinks. -/
inductive Event
  | entry (e : UInt16)
  | blink (shown : Bool)

def Line.apply (l : Line) : Event → Option Line
  | .entry e => l.handle around echo capacity e
  | .blink shown => (Keyboard.blink shown l.machine).map fun m => { l with machine := m }

def Line.run (l : Line) (events : List Event) : Option Line :=
  events.foldlM (Line.apply around echo capacity) l

/-- What is done after Enter. -/
def Line.finish (l : Line) : Option Line :=
  let m := { l.machine with term := { l.machine.term with showCursor := false } }
  (tputs around m [10]).map fun m =>
    { l with buffer := Function.update l.buffer l.len 0, machine := m }

/-! ### The tables -/

lemma charOf_cases (e : UInt16) : charOf e = kbdus e.toUInt8 ∨ charOf e = shiftKbdus e.toUInt8 := by
  unfold charOf; split
  · exact Or.inr rfl
  · exact Or.inl rfl

/-- A key that is neither Enter nor Backspace has a 7-bit character with and without shift. -/
lemma char_of_key {e : UInt16} (h0 : key e ≠ 0) (h10 : key e ≠ 10) (h8 : key e ≠ 8) :
    charOf e ≠ 0 ∧ charOf e ≠ 10 ∧ charOf e ≠ 8 ∧ (charOf e).toNat < 128 := by
  have hk := byte_forall (fun c => kbdus c ≠ 0 → kbdus c ≠ 10 → kbdus c ≠ 8 →
    (kbdus c).toNat < 128 ∧ shiftKbdus c ≠ 0 ∧ shiftKbdus c ≠ 10 ∧ shiftKbdus c ≠ 8 ∧
      (shiftKbdus c).toNat < 128) (by decide +kernel) e.toUInt8 h0 h10 h8
  obtain ⟨h1, h2, h3, h4, h5⟩ := hk
  rcases charOf_cases e with h | h <;> rw [h]
  · exact ⟨h0, h10, h8, h1⟩
  · exact ⟨h2, h3, h4, h5⟩

end Mono98.Keyboard
