import Mono98.Font
import Mono98.Graphics
import Mono98.Lib.Links
import Mono98.Lib.Word

/-!
The terminal driver.

A terminal owns a linked list of rows, allocated by `init_terminal`; the first node is the
top row of the screen. Pointers are numbers: the `i`th node of the pool is `i`, the `i`th row
buffer is `i`, and the null pointer is `none`. A call is `none` when it faults (it follows the
null pointer, or stores past the end of a row) or when it never comes back.

The blocks of `kmalloc` are fresh and apart from each other and from the screen. For terminals that
are drawn into their own blocks, which at the addresses of the kernel starts with row 534, this is
an idealisation of the code.
-/

namespace Mono98.Tty

open Mono98.Font Mono98.Graphics Mono98.Lib.Links Mono98.Lib.Word

/-- `struct terminal_buffer_node`. -/
structure Node where
  buffer : ℕ
  next : Option ℕ

/-- `struct terminal`, with the pool of nodes and the row buffers it points to. -/
structure Terminal where
  background : ℕ → UInt8
  cursorX : ℕ
  cursorY : ℕ
  showCursor : Bool
  rows : ℕ
  columns : ℕ
  colour : ℕ
  screen : Option ℕ
  node : ℕ → Node
  cells : ℕ → ℕ → ℕ
  textBuffer : ℕ → UInt8
  textBuflen : ℕ
  textOffset : ℕ

/-- A terminal and the screen it draws on. -/
structure Machine where
  term : Terminal
  video : Video

namespace Terminal

variable (t : Terminal)

def next (p : ℕ) : Option ℕ := (t.node p).next

/-- `for (j = 0; j < n; j++) tmp = tmp->next`, from `tmp = term->screen`. -/
def nodeAt (n : ℕ) : Option ℕ := walk t.next n t.screen

/-- `for (tmp = p; tmp; tmp = tmp->next)`. The pool has `rows` nodes, so that a traversal
that meets more of them goes round in a circle. -/
def nodesFrom (p : Option ℕ) : Option (List ℕ) := visited t.next t.rows p

/-- The word in row `r` and column `c` of the screen. -/
def cellAt (r c : ℕ) : Option ℕ := (t.nodeAt r).map fun p => t.cells (t.node p).buffer c

/-- `memset(buffer, 0x00, sizeof(uint32_t) * term->columns)`. -/
def blankRow (row : ℕ → ℕ) : ℕ → ℕ := fun c => if c < t.columns then 0 else row c

/-- A cursor past the last column moves to the next row. -/
def wrap : Terminal :=
  if t.columns ≤ t.cursorX then { t with cursorX := 0, cursorY := inc 16 t.cursorY }
  else t

def newline : Terminal := { t with cursorY := inc 16 t.cursorY, cursorX := 0 }

/-- The cursor of a backspace: an underflow of `cursor_x` goes up a row. -/
def stepBack : Terminal :=
  let x := dec 16 t.cursorX
  if x = 2 ^ 16 - 1 then
    { t with cursorX := dec 16 t.columns, cursorY := dec 16 t.cursorY }
  else { t with cursorX := x }

def advance : Terminal := { t with cursorX := inc 16 t.cursorX }

/-- `tmp->buffer[term->cursor_x] = v`, `tmp` being `cursor_y` nodes from the top. -/
def storeCell (v : ℕ) : Option Terminal := do
  let p ← t.nodeAt t.cursorY
  if t.cursorX < t.columns then
    let b := (t.node p).buffer
    some { t with cells := Function.update t.cells b (Function.update (t.cells b) t.cursorX v) }
  else none

/-- The statements of `terminal_scroll` but the last: the top row goes blank to the bottom. -/
def rotate : Option Terminal := do
  let tmp1 ← t.screen
  let visitedNodes ← t.nodesFrom (t.next tmp1)
  let tail ← visitedNodes.getLast?
  let node := Function.update t.node tail { t.node tail with next := some tmp1 }
  let node := Function.update node tmp1 { node tmp1 with next := none }
  let b := (node tmp1).buffer
  some { t with
    screen := t.next tmp1
    cursorY := dec 16 t.cursorY
    node := node
    cells := Function.update t.cells b (t.blankRow (t.cells b)) }

/-- The rows at `nodes` blanked, and the cursor sent home. -/
def blankRows (nodes : List ℕ) : Terminal :=
  { t with
    cells := nodes.foldl (fun cells p =>
      let b := (t.node p).buffer
      Function.update cells b (t.blankRow (cells b))) t.cells
    cursorX := 0
    cursorY := 0 }

end Terminal

/-! ### Drawing -/

/-- The coordinate of row or column `k`, as the `uint16_t` the drawing calls receive. -/
def coord (k : ℕ) : ℕ := (30 + k * 8) % 65536

/-- The bitmap of the block cursor. -/
def cursorBitmap : ℕ := 0b11111111111111111111111110000000

/-- `restore_area()` when the cell in row `row` and column `i` is the saved one. -/
def restoreIn (row i : ℕ) (v : Video) : Option Video :=
  if 30 + row * 8 = v.areaY ∧ 30 + i * 8 = v.areaX then restoreArea v else some v

/-- One round of the inner loop of `refresh_terminal`. -/
def refreshCell (t : Terminal) (row i code : ℕ) (v : Video) : Option Video := do
  let v ← restoreIn row i v
  if row = t.cursorY ∧ i = t.cursorX ∧ t.showCursor then
    let v ← saveArea (coord i) (coord row) v
    some (displayBitmap cursorBitmap (coord i) (coord row) v)
  else some (displayBitmap code (coord i) (coord row) v)

/-- The inner loop of `refresh_terminal`, on the node `p` of row `row`. -/
def refreshRow (t : Terminal) (v : Video) (p : ℕ × ℕ) : Option Video :=
  (List.range t.columns).foldlM
    (fun v i => refreshCell t p.2 i (t.cells (t.node p.1).buffer i) v) v

def refreshTerminal (t : Terminal) (redraw : Bool) (v : Video) : Option Video := do
  let v := if redraw then drawBackground t.background v else v
  let nodes ← t.nodesFrom t.screen
  nodes.zipIdx.foldlM (refreshRow t) v

/-! ### The operations -/

/-- The links that `init_terminal` sets up in the zeroed pool. -/
def initPool (rows : ℕ) : ℕ → Node :=
  let pool : ℕ → Node := (List.range (rows - 1)).foldl (fun node i =>
    let node := Function.update node i { node i with next := some (i + 1) }
    Function.update node (i + 1) { node (i + 1) with buffer := i + 1 }) fun _ => ⟨0, none⟩
  Function.update pool (rows - 1) { pool (rows - 1) with next := none }

def initTerminal (rows columns : ℕ) (background : ℕ → UInt8) (colour : ℕ) (v : Video) :
    Machine where
  term := {
    background, rows, columns, colour
    cursorX := 0
    cursorY := 0
    showCursor := false
    screen := some 0
    node := initPool rows
    cells := fun _ _ => 0
    textBuffer := fun _ => 0
    textBuflen := 0
    textOffset := 0 }
  video := drawBackground background v

def terminalScroll (m : Machine) : Option Machine := do
  let t ← m.term.rotate
  some ⟨t, drawBackground t.background m.video⟩

/-- `if (term->cursor_y > (term->rows - 1)) terminal_scroll(term)`. -/
def scrollIfBelow (m : Machine) : Option Machine :=
  if m.term.rows ≤ m.term.cursorY then terminalScroll m else some m

-- The words in memory around `default_font`, which an index outside of it reads.
variable (around : ℤ → ℕ)

/-- `default_font[c]` for a signed `char`. -/
def fontAt (c : UInt8) : ℕ :=
  let i := c.toInt8.toInt
  if 0 ≤ i ∧ i < 128 then defaultFont.getD i.toNat 0 else around i

/-- One round of the loop of `tputs`. -/
def tputsByte (m : Machine) (c : UInt8) : Option Machine :=
  if c &&& 0xF0 = 0xF0 then
    some { m with term := { m.term with colour := (c &&& 0x0F).toNat } }
  else
    let t := m.term.wrap
    if c = 10 then -- newline
      scrollIfBelow ⟨t.newline, m.video⟩
    else if c = 8 then -- backspace
      if t.cursorX = 0 ∧ t.cursorY = 0 then some ⟨t, m.video⟩
      else do
        let t ← t.stepBack.storeCell 0
        let v ← refreshTerminal t true m.video
        some ⟨t, v⟩
    else do
      let m ← scrollIfBelow ⟨t, m.video⟩
      let t ← m.term.storeCell (fontAt around c ||| m.term.colour)
      some ⟨t.advance, m.video⟩

/-- The loop of `tputs` from index `i`, at most `n` rounds of it. The index is a `uint16_t`
and reads the terminator past the end of the string. -/
def tputsLoop (msg : List UInt8) : ℕ → ℕ → Machine → Option Machine
  | 0, _, _ => none
  | n + 1, i, m =>
    if msg.getD i 0 = 0 then some m
    else (tputsByte around m (msg.getD i 0)).bind (tputsLoop msg n (inc 16 i))

/-- A loop that has not met the terminator in 65536 rounds is back at the first byte. -/
def tputs (m : Machine) (msg : List UInt8) : Option Machine := do
  let m ← tputsLoop around msg 65536 0 m
  let v ← refreshTerminal m.term false m.video
  some { m with video := v }

def clearTerminal (m : Machine) : Option Machine := do
  let nodes ← m.term.nodesFrom m.term.screen
  let t := m.term.blankRows nodes
  let v ← refreshTerminal t true m.video
  some ⟨t, v⟩

end Mono98.Tty
