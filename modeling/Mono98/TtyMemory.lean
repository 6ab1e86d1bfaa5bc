import Mono98.Lib.Words
import Mono98.Reach
import Mono98.TtyRun

/-!
The terminal in memory.

`init_terminal` takes the nodes and the row buffers from `kmalloc`, and from there on they are
words of the one memory: a node is the address of its buffer and the address of the next node, and
the null pointer is 0. The driver reads them as a list of rows with addresses for pointers; what it
stores goes to the memory byte by byte. The screen is part of the same memory, so that what is drawn
below its last line would go into the blocks that stand there.
-/

namespace Mono98.TtyMemory

open Mono98.Font Mono98.Graphics Mono98.Reach Mono98.Tty Mono98.TtyRows Mono98.TtyRun
open Mono98.Lib.Fold Mono98.Lib.Links Mono98.Lib.Word Mono98.Lib.Words

/-! ### The driver -/

/-- The members of `struct terminal`. `screen` is an address; `background` is the picture that the
pointer leads to, which is part of the kernel. -/
structure Fields where
  background : ℕ → UInt8
  cursorX : ℕ
  cursorY : ℕ
  showCursor : Bool
  rows : ℕ
  columns : ℕ
  colour : ℕ
  screen : ℕ
  textBuffer : ℕ → UInt8
  textBuflen : ℕ
  textOffset : ℕ

/-- A terminal, the memory, and the saved area of the screen. -/
structure Flat where
  term : Fields
  mem : ℕ → UInt8
  area : ℕ → UInt8
  areaX : ℕ
  areaY : ℕ

def pointer (a : ℕ) : Option ℕ := if a = 0 then none else some a

/-- The terminal that stands in a memory: its pointers are addresses. -/
def Fields.read (s : Fields) (mem : ℕ → UInt8) : Terminal where
  background := s.background
  cursorX := s.cursorX
  cursorY := s.cursorY
  showCursor := s.showCursor
  rows := s.rows
  columns := s.columns
  colour := s.colour
  screen := pointer s.screen
  node := fun p => ⟨word mem p, pointer (word mem (p + 4))⟩
  cells := fun b c => word mem (b + 4 * c)
  textBuffer := s.textBuffer
  textBuflen := s.textBuflen
  textOffset := s.textOffset

/-- The members of a terminal, without what they point to. -/
def members (t : Terminal) : Fields where
  background := t.background
  cursorX := t.cursorX
  cursorY := t.cursorY
  showCursor := t.showCursor
  rows := t.rows
  columns := t.columns
  colour := t.colour
  screen := t.screen.getD 0
  textBuffer := t.textBuffer
  textBuflen := t.textBuflen
  textOffset := t.textOffset

namespace Flat

variable (f : Flat)

def read : Terminal := f.term.read f.mem

/-- Assignments to members. -/
def assign (t : Terminal) : Flat := { f with term := members t }

/-- `tmp->buffer[term->cursor_x] = v`, `tmp` being `cursor_y` nodes from the top. Nothing keeps
the column within the row. -/
def storeCell (v : ℕ) : Option Flat := do
  let tmp ← f.read.nodeAt f.term.cursorY
  some { f with mem := storeWord (word f.mem tmp + 4 * f.term.cursorX) v f.mem }

/-- The statements of `terminal_scroll` but the last. -/
def rotate : Option Flat := do
  let tmp1 ← f.read.screen
  let visitedNodes ← f.read.nodesFrom (f.read.next tmp1)
  let tail ← visitedNodes.getLast?
  let mem := storeWord (tail + 4) tmp1 f.mem
  let mem := storeWord (word mem (tail + 4) + 4) 0 mem
  let mem := zeros (word mem (word mem (tail + 4))) (4 * f.term.columns) mem
  some { f with
    term := { f.term with screen := word f.mem (tmp1 + 4), cursorY := dec 16 f.term.cursorY }
    mem := mem }

/-- The rows at `nodes` blanked, and the cursor sent home. -/
def blankRows (nodes : List ℕ) : Flat :=
  { f with
    term := { f.term with cursorX := 0, cursorY := 0 }
    mem := nodes.foldl (fun mem p => zeros (word mem p) (4 * f.term.columns) mem) f.mem }

/-- The screen as the drawing calls see it: offsets count from `VIDEO_MEMORY`. -/
def video : Video where
  mem := fun p => f.mem (videoMemory + p).toNat
  area := f.area
  areaX := f.areaX
  areaY := f.areaY

/-- What a drawing call has left. -/
def store (v : Video) : Flat :=
  { f with
    mem := fun a => v.mem ((a : ℤ) - videoMemory)
    area := v.area
    areaX := v.areaX
    areaY := v.areaY }

def draw (g : Video → Option Video) : Option Flat := (g f.video).map f.store

/-- One round of the inner loop of `refresh_terminal`, on the node `tmp`. -/
def refreshCell (tmp row i : ℕ) : Option Flat := do
  let f ← f.draw (restoreIn row i)
  if row = f.term.cursorY ∧ i = f.term.cursorX ∧ f.term.showCursor then
    f.draw fun v => (saveArea (coord i) (coord row) v).bind fun v =>
      some (displayBitmap cursorBitmap (coord i) (coord row) v)
  else
    let code := word f.mem (word f.mem tmp + 4 * i)
    f.draw fun v => some (displayBitmap code (coord i) (coord row) v)

def refreshRow (tmp row : ℕ) : Option Flat :=
  (List.range f.term.columns).foldlM (fun f i => f.refreshCell tmp row i) f

/-- The outer loop from the node `tmp` on; there are `n` nodes at most. -/
def refreshRows : ℕ → ℕ → Option ℕ → Flat → Option Flat
  | _, _, none, f => some f
  | 0, _, some _, _ => none
  | n + 1, row, some tmp, f => do
    let f ← f.refreshRow tmp row
    refreshRows n (row + 1) (f.read.next tmp) f

def refresh (redraw : Bool) : Option Flat :=
  (if redraw then f.draw fun v => some (drawBackground f.term.background v) else some f).bind
    fun f => refreshRows f.term.rows 0 f.read.screen f

def terminalScroll : Option Flat := do
  let f ← f.rotate
  f.draw fun v => some (drawBackground f.term.background v)

def scrollIfBelow : Option Flat :=
  if f.term.rows ≤ f.term.cursorY then f.terminalScroll else some f

end Flat

variable (around : ℤ → ℕ)

def tputsByte (f : Flat) (c : UInt8) : Option Flat :=
  if c &&& 0xF0 = 0xF0 then some { f with term := { f.term with colour := (c &&& 0x0F).toNat } }
  else
    let f := f.assign f.read.wrap
    if c = 10 then -- newline
      (f.assign f.read.newline).scrollIfBelow
    else if c = 8 then -- backspace
      if f.term.cursorX = 0 ∧ f.term.cursorY = 0 then some f
      else do
        let f ← (f.assign f.read.stepBack).storeCell 0
        f.refresh true
    else do
      let f ← f.scrollIfBelow
      let f ← f.storeCell (fontAt around c ||| f.term.colour)
      some (f.assign f.read.advance)

def tputsLoop (msg : List UInt8) : ℕ → ℕ → Flat → Option Flat
  | 0, _, _ => none
  | n + 1, i, f =>
    if msg.getD i 0 = 0 then some f
    else (tputsByte around f (msg.getD i 0)).bind (tputsLoop msg n (inc 16 i))

def tputs (f : Flat) (msg : List UInt8) : Option Flat := do
  let f ← tputsLoop around msg 65536 0 f
  f.refresh false

def clearTerminal (f : Flat) : Option Flat := do
  let nodes ← f.read.nodesFrom f.read.screen
  (f.blankRows nodes).refresh true

/-! ### Allocating -/

/-- `kmalloc`: the address, and where the rest of the memory starts. -/
def kmalloc (start amnt : ℕ) : ℕ × ℕ := (start, (start + amnt) % 2 ^ 32)

/-- The loop of `init_terminal` from the node `tmp` on, for `n` more nodes. -/
def linkRows (columns pool : ℕ) : ℕ → ℕ → ℕ → ℕ → (ℕ → UInt8) → ℕ × (ℕ → UInt8)
  | 0, _, _, heap, mem => (heap, mem)
  | n + 1, i, tmp, heap, mem =>
    let mem := storeWord (tmp + 4) (slot pool 8 (i + 1)) mem
    let (buffer, heap) := kmalloc heap (4 * columns)
    let next := word mem (tmp + 4)
    let mem := storeWord next buffer mem
    let mem := zeros (word mem next) (4 * columns) mem
    linkRows columns pool n (i + 1) next heap mem

/-- `init_terminal`, with the memory from `heap` on. -/
def initTerminal (heap rows columns : ℕ) (background : ℕ → UInt8) (colour : ℕ) (f : Flat) :
    ℕ × Flat :=
  let f := f.store (drawBackground background f.video)
  let (pool, heap) := kmalloc heap (8 * rows)
  let mem := zeros pool (8 * rows) f.mem
  let (buffer, heap) := kmalloc heap (4 * columns)
  let mem := storeWord pool buffer mem
  let mem := zeros (word mem pool) (4 * columns) mem
  let (heap, mem) := linkRows columns pool (rows - 1) 0 pool heap mem
  let mem := storeWord (slot pool 8 (rows - 1) + 4) 0 mem
  (heap, { f with
    term := {
      background, rows, columns, colour
      cursorX := 0
      cursorY := 0
      showCursor := false
      screen := pool
      textBuffer := fun _ => 0
      textBuflen := 0
      textOffset := 0 }
    mem })

/-! ### Where the rows are -/

/-- The nodes, and the row buffers behind them. -/
structure Layout where
  pool : ℕ
  rows : ℕ
  columns : ℕ
  pos : 0 < pool
  fits : pool + 8 * rows + 4 * columns * rows < 2 ^ 32

namespace Layout

variable (l : Layout)

def node (i : ℕ) : ℕ := slot l.pool 8 i
def buf (i : ℕ) : ℕ := slot (slot l.pool 8 l.rows) (4 * l.columns) i
def top : ℕ := l.buf l.rows

def Mem (a : ℕ) : Prop := l.pool ≤ a ∧ a < l.top

/-- The offsets that drawing reaches: those of the background, and those of the cells. -/
def extent : ℕ :=
  max (kernelResWidth * kernelResHeight) (kernelResWidth * (8 * l.rows + 24) + 8 * l.columns + 25)

def Pixel (p : ℤ) : Prop := 0 ≤ p ∧ p < l.extent

def Screen (a : ℕ) : Prop := videoMemory ≤ a ∧ a < videoMemory + l.extent

/-- No row stands where the terminal is drawn. -/
def Clear : Prop := l.top ≤ videoMemory ∨ videoMemory + l.extent ≤ l.pool

/-- What the calls of the driver may change. -/
def Touched (a : ℕ) : Prop := l.Mem a ∨ l.Screen a

/-- A terminal that can be drawn with its cursor, and beside its rows. -/
structure Drawable : Prop where
  small : l.rows ≤ 8188 ∧ l.columns ≤ 8188
  clear : l.Clear

variable {l} {b c i j : ℕ}

lemma top_lt : l.top < 2 ^ 32 := l.fits

lemma node_pos (i : ℕ) : 0 < l.node i := Nat.lt_of_lt_of_le l.pos (base_le_slot _ _ _)

lemma node_le_buf (hi : i < l.rows) (b : ℕ) : l.node i + 8 ≤ l.buf b :=
  (slot_le hi).trans (base_le_slot _ _ _)

lemma buf_le_top (hb : b < l.rows) : l.buf b + 4 * l.columns ≤ l.top := slot_le hb

lemma pool_le_buf (b : ℕ) : l.pool ≤ l.buf b := (base_le_slot _ _ _).trans (base_le_slot _ _ _)

lemma node_lt (hi : i < l.rows) : l.node i + 8 < 2 ^ 32 :=
  Nat.lt_of_le_of_lt (node_le_buf hi l.rows) top_lt

lemma node_apart (h : i ≠ j) : l.node i + 8 ≤ l.node j ∨ l.node j + 8 ≤ l.node i := slot_apart h

lemma buf_apart (h : b ≠ c) :
    l.buf b + 4 * l.columns ≤ l.buf c ∨ l.buf c + 4 * l.columns ≤ l.buf b := slot_apart h

lemma pointer_node (o : Option ℕ) : pointer ((o.map l.node).getD 0) = o.map l.node := by
  cases o with
  | none => rfl
  | some i => exact if_neg (Nat.pos_iff_ne_zero.mp (node_pos i))

lemma Clear.apart (h : l.Clear) {a : ℕ} (ha : l.Mem a) : ¬ l.Screen a := by
  obtain ⟨h₁, h₂⟩ := ha
  rintro ⟨h₃, h₄⟩
  rcases h with h | h <;> omega

lemma pixel_sub {a : ℕ} : l.Pixel ((a : ℤ) - videoMemory) ↔ l.Screen a := by
  simp only [Pixel, Screen]
  omega

lemma Pixel.address {p : ℤ} (h : l.Pixel p) : ∃ a : ℕ, p = (a : ℤ) - videoMemory := by
  have hp := h.1
  exact ⟨(p + videoMemory).toNat, by omega⟩

lemma Drawable.coord (h : l.Drawable) (hrow : i < l.rows) (hi : j < l.columns) :
    coord j = 30 + j * 8 ∧ coord i = 30 + i * 8 := by
  obtain ⟨h₁, h₂⟩ := h.small
  exact ⟨Nat.mod_eq_of_lt (by omega), Nat.mod_eq_of_lt (by omega)⟩

lemma pixel_background {p : ℤ} (h₁ : 0 ≤ p) (h₂ : p < kernelResWidth * kernelResHeight) :
    l.Pixel p := by
  refine ⟨h₁, lt_of_lt_of_le h₂ ?_⟩
  exact_mod_cast le_max_left (kernelResWidth * kernelResHeight) _

lemma Drawable.pixel (h : l.Drawable) (hrow : i < l.rows) (hi : j < l.columns) :
    ∀ d ∈ block, l.Pixel (pixel (Tty.coord j) (Tty.coord i) d) := by
  intro d hd
  obtain ⟨hd₁, hd₂⟩ := mem_block.mp hd
  obtain ⟨hx, hy⟩ := h.coord hrow hi
  have hle : kernelResWidth * (8 * l.rows + 24) + 8 * l.columns + 25 ≤ l.extent :=
    le_max_right _ _
  simp only [kernelResWidth] at hle
  simp only [Pixel, Graphics.pixel, hx, hy, kernelResWidth]
  omega

end Layout

open Layout

variable {l : Layout} {mem mem' : ℕ → UInt8} {node : ℕ → Node} {cells : ℕ → ℕ → ℕ}
  {b c i v : ℕ}

/-- The memory holds the nodes and the cells. -/
structure Rows (l : Layout) (mem : ℕ → UInt8) (node : ℕ → Node) (cells : ℕ → ℕ → ℕ) : Prop where
  buffer : ∀ i < l.rows, word mem (l.node i) = l.buf (node i).buffer
  next : ∀ i < l.rows, pointer (word mem (l.node i + 4)) = (node i).next.map l.node
  cell : ∀ b < l.rows, ∀ c < l.columns, word mem (l.buf b + 4 * c) = cells b c

/-- Nothing has changed but the part `S` of the memory. -/
def Frame (S : ℕ → Prop) (mem mem' : ℕ → UInt8) : Prop := ∀ a, ¬ S a → mem' a = mem a

lemma Frame.refl (S : ℕ → Prop) (mem : ℕ → UInt8) : Frame S mem mem := fun _ _ => rfl

lemma Frame.trans {S : ℕ → Prop} {mem'' : ℕ → UInt8} (h : Frame S mem mem')
    (h' : Frame S mem' mem'') : Frame S mem mem'' := fun a ha => (h' a ha).trans (h a ha)

lemma Frame.mono {S T : ℕ → Prop} (hst : ∀ a, S a → T a) (h : Frame S mem mem') :
    Frame T mem mem' := fun a ha => h a fun hs => ha (hst a hs)

lemma frame_storeWord (h : l.pool ≤ i ∧ i + 4 ≤ l.top) : Frame l.Mem mem (storeWord i v mem) :=
  fun a ha => if_neg fun hin => ha ⟨by omega, by omega⟩

lemma frame_zeros {n : ℕ} (h : l.pool ≤ i ∧ i + n ≤ l.top) : Frame l.Mem mem (zeros i n mem) :=
  fun a ha => if_neg fun hin => ha ⟨by omega, by omega⟩

/-- Rows that nothing has been stored to. -/
lemma Rows.keep (h : Rows l mem node cells) (hkept : ∀ a, l.Mem a → mem' a = mem a) :
    Rows l mem' node cells := by
  have hword : ∀ a, l.pool ≤ a → a + 4 ≤ l.top → word mem' a = word mem a := fun a h₁ h₂ =>
    load_congr fun b h₃ h₄ => hkept b ⟨by omega, by omega⟩
  refine ⟨fun i hi => ?_, fun i hi => ?_, fun b hb c hc => ?_⟩
  · have h₁ : l.node i + 8 ≤ l.top := node_le_buf hi l.rows
    have h₂ : l.pool ≤ l.node i := base_le_slot _ _ _
    rw [hword _ h₂ (by omega), h.buffer i hi]
  · have h₁ : l.node i + 8 ≤ l.top := node_le_buf hi l.rows
    have h₂ : l.pool ≤ l.node i := base_le_slot _ _ _
    rw [hword _ (by omega) (by omega), h.next i hi]
  · have h₁ := buf_le_top hb
    have h₂ := pool_le_buf (l := l) b
    rw [hword _ (by omega) (by omega), h.cell b hb c hc]

/-- A cell of one row is stored. -/
lemma Rows.storeCell (h : Rows l mem node cells) (hb : b < l.rows) (hc : c < l.columns)
    (hv : v < 2 ^ 32) :
    Rows l (storeWord (l.buf b + 4 * c) v mem) node
      (Function.update cells b (Function.update (cells b) c v)) := by
  refine ⟨fun i hi => ?_, fun i hi => ?_, fun b' hb' c' hc' => ?_⟩
  · have := node_le_buf hi b
    rw [word_storeWord_apart (Or.inl (by omega)), h.buffer i hi]
  · have := node_le_buf hi b
    rw [word_storeWord_apart (Or.inl (by omega)), h.next i hi]
  · by_cases hbb : b' = b
    · subst hbb
      rw [Function.update_self, Function.update_apply]
      by_cases hcc : c' = c
      · rw [hcc, if_pos rfl, word_storeWord _ _ hv]
      · rw [if_neg hcc, word_storeWord_apart (by omega), h.cell b' hb' c' hc']
    · have := buf_apart (l := l) hbb
      rw [Function.update_of_ne hbb, word_storeWord_apart (by omega), h.cell b' hb' c' hc']

/-- A node is linked to another one, or to none. -/
lemma Rows.setNext (h : Rows l mem node cells) (hi : i < l.rows) {q : Option ℕ}
    (hq : ∀ j ∈ q, j < l.rows) :
    Rows l (storeWord (l.node i + 4) ((q.map l.node).getD 0) mem)
      (Function.update node i { node i with next := q }) cells := by
  have hlt : (q.map l.node).getD 0 < 2 ^ 32 := by
    cases q with
    | none => exact Nat.two_pow_pos 32
    | some j => exact Nat.lt_of_le_of_lt (Nat.le_add_right _ _) (node_lt (hq j rfl))
  refine ⟨fun j hj => ?_, fun j hj => ?_, fun b hb c hc => ?_⟩
  · have hsame : (Function.update node i { node i with next := q } j).buffer = (node j).buffer := by
      rw [Function.update_apply]
      split_ifs with he
      · rw [he]
      · rfl
    have hap : l.node j + 4 ≤ l.node i + 4 ∨ l.node i + 4 + 4 ≤ l.node j := by
      by_cases he : j = i
      · rw [he]; omega
      · have := node_apart (l := l) he; omega
    rw [word_storeWord_apart hap, hsame, h.buffer j hj]
  · by_cases he : j = i
    · rw [he, word_storeWord _ _ hlt, Function.update_self, pointer_node]
    · have := node_apart (l := l) he
      rw [Function.update_of_ne he, word_storeWord_apart (by omega), h.next j hj]
  · have := node_le_buf hi b
    rw [word_storeWord_apart (Or.inr (by omega)), h.cell b hb c hc]

/-- A row goes blank. -/
lemma Rows.blank (h : Rows l mem node cells) (b : ℕ) :
    Rows l (zeros (l.buf b) (4 * l.columns) mem) node
      (Function.update cells b fun c => if c < l.columns then 0 else cells b c) := by
  refine ⟨fun i hi => ?_, fun i hi => ?_, fun b' hb' c hc => ?_⟩
  · have := node_le_buf hi b
    rw [word_zeros_apart (Or.inl (by omega)), h.buffer i hi]
  · have := node_le_buf hi b
    rw [word_zeros_apart (Or.inl (by omega)), h.next i hi]
  · by_cases he : b' = b
    · rw [he, Function.update_self, if_pos hc, word_zeros _ ⟨by omega, by omega⟩]
    · have := buf_apart (l := l) he
      rw [Function.update_of_ne he, word_zeros_apart (by omega), h.cell b' hb' c hc]

/-! ### Reading -/

/-- The memory holds the terminal `t`. -/
structure Represents (l : Layout) (f : Flat) (t : Terminal) : Prop where
  rows : t.rows = l.rows
  columns : t.columns = l.columns
  term : f.term = { members t with screen := (t.screen.map l.node).getD 0 }
  held : Rows l f.mem t.node t.cells

variable {f f' : Flat} {t t' : Terminal} {xs : List ℕ}

section Reading

variable (h : Represents l f t) (hl : Listed t xs)
include h

lemma Represents.screen : f.read.screen = t.screen.map l.node := by
  show pointer f.term.screen = _
  rw [h.term, pointer_node]

lemma Represents.background_eq : f.term.background = t.background :=
  congrArg Fields.background h.term

lemma Represents.cursorX_eq : f.term.cursorX = t.cursorX := congrArg Fields.cursorX h.term

lemma Represents.cursorY_eq : f.term.cursorY = t.cursorY := congrArg Fields.cursorY h.term

lemma Represents.showCursor_eq : f.term.showCursor = t.showCursor :=
  congrArg Fields.showCursor h.term

lemma Represents.rows_eq : f.term.rows = t.rows := congrArg Fields.rows h.term

lemma Represents.columns_eq : f.term.columns = t.columns := congrArg Fields.columns h.term

lemma Represents.colour_eq : f.term.colour = t.colour := congrArg Fields.colour h.term

lemma Represents.next (hi : i < l.rows) : f.read.next (l.node i) = (t.next i).map l.node :=
  h.held.next i hi

include hl

lemma Represents.chain : Chain f.read.next f.read.screen (xs.map l.node) := by
  rw [h.screen]
  exact chain_map l.node hl.chain fun p hp => h.next (h.rows ▸ hl.lt hp)

lemma Represents.nodeAt (n : ℕ) : f.read.nodeAt n = (t.nodeAt n).map l.node := by
  rw [hl.nodeAt]
  exact (walk_of_chain (h.chain hl) n).trans List.getElem?_map

lemma Represents.length : (xs.map l.node).length = f.read.rows := by
  rw [List.length_map, hl.length]
  exact h.rows_eq.symm

lemma Represents.nodes : f.read.nodesFrom f.read.screen = some (xs.map l.node) :=
  visited_of_chain (h.chain hl) (Nat.le_of_eq (h.length hl))

end Reading

/-! ### Drawing -/

/-- The memory outside of the rows has what has been drawn. -/
structure Shows (l : Layout) (f : Flat) (w : Video) : Prop where
  pixel : ∀ a, ¬ l.Mem a → f.mem a = w.mem ((a : ℤ) - videoMemory)
  area : f.area = w.area
  areaX : f.areaX = w.areaX
  areaY : f.areaY = w.areaY

variable {w w' : Video} {f₀ : Flat}

lemma video_mem (f : Flat) (a : ℕ) : f.video.mem ((a : ℤ) - videoMemory) = f.mem a := by
  show f.mem (videoMemory + ((a : ℤ) - videoMemory)).toNat = f.mem a
  rw [add_sub_cancel, Int.toNat_natCast]

lemma Shows.alike (h : Shows l f w) (hclear : l.Clear) : Alike l.Pixel w f.video := by
  refine ⟨fun p hp => ?_, h.area.symm, h.areaX.symm, h.areaY.symm⟩
  obtain ⟨a, rfl⟩ := hp.address
  rw [video_mem, h.pixel a fun hin => hclear.apart hin (pixel_sub.mp hp)]

/-- Some drawing has been done from `f₀` on: the memory holds the terminal still, and nothing but
the screen has changed. -/
structure Drawn (l : Layout) (t : Terminal) (f₀ f : Flat) (w : Video) : Prop where
  represents : Represents l f t
  shows : Shows l f w
  frame : Frame l.Screen f₀.mem f.mem

/-- A call on offsets of the screen does in memory what it does on the screen alone. -/
lemma Drawn.draw (h : Drawn l t f₀ f w) (hclear : l.Clear) {g : Video → Option Video}
    (hg : Within l.Pixel g) (hw : g w = some w') :
    ∃ f', f.draw g = some f' ∧ Drawn l t f₀ f' w' := by
  obtain ⟨u, hu, ha⟩ := hg.agree w f.video w' (h.shows.alike hclear) hw
  have hstored : ∀ a, ¬ l.Screen a → (f.store u).mem a = f.mem a := fun a hs =>
    (hg.rest f.video u hu _ (mt pixel_sub.mp hs)).trans (video_mem f a)
  have hr := h.represents
  refine ⟨f.store u, by rw [Flat.draw, hu]; rfl, ⟨hr.rows, hr.columns, hr.term, ?_⟩,
    ⟨fun a hin => ?_, ha.area.symm, ha.areaX.symm, ha.areaY.symm⟩, h.frame.trans hstored⟩
  · exact hr.held.keep fun a hin => hstored a (hclear.apart hin)
  · by_cases hp : l.Pixel ((a : ℤ) - videoMemory)
    · exact (ha.mem _ hp).symm
    · rw [hstored a (mt pixel_sub.mpr hp), hg.rest w w' hw _ hp, h.shows.pixel a hin]

lemma Drawn.background (h : Drawn l t f₀ f w) (hclear : l.Clear) (img : ℕ → UInt8) :
    ∃ f', (f.draw fun v => some (drawBackground img v)) = some f' ∧
      Drawn l t f₀ f' (drawBackground img w) :=
  h.draw hclear (within_drawBackground img fun _ => pixel_background) rfl

section Refreshing

variable (hd : l.Drawable)
include hd

/-- A cell is drawn from the memory as from the list. -/
lemma Drawn.refreshCell (h : Drawn l t f₀ f w) {p row : ℕ} (hp : p < l.rows)
    (hown : (t.node p).buffer = p) (hrow : row < l.rows) (hi : i < l.columns)
    (hw : refreshCell t row i (t.cells (t.node p).buffer i) w = some w') :
    ∃ f', f.refreshCell (l.node p) row i = some f' ∧ Drawn l t f₀ f' w' := by
  obtain ⟨w₁, hw₁, hw⟩ := Option.bind_eq_some_iff.mp hw
  obtain ⟨hx, hy⟩ := hd.coord hrow hi
  have hpix := hd.pixel hrow hi
  obtain ⟨f₁, hf₁, h₁⟩ := h.draw hd.clear (within_restoreIn hx hy hpix) hw₁
  have hr := h₁.represents
  have hcode : word f₁.mem (word f₁.mem (l.node p) + 4 * i) = t.cells (t.node p).buffer i := by
    rw [hr.held.buffer p hp, hown, hr.held.cell p hp i hi]
  unfold Flat.refreshCell
  rw [hf₁, Option.bind_eq_bind, Option.bind_some, hcode, hr.cursorY_eq, hr.cursorX_eq,
    hr.showCursor_eq]
  split_ifs at hw ⊢ with hc
  · exact h₁.draw hd.clear
      ((within_saveArea hpix).bind (within_displayBitmap cursorBitmap hpix)) hw
  · exact h₁.draw hd.clear (within_displayBitmap _ hpix) hw

lemma Drawn.refreshRow (h : Drawn l t f₀ f w) {p row : ℕ} (hp : p < l.rows)
    (hown : (t.node p).buffer = p) (hrow : row < l.rows)
    (hw : refreshRow t w (p, row) = some w') :
    ∃ f', f.refreshRow (l.node p) row = some f' ∧ Drawn l t f₀ f' w' := by
  unfold Flat.refreshRow
  rw [h.represents.columns_eq]
  refine foldlM_rel (fun w f => Drawn l t f₀ f w) (fun i hi w f w' h hw => ?_) h hw
  exact h.refreshCell hd hp hown hrow (h.represents.columns ▸ List.mem_range.mp hi) hw

/-- The rows from a node on. Each link is followed after its row has been drawn. -/
lemma Drawn.refreshRows {ys : List ℕ} {k n : ℕ} {q : Option ℕ} (h : Drawn l t f₀ f w)
    (hys : Chain t.next q ys) (hin : ∀ p ∈ ys, p < l.rows ∧ (t.node p).buffer = p)
    (hk : k + ys.length ≤ l.rows) (hn : ys.length ≤ n)
    (hw : (ys.zipIdx k).foldlM (Tty.refreshRow t) w = some w') :
    ∃ f', Flat.refreshRows n k (q.map l.node) f = some f' ∧ Drawn l t f₀ f' w' := by
  induction ys generalizing q k n f w with
  | nil =>
    obtain rfl : q = none := hys
    obtain rfl := Option.some.inj hw
    cases n <;> exact ⟨f, rfl, h⟩
  | cons p ys ih =>
    obtain ⟨rfl, hys⟩ := hys
    obtain ⟨hp, hown⟩ := hin p List.mem_cons_self
    rw [List.length_cons] at hk hn
    obtain ⟨n, rfl⟩ : ∃ m, n = m + 1 := ⟨n - 1, by omega⟩
    rw [List.zipIdx_cons, List.foldlM_cons, Option.bind_eq_bind, Option.bind_eq_some_iff] at hw
    obtain ⟨w₁, hw₁, hw⟩ := hw
    obtain ⟨f₁, hf₁, h₁⟩ := h.refreshRow hd hp hown (show k < l.rows by omega) hw₁
    obtain ⟨f', hf', h'⟩ := ih (n := n) h₁ hys (fun q hq => hin q (List.mem_cons_of_mem p hq))
      (show k + 1 + ys.length ≤ l.rows by omega) (by omega) hw
    refine ⟨f', ?_, h'⟩
    rw [Option.map_some, Flat.refreshRows, hf₁, Option.bind_eq_bind, Option.bind_some,
      h₁.represents.next hp]
    exact hf'

/-- The rows are drawn from the memory as from the list. -/
lemma Represents.refresh (h : Represents l f t) (hs : Shows l f w) (hl : Listed t xs)
    {redraw : Bool} (hw : refreshTerminal t redraw w = some w') :
    ∃ f', f.refresh redraw = some f' ∧ Drawn l t f f' w' := by
  obtain ⟨nodes, hnodes, hw⟩ := Option.bind_eq_some_iff.mp hw
  obtain rfl := Option.some.inj (hl.nodes.symm.trans hnodes)
  have hlen : xs.length = l.rows := hl.length.trans h.rows
  -- the background, and then row by row
  have hstart : ∃ f₁, (if redraw then f.draw fun v => some (drawBackground f.term.background v)
      else some f) = some f₁ ∧
        Drawn l t f f₁ (if redraw then drawBackground t.background w else w) := by
    have hsame : Drawn l t f f w := ⟨h, hs, Frame.refl _ _⟩
    cases redraw with
    | false => exact ⟨f, rfl, hsame⟩
    | true => exact h.background_eq ▸ hsame.background hd.clear f.term.background
  obtain ⟨f₁, hf₁, h₁⟩ := hstart
  have hrows : f₁.term.rows = xs.length := h₁.represents.rows_eq.trans hl.length.symm
  obtain ⟨f', hf', h'⟩ := h₁.refreshRows hd hl.chain
    (fun p hp => ⟨h.rows ▸ hl.lt hp, hl.own p (hl.lt hp)⟩)
    (show 0 + xs.length ≤ l.rows by omega) (Nat.le_of_eq hrows.symm) hw
  refine ⟨f', ?_, h'⟩
  rw [Flat.refresh, hf₁, Option.bind_some, h₁.represents.screen]
  exact hf'

end Refreshing

/-! ### Storing -/

/-- What an operation has done: the memory holds the new terminal, nothing else in it has
changed, and nothing has been drawn. -/
structure Kept (l : Layout) (f f' : Flat) (t' : Terminal) : Prop where
  represents : Represents l f' t'
  frame : Frame l.Mem f.mem f'.mem
  area : f'.area = f.area ∧ f'.areaX = f.areaX ∧ f'.areaY = f.areaY

lemma Kept.shows (h : Kept l f f' t') (hs : Shows l f w) : Shows l f' w := by
  obtain ⟨h₁, h₂, h₃⟩ := h.area
  exact ⟨fun a ha => (h.frame a ha).trans (hs.pixel a ha), h₁.trans hs.area, h₂.trans hs.areaX,
    h₃.trans hs.areaY⟩

/-- `g` works on the members alone, and keeps the size. -/
structure OnMembers (g : Terminal → Terminal) : Prop where
  commutes : ∀ t s n c, g { t with screen := s, node := n, cells := c } =
    { g t with screen := s, node := n, cells := c }
  rows : ∀ t, (g t).rows = t.rows
  columns : ∀ t, (g t).columns = t.columns

lemma onMembers_wrap : OnMembers Terminal.wrap := by
  refine ⟨fun t s n c => ?_, wrap_rows, wrap_columns⟩
  simp only [Terminal.wrap]
  split_ifs <;> rfl

lemma onMembers_stepBack : OnMembers Terminal.stepBack := by
  refine ⟨fun t s n c => ?_, stepBack_rows, stepBack_columns⟩
  simp only [Terminal.stepBack]
  split_ifs <;> rfl

lemma onMembers_newline : OnMembers Terminal.newline :=
  ⟨fun _ _ _ _ => rfl, fun _ => rfl, fun _ => rfl⟩

lemma onMembers_advance : OnMembers Terminal.advance :=
  ⟨fun _ _ _ _ => rfl, fun _ => rfl, fun _ => rfl⟩

lemma Represents.read_eq (h : Represents l f t) : f.read =
    { t with screen := f.read.screen, node := f.read.node, cells := f.read.cells } := by
  show f.term.read f.mem = { t with
    screen := pointer f.term.screen
    node := (f.term.read f.mem).node
    cells := (f.term.read f.mem).cells }
  rw [h.term]
  rfl

lemma Represents.assign {g : Terminal → Terminal} (h : Represents l f t) (hg : OnMembers g) :
    Represents l (f.assign (g f.read)) (g t) := by
  have hown : g t = { g t with screen := t.screen, node := t.node, cells := t.cells } :=
    hg.commutes t t.screen t.node t.cells
  have hread : g f.read =
      { g t with screen := f.read.screen, node := f.read.node, cells := f.read.cells } :=
    (congrArg g h.read_eq).trans (hg.commutes t _ _ _)
  have hs : (g t).screen = t.screen := by rw [hown]
  have hn : (g t).node = t.node := by rw [hown]
  have hc : (g t).cells = t.cells := by rw [hown]
  refine ⟨(hg.rows t).trans h.rows, (hg.columns t).trans h.columns, ?_,
    by rw [hn, hc]; exact h.held⟩
  show members (g f.read) = _
  rw [hread, h.screen, hs]
  rfl

/-- A cell stored. -/
lemma Represents.storeCell (h : Represents l f t) (hl : Listed t xs) (hv : v < 2 ^ 32)
    (ht : t.storeCell v = some t') : ∃ f', f.storeCell v = some f' ∧ Kept l f f' t' := by
  obtain ⟨p, hp, ht⟩ := Option.bind_eq_some_iff.mp ht
  split_ifs at ht with hx
  obtain rfl := Option.some.inj ht
  have hmem : p ∈ xs := List.mem_of_getElem? (by rw [← hl.nodeAt, hp])
  have hlt : p < l.rows := h.rows ▸ hl.lt hmem
  have hxc : t.cursorX < l.columns := h.columns ▸ hx
  have hown : (t.node p).buffer = p := hl.own p (hl.lt hmem)
  have hword : word f.mem (l.node p) = l.buf p :=
    (h.held.buffer p hlt).trans (congrArg l.buf hown)
  refine ⟨{ f with mem := storeWord (l.buf p + 4 * t.cursorX) v f.mem }, ?_, ?_, ?_, rfl, rfl, rfl⟩
  · unfold Flat.storeCell
    rw [h.cursorY_eq, h.nodeAt hl, hp, Option.map_some, Option.bind_eq_bind, Option.bind_some,
      hword, h.cursorX_eq]
  · refine ⟨h.rows, h.columns, h.term, ?_⟩
    simp only [hown]
    exact h.held.storeCell hlt hxc hv
  · have := pool_le_buf (l := l) p
    have := buf_le_top hlt
    exact frame_storeWord ⟨by omega, by omega⟩

/-- A scroll. -/
lemma Represents.rotate (h : Represents l f t) (hl : Listed t xs) (ht : t.rotate = some t') :
    ∃ f', f.rotate = some f' ∧ Kept l f f' t' := by
  obtain ⟨a, ha, ht⟩ := Option.bind_eq_some_iff.mp ht
  obtain ⟨ys, hys, ht⟩ := Option.bind_eq_some_iff.mp ht
  obtain ⟨b, hb, ht⟩ := Option.bind_eq_some_iff.mp ht
  obtain rfl := Option.some.inj ht
  -- the list is the head `a` and the nodes `ys` behind it, the last of which is `b`
  obtain rfl : xs = a :: ys := by
    have hchain := hl.chain
    cases xs with
    | nil => rw [chain_nil, ha] at hchain; cases hchain
    | cons x zs =>
      obtain ⟨hx, hzs⟩ := hchain
      obtain rfl := Option.some.inj (ha.symm.trans hx)
      have hlen : zs.length ≤ t.rows := by
        rw [← hl.length, List.length_cons]
        exact Nat.le_succ _
      rw [Option.some.inj ((visited_of_chain hzs hlen).symm.trans hys)]
  have hbys : b ∈ ys := List.mem_of_getLast? hb
  have hba : b ≠ a := fun he => (List.nodup_cons.mp hl.nodup).1 (he ▸ hbys)
  have halt : a < l.rows := h.rows ▸ hl.lt List.mem_cons_self
  have hblt : b < l.rows := h.rows ▸ hl.lt (List.mem_cons_of_mem a hbys)
  have hown : (t.node a).buffer = a := hl.own a (hl.lt List.mem_cons_self)
  have hscreen : f.read.screen = some (l.node a) := by rw [h.screen, ha]; rfl
  have hnodes : f.read.nodesFrom (f.read.next (l.node a)) = some (ys.map l.node) := by
    have hchain : Chain f.read.next (f.read.next (l.node a)) (ys.map l.node) := (h.chain hl).2
    refine visited_of_chain hchain ?_
    rw [← h.length hl, List.map_cons, List.length_cons]
    exact Nat.le_succ _
  -- the tail is linked to the head, then the head to none, and then its row is cleared
  have h₁ := h.held.setNext hblt (q := some a) fun j hj => Option.some.inj hj ▸ halt
  have h₂ := h₁.setNext halt (q := none) fun j hj => nomatch hj
  have h₃ := h₂.blank a
  simp only [Option.map_some, Option.map_none, Option.getD_some, Option.getD_none] at h₁ h₂ h₃
  set m₁ := storeWord (l.node b + 4) (l.node a) f.mem
  set m₂ := storeWord (l.node a + 4) 0 m₁
  have hnb : ∀ q, (Function.update t.node b q) a = t.node a := fun q =>
    Function.update_of_ne hba.symm _ _
  have hw₁ : word m₁ (l.node b + 4) = l.node a :=
    word_storeWord _ _ (Nat.lt_of_le_of_lt (Nat.le_add_right _ _) (node_lt halt))
  have hw₂ : word m₂ (l.node b + 4) = l.node a := by
    have := node_apart (l := l) hba
    rw [← hw₁]
    exact word_storeWord_apart (by omega)
  have hbuf : word m₂ (l.node a) = l.buf a := by
    rw [h₂.buffer a halt, Function.update_self]
    exact congrArg l.buf (by rw [hnb]; exact hown)
  have hcols : f.term.columns = l.columns := h.columns_eq.trans h.columns
  have hnext : word f.mem (l.node a + 4) = ((t.next a).map l.node).getD 0 := by
    have hp := h.next halt
    change pointer (word f.mem (l.node a + 4)) = _ at hp
    rw [← hp, pointer]
    split_ifs with h0
    · exact h0
    · rfl
  refine ⟨{ f with
    term := { f.term with
      screen := ((t.next a).map l.node).getD 0
      cursorY := dec 16 t.cursorY }
    mem := zeros (l.buf a) (4 * l.columns) m₂ }, ?_, ⟨h.rows, h.columns, ?_, ?_⟩, ?_,
    rfl, rfl, rfl⟩
  · unfold Flat.rotate
    simp only [hscreen, hnodes, List.getLast?_map, hb, Option.map_some, Option.bind_eq_bind,
      Option.bind_some]
    rw [hw₁, hw₂, hbuf, hcols, h.cursorY_eq, hnext]
  · rw [h.term]
    rfl
  · have hblank : ∀ row : ℕ → ℕ, t.blankRow row = fun c => if c < l.columns then 0 else row c :=
      fun row => by rw [← h.columns]; rfl
    simp only [hblank, Function.update_self, hnb, hown]
    simpa only [hnb, hown] using h₃
  · have hp := base_le_slot l.pool 8
    have hna := node_le_buf halt l.rows
    have hnb' := node_le_buf hblt l.rows
    have hpool := pool_le_buf (l := l) a
    have hend := buf_le_top halt
    refine ((frame_storeWord ⟨(hp b).trans (Nat.le_add_right _ _), ?_⟩).trans
      (frame_storeWord ⟨(hp a).trans (Nat.le_add_right _ _), ?_⟩)).trans
      (frame_zeros ⟨hpool, hend⟩)
    · exact (show l.node b + 4 + 4 ≤ l.top from hnb')
    · exact (show l.node a + 4 + 4 ≤ l.top from hna)

/-- The rows of some nodes go blank. -/
lemma Rows.blankAll (h : Rows l mem node cells) {row : (ℕ → ℕ) → ℕ → ℕ}
    (hrow : ∀ r, row r = fun c => if c < l.columns then 0 else r c) {ps : List ℕ}
    (hps : ∀ p ∈ ps, p < l.rows ∧ (node p).buffer = p) :
    Rows l ((ps.map l.node).foldl (fun mem p => zeros (word mem p) (4 * l.columns) mem) mem) node
        (ps.foldl (fun cells p =>
          Function.update cells (node p).buffer (row (cells (node p).buffer))) cells) ∧
      Frame l.Mem mem
        ((ps.map l.node).foldl (fun mem p => zeros (word mem p) (4 * l.columns) mem) mem) := by
  induction ps generalizing mem cells with
  | nil => exact ⟨h, Frame.refl _ _⟩
  | cons p ps ih =>
    obtain ⟨hlt, hown⟩ := hps p List.mem_cons_self
    have hword : word mem (l.node p) = l.buf p := by rw [h.buffer p hlt, hown]
    have hframe : Frame l.Mem mem (zeros (l.buf p) (4 * l.columns) mem) :=
      frame_zeros ⟨pool_le_buf p, buf_le_top hlt⟩
    have hstep := ih (h.blank p) fun q hq => hps q (List.mem_cons_of_mem p hq)
    rw [List.map_cons, List.foldl_cons, List.foldl_cons, hword, hown, hrow]
    exact ⟨hstep.1, hframe.trans hstep.2⟩

lemma Represents.blankRows (h : Represents l f t) (hl : Listed t xs) :
    Kept l f (f.blankRows (xs.map l.node)) (t.blankRows xs) := by
  have hcols : f.term.columns = l.columns := h.columns_eq.trans h.columns
  have hrow : ∀ r, t.blankRow r = fun c => if c < l.columns then 0 else r c := by
    intro r
    rw [← h.columns]
    rfl
  have hall := h.held.blankAll hrow fun p (hp : p ∈ xs) => ⟨h.rows ▸ hl.lt hp, hl.own p (hl.lt hp)⟩
  rw [← hcols] at hall
  refine ⟨⟨h.rows, h.columns, ?_, hall.1⟩, hall.2, rfl, rfl, rfl⟩
  show ({ f.term with cursorX := 0, cursorY := 0 } : Fields) = _
  rw [h.term]
  rfl

/-! ### The driver in memory -/

/-- The memory holds the terminal, and the screen that it draws on. -/
structure Embeds (l : Layout) (f : Flat) (m : Machine) : Prop where
  represents : Represents l f m.term
  shows : Shows l f m.video
  colour : m.term.colour < 2 ^ 8

/-- A call that comes back comes back with the memory for its result, and it has changed nothing
but the rows and the screen. -/
def Follows (l : Layout) (f : Flat) (r : Option Flat) (m : Machine) : Prop :=
  ∃ f', r = some f' ∧ Embeds l f' m ∧ Frame l.Touched f.mem f'.mem

variable {m m' : Machine} {around : ℤ → ℕ}

lemma Frame.touched_mem (h : Frame l.Mem mem mem') : Frame l.Touched mem mem' :=
  h.mono fun _ => Or.inl

lemma Frame.touched_screen (h : Frame l.Screen mem mem') : Frame l.Touched mem mem' :=
  h.mono fun _ => Or.inr

lemma Follows.refl (h : Embeds l f m) : Follows l f (some f) m := ⟨f, rfl, h, Frame.refl _ _⟩

lemma Follows.trans {f₁ : Flat} {r : Option Flat} (h : Frame l.Touched f.mem f₁.mem)
    (h' : Follows l f₁ r m) : Follows l f r m := by
  obtain ⟨f', hr, he, hf⟩ := h'
  exact ⟨f', hr, he, h.trans hf⟩

lemma Embeds.assign (h : Embeds l f m) {g : Terminal → Terminal} (hg : OnMembers g)
    (hc : (g m.term).colour = m.term.colour) :
    Embeds l (f.assign (g f.read)) ⟨g m.term, m.video⟩ := by
  have hs := h.shows
  exact ⟨h.represents.assign hg, ⟨hs.pixel, hs.area, hs.areaX, hs.areaY⟩, hc ▸ h.colour⟩

lemma Embeds.refresh (hd : l.Drawable) (h : Embeds l f m) (hl : Listed m.term xs) {redraw : Bool}
    (hm : refreshTerminal m.term redraw m.video = some w) :
    Follows l f (f.refresh redraw) ⟨m.term, w⟩ := by
  obtain ⟨f', hf, hdrawn⟩ := h.represents.refresh hd h.shows hl hm
  exact ⟨f', hf, ⟨hdrawn.represents, hdrawn.shows, h.colour⟩, hdrawn.frame.touched_screen⟩

lemma rotate_colour (ht : t.rotate = some t') :
    t'.colour = t.colour ∧ t'.background = t.background := by
  obtain ⟨a, -, ht⟩ := Option.bind_eq_some_iff.mp ht
  obtain ⟨ys, -, ht⟩ := Option.bind_eq_some_iff.mp ht
  obtain ⟨b, -, ht⟩ := Option.bind_eq_some_iff.mp ht
  obtain rfl := Option.some.inj ht
  exact ⟨rfl, rfl⟩

lemma storeCell_colour (ht : t.storeCell v = some t') : t'.colour = t.colour := by
  obtain ⟨p, -, ht⟩ := Option.bind_eq_some_iff.mp ht
  split_ifs at ht
  obtain rfl := Option.some.inj ht
  rfl

lemma Embeds.scrollIfBelow (hd : l.Drawable) (h : Embeds l f m) (hl : Listed m.term xs)
    (hm : scrollIfBelow m = some m') : Follows l f f.scrollIfBelow m' := by
  unfold Tty.scrollIfBelow at hm
  unfold Flat.scrollIfBelow
  rw [h.represents.rows_eq, h.represents.cursorY_eq]
  split_ifs at hm ⊢ with hy
  · obtain ⟨t, ht, hm⟩ := Option.bind_eq_some_iff.mp hm
    obtain rfl := Option.some.inj hm
    obtain ⟨f₁, hf₁, hk⟩ := h.represents.rotate hl ht
    have hsame : Drawn l t f₁ f₁ m.video := ⟨hk.represents, hk.shows h.shows, Frame.refl _ _⟩
    obtain ⟨f₂, hf₂, hdrawn⟩ := hsame.background hd.clear t.background
    refine ⟨f₂, ?_, ⟨hdrawn.represents, hdrawn.shows, (rotate_colour ht).1 ▸ h.colour⟩,
      hk.frame.touched_mem.trans hdrawn.frame.touched_screen⟩
    unfold Flat.terminalScroll
    rw [hf₁, Option.bind_eq_bind, Option.bind_some, hk.represents.background_eq, hf₂]
  · obtain rfl := Option.some.inj hm
    exact .refl h

lemma Embeds.storeCell (h : Embeds l f m) (hl : Listed m.term xs) (hv : v < 2 ^ 32)
    (ht : m.term.storeCell v = some t') : Follows l f (f.storeCell v) ⟨t', m.video⟩ := by
  obtain ⟨f', hf, hk⟩ := h.represents.storeCell hl hv ht
  exact ⟨f', hf, ⟨hk.represents, hk.shows h.shows, storeCell_colour ht ▸ h.colour⟩,
    hk.frame.touched_mem⟩

lemma listed_scrollIfBelow (hl : Listed m.term xs) (h2 : 2 ≤ m.term.rows)
    (hm : scrollIfBelow m = some m') : ∃ xs', Listed m'.term xs' := by
  obtain ⟨t', xs', hl', -, -, heq⟩ := follow_eq hl h2 m.video
  rw [heq] at hm
  obtain ⟨v, -, rfl⟩ := Option.map_eq_some_iff.mp hm
  exact ⟨xs', hl'⟩

lemma listed_storeCell (hl : Listed t xs) (ht : t.storeCell v = some t') : Listed t' xs := by
  obtain ⟨p, -, ht⟩ := Option.bind_eq_some_iff.mp ht
  split_ifs at ht
  obtain rfl := Option.some.inj ht
  exact hl.congr rfl rfl rfl

lemma stepBack_colour (t : Terminal) : t.stepBack.colour = t.colour := by
  simp only [Terminal.stepBack]
  split_ifs <;> rfl

/-- The words of the font, and the colour in their lower bits. -/
lemma fontAt_lt (haround : ∀ i, around i < 2 ^ 32) (c : UInt8) : fontAt around c < 2 ^ 32 := by
  have hall : ∀ w ∈ defaultFont, w < 2 ^ 32 := by decide +kernel
  simp only [fontAt]
  split_ifs
  · rw [List.getD_eq_getElem?_getD]
    cases hw : defaultFont[c.toInt8.toInt.toNat]? with
    | none => exact Nat.two_pow_pos 32
    | some w => exact hall w (List.mem_of_getElem? hw)
  · exact haround _

section Calls

variable (hd : l.Drawable) (haround : ∀ i, around i < 2 ^ 32)
include hd haround

/-- **One byte**: in memory the driver does what it does on the list. -/
lemma tputsByte_follows (h : Embeds l f m) (hs : Shaped m.term) (c : UInt8)
    (hm : Tty.tputsByte around m c = some m') :
    Follows l f (tputsByte around f c) m' := by
  obtain ⟨⟨xs, hl⟩, ok⟩ := hs
  have h2 : 2 ≤ m.term.rows := ok.rows.1
  unfold Tty.tputsByte at hm
  unfold tputsByte
  by_cases hcol : c &&& 0xF0 = 0xF0
  · rw [if_pos hcol] at hm ⊢
    obtain rfl := Option.some.inj hm
    have hr := h.represents
    have hw := h.shows
    refine ⟨_, rfl, ⟨⟨hr.rows, hr.columns, ?_, hr.held⟩, ⟨hw.pixel, hw.area, hw.areaX, hw.areaY⟩,
      UInt8.toNat_lt _⟩, Frame.refl _ _⟩
    rw [hr.term]
    rfl
  rw [if_neg hcol] at hm ⊢
  have hw : Embeds l (f.assign f.read.wrap) ⟨m.term.wrap, m.video⟩ :=
    h.assign onMembers_wrap (wrap_colour _)
  by_cases hnl : c = 10
  · rw [if_pos hnl] at hm ⊢
    exact (hw.assign onMembers_newline rfl).scrollIfBelow hd (hl.wrap.congr rfl rfl rfl) hm
  rw [if_neg hnl] at hm ⊢
  by_cases hbs : c = 8
  · rw [if_pos hbs] at hm ⊢
    simp only [hw.represents.cursorX_eq, hw.represents.cursorY_eq]
    split_ifs at hm ⊢ with h0
    · obtain rfl := Option.some.inj hm
      exact .refl hw
    · obtain ⟨t, ht, hm⟩ := Option.bind_eq_some_iff.mp hm
      obtain ⟨v, hv, hm⟩ := Option.bind_eq_some_iff.mp hm
      obtain rfl := Option.some.inj hm
      have hsb := hw.assign onMembers_stepBack (stepBack_colour _)
      obtain ⟨f₁, hf₁, he, hframe⟩ := hsb.storeCell hl.wrap.stepBack (by decide) ht
      rw [hf₁]
      exact .trans hframe (he.refresh hd (listed_storeCell hl.wrap.stepBack ht) hv)
  rw [if_neg hbs] at hm ⊢
  obtain ⟨m₁, hm₁, hm⟩ := Option.bind_eq_some_iff.mp hm
  obtain ⟨t, ht, hm⟩ := Option.bind_eq_some_iff.mp hm
  obtain rfl := Option.some.inj hm
  obtain ⟨f₁, hf₁, he₁, hframe₁⟩ := hw.scrollIfBelow hd hl.wrap hm₁
  obtain ⟨xs₁, hl₁⟩ := listed_scrollIfBelow hl.wrap (by rw [wrap_rows]; exact h2) hm₁
  have hv : fontAt around c ||| m₁.term.colour < 2 ^ 32 :=
    Nat.or_lt_two_pow (fontAt_lt haround c) (he₁.colour.trans (by decide))
  obtain ⟨f₂, hf₂, he₂, hframe₂⟩ := he₁.storeCell hl₁ hv ht
  simp only [hf₁, he₁.represents.colour_eq, hf₂, Option.bind_eq_bind, Option.bind_some]
  exact ⟨_, rfl, he₂.assign onMembers_advance rfl, hframe₁.trans hframe₂⟩

/-- The loop, round by round. -/
lemma tputsLoop_follows (msg : List UInt8) (n i : ℕ) (h : Embeds l f m) (hs : Shaped m.term)
    (hm : Tty.tputsLoop around msg n i m = some m') :
    Follows l f (tputsLoop around msg n i f) m' ∧ Shaped m'.term := by
  induction n generalizing i f m with
  | zero => cases hm
  | succ n ih =>
    unfold Tty.tputsLoop at hm
    unfold tputsLoop
    split_ifs at hm ⊢
    · obtain rfl := Option.some.inj hm
      exact ⟨.refl h, hs⟩
    · obtain ⟨m₁, hm₁, hm⟩ := Option.bind_eq_some_iff.mp hm
      obtain ⟨f₁, hf₁, he, hframe⟩ := tputsByte_follows hd haround h hs _ hm₁
      obtain ⟨hfol, hs'⟩ := ih (inc 16 i) he (tputsByte_steps hs hm₁).2 hm
      rw [hf₁, Option.bind_some]
      exact ⟨.trans hframe hfol, hs'⟩

lemma tputs_follows (msg : List UInt8) (h : Embeds l f m) (hs : Shaped m.term)
    (hm : Tty.tputs around m msg = some m') :
    Follows l f (tputs around f msg) m' ∧ Shaped m'.term := by
  obtain ⟨m₁, hm₁, hm⟩ := Option.bind_eq_some_iff.mp hm
  obtain ⟨v, hv, hm⟩ := Option.bind_eq_some_iff.mp hm
  obtain rfl := Option.some.inj hm
  obtain ⟨⟨f₁, hf₁, he, hframe⟩, hs₁⟩ := tputsLoop_follows hd haround msg _ _ h hs hm₁
  obtain ⟨xs, hl⟩ := hs₁.listed
  refine ⟨?_, hs₁⟩
  unfold tputs
  rw [hf₁]
  exact .trans hframe (he.refresh hd hl hv)

omit haround in
lemma clearTerminal_follows (h : Embeds l f m) (hs : Shaped m.term)
    (hm : Tty.clearTerminal m = some m') : Follows l f (clearTerminal f) m' := by
  obtain ⟨xs, hl⟩ := hs.listed
  obtain ⟨nodes, hn, hm⟩ := Option.bind_eq_some_iff.mp hm
  obtain ⟨v, hv, hm⟩ := Option.bind_eq_some_iff.mp hm
  obtain rfl := Option.some.inj hm
  rw [hl.nodes, Option.some.injEq] at hn
  subst hn
  have hk := h.represents.blankRows hl
  have he : Embeds l (f.blankRows (xs.map l.node)) ⟨m.term.blankRows xs, m.video⟩ :=
    ⟨hk.represents, hk.shows h.shows, h.colour⟩
  unfold clearTerminal
  rw [h.represents.nodes hl]
  exact .trans hk.frame.touched_mem (he.refresh hd (hl.congr rfl rfl rfl) hv)

end Calls

/-! ### A fresh terminal -/

/-- The pool once the node `n` has its buffer. -/
structure Linked (l : Layout) (n : ℕ) (mem : ℕ → UInt8) : Prop where
  buffer : ∀ i ≤ n, word mem (l.node i) = l.buf i
  next : ∀ i < l.rows, word mem (l.node i + 4) = if i < n then l.node (i + 1) else 0
  cell : ∀ b ≤ n, ∀ c < l.columns, word mem (l.buf b + 4 * c) = 0

lemma buf_lt (hb : b < l.rows) : l.buf b < 2 ^ 32 :=
  Nat.lt_of_le_of_lt (Nat.le_add_right _ _) (Nat.lt_of_le_of_lt (buf_le_top hb) top_lt)

/-- A round of the loop: what it stores in the memory. -/
lemma Linked.step {n : ℕ} (h : Linked l n mem) (hn : n + 1 < l.rows) :
    let mem₁ := storeWord (l.node n + 4) (l.node (n + 1)) mem
    let mem₂ := storeWord (l.node (n + 1)) (l.buf (n + 1)) mem₁
    Linked l (n + 1) (zeros (l.buf (n + 1)) (4 * l.columns) mem₂) := by
  intro mem₁ mem₂
  have hnode := fun i (hi : i < l.rows) (b : ℕ) => node_le_buf (l := l) hi b
  have hnn := slot_succ l.pool 8 n
  change l.node (n + 1) = l.node n + 8 at hnn
  have hself := hnode n (by omega) (n + 1)
  have hself' := hnode (n + 1) hn (n + 1)
  -- a word that none of the three stores reaches
  have apart : ∀ a, (a + 4 ≤ l.node n + 4 ∨ l.node n + 8 ≤ a) →
      (a + 4 ≤ l.node (n + 1) ∨ l.node (n + 1) + 4 ≤ a) →
      (a + 4 ≤ l.buf (n + 1) ∨ l.buf (n + 1) + 4 * l.columns ≤ a) →
      word (zeros (l.buf (n + 1)) (4 * l.columns) mem₂) a = word mem a := fun a h₁ h₂ h₃ => by
    rw [word_zeros_apart h₃, word_storeWord_apart h₂, word_storeWord_apart h₁]
  refine ⟨fun i hi => ?_, fun i hi => ?_, fun b hb c hc => ?_⟩
  · by_cases he : i = n + 1
    · rw [he, word_zeros_apart (Or.inl (by omega)), word_storeWord _ _ (buf_lt hn)]
    · have hin := hnode i (by omega) (n + 1)
      have hle : i = n ∨ l.node i + 8 ≤ l.node n :=
        (Nat.eq_or_lt_of_le (show i ≤ n by omega)).imp_right slot_le
      rw [apart _ (by rcases hle with rfl | hle <;> omega)
        (by rcases hle with rfl | hle <;> omega) (Or.inl (by omega)), h.buffer i (by omega)]
  · have hin := hnode i hi (n + 1)
    by_cases he : i = n
    · rw [he, if_pos (Nat.lt_succ_self n), word_zeros_apart (Or.inl (by omega)),
        word_storeWord_apart (Or.inl (by omega)), word_storeWord _ _ (Nat.lt_of_le_of_lt
          (Nat.le_add_right _ _) (node_lt hn))]
    · have hap := node_apart (l := l) he
      have hap' : i = n + 1 ∨ l.node i + 8 ≤ l.node (n + 1) ∨ l.node (n + 1) + 8 ≤ l.node i :=
        or_iff_not_imp_left.mpr node_apart
      rw [apart _ (by omega) (by rcases hap' with rfl | hap' <;> omega) (Or.inl (by omega)),
        h.next i hi]
      exact if_congr (by omega) rfl rfl
  · by_cases he : b = n + 1
    · rw [he, word_zeros _ ⟨Nat.le_add_right _ _, by omega⟩]
    · have hb' := hnode n (by omega) b
      have hb'' := hnode (n + 1) hn b
      have hap := buf_apart (l := l) he
      rw [apart _ (by omega) (by omega) (by omega), h.cell b (by omega) c hc]

lemma linkRows_succ (l : Layout) (k n tmp heap : ℕ) (mem : ℕ → UInt8) :
    linkRows l.columns l.pool (k + 1) n tmp heap mem =
      let mem₁ := storeWord (tmp + 4) (l.node (n + 1)) mem
      let next := word mem₁ (tmp + 4)
      let mem₂ := storeWord next heap mem₁
      linkRows l.columns l.pool k (n + 1) next ((heap + 4 * l.columns) % 2 ^ 32)
        (zeros (word mem₂ next) (4 * l.columns) mem₂) := rfl

/-- The loop: it ends with the last buffer, and it has stored nothing but the rows. -/
lemma linkRows_spec {n k : ℕ} (h : Linked l n mem) (hk : n + k + 1 = l.rows) :
    ∃ mem', linkRows l.columns l.pool k n (l.node n) (l.buf (n + 1)) mem = (l.top, mem') ∧
      Linked l (l.rows - 1) mem' ∧ Frame l.Mem mem mem' := by
  induction k generalizing n mem with
  | zero =>
    obtain rfl : n = l.rows - 1 := by omega
    have htop : l.buf (l.rows - 1 + 1) = l.top := congrArg l.buf (by omega)
    exact ⟨mem, by rw [linkRows, htop], h, Frame.refl _ _⟩
  | succ k ih =>
    have hn : n + 1 < l.rows := by omega
    have hlink : word (storeWord (l.node n + 4) (l.node (n + 1)) mem) (l.node n + 4) =
        l.node (n + 1) :=
      word_storeWord _ _ (Nat.lt_of_le_of_lt (Nat.le_add_right _ _) (node_lt hn))
    have hbuf : word (storeWord (l.node (n + 1)) (l.buf (n + 1))
        (storeWord (l.node n + 4) (l.node (n + 1)) mem)) (l.node (n + 1)) = l.buf (n + 1) :=
      word_storeWord _ _ (buf_lt hn)
    have hheap : (l.buf (n + 1) + 4 * l.columns) % 2 ^ 32 = l.buf (n + 1 + 1) := by
      rw [Nat.mod_eq_of_lt (Nat.lt_of_le_of_lt (buf_le_top hn) top_lt)]
      exact (slot_succ _ _ _).symm
    obtain ⟨mem', heq, hl, hf⟩ := ih (h.step hn) (by omega)
    have hin := fun i (hi : i < l.rows) => node_le_buf (l := l) hi l.rows
    have hpool := fun i => base_le_slot l.pool 8 i
    refine ⟨mem', ?_, hl, ?_⟩
    · simp only [linkRows_succ, hlink, hbuf, hheap]
      exact heq
    · have h₁ : l.node n + 8 ≤ l.top := hin n (by omega)
      have h₂ : l.node (n + 1) + 8 ≤ l.top := hin (n + 1) hn
      have h₃ : l.pool ≤ l.node n := hpool n
      have h₄ : l.pool ≤ l.node (n + 1) := hpool (n + 1)
      exact (((frame_storeWord ⟨by omega, by omega⟩).trans
        (frame_storeWord ⟨by omega, by omega⟩)).trans
        (frame_zeros ⟨pool_le_buf _, buf_le_top hn⟩)).trans hf

/-- The pool is zeroed, and its first node has its buffer. -/
lemma linked_first (hr : 1 ≤ l.rows) (mem : ℕ → UInt8) :
    Linked l 0 (zeros (l.buf 0) (4 * l.columns)
      (storeWord l.pool (l.buf 0) (zeros l.pool (8 * l.rows) mem))) := by
  have hin0 : l.node 0 + 8 ≤ l.buf 0 := node_le_buf (by omega) 0
  have hnode0 : l.node 0 = l.pool := rfl
  have hbase : l.pool + 8 * l.rows = l.buf 0 := rfl
  refine ⟨fun i hi => ?_, fun i hi => ?_, fun b hb c hc => ?_⟩
  · obtain rfl := Nat.le_zero.mp hi
    rw [word_zeros_apart (Or.inl (by omega))]
    exact word_storeWord _ _ (buf_lt (by omega))
  · have h₁ := node_le_buf hi 0
    have h₂ : l.pool ≤ l.node i := base_le_slot _ _ _
    rw [word_zeros_apart (Or.inl (by omega)), word_storeWord_apart (Or.inr (by omega)),
      word_zeros _ ⟨by omega, by omega⟩]
    exact (if_neg (Nat.not_lt_zero i)).symm
  · obtain rfl := Nat.le_zero.mp hb
    exact word_zeros _ ⟨Nat.le_add_right _ _, by omega⟩

/-- When all nodes have been linked, and the last one to none, the rows are those of a fresh
terminal. -/
lemma Linked.rows (h : Linked l (l.rows - 1) mem) (hr : 1 ≤ l.rows) :
    Rows l (storeWord (l.node (l.rows - 1) + 4) 0 mem) (initPool l.rows) fun _ _ => 0 := by
  refine ⟨fun i hi => ?_, fun i hi => ?_, fun b hb c hc => ?_⟩
  · have hap : i = l.rows - 1 ∨ l.node i + 8 ≤ l.node (l.rows - 1) :=
      (Nat.eq_or_lt_of_le (show i ≤ l.rows - 1 by omega)).imp_right slot_le
    rw [initPool_eq hr hi, word_storeWord_apart
      (Or.inl (by rcases hap with rfl | hap <;> omega)), h.buffer i (by omega)]
  · rw [initPool_eq hr hi]
    by_cases he : i = l.rows - 1
    · rw [he, word_storeWord _ _ (by decide), if_neg (by omega)]
      rfl
    · have hap : l.node i + 8 ≤ l.node (l.rows - 1) := slot_le (by omega)
      rw [word_storeWord_apart (Or.inl (by omega)), h.next i hi, if_pos (by omega),
        if_pos (by omega)]
      exact pointer_node (some (i + 1))
  · have h₁ := node_le_buf (l := l) (i := l.rows - 1) (by omega) b
    exact (word_storeWord_apart (Or.inr (by omega))).trans (h.cell b (by omega) c hc)

/-- **A fresh terminal in memory**: the blocks that it takes are the rows, and the memory is
free from their end on. -/
lemma initTerminal_embeds (l : Layout) (hr : 1 ≤ l.rows) (background : ℕ → UInt8)
    {colour : ℕ} (hc : colour < 2 ^ 8) (f₀ : Flat) :
    let r := initTerminal l.pool l.rows l.columns background colour f₀
    r.1 = l.top ∧ Embeds l r.2 (Tty.initTerminal l.rows l.columns background colour f₀.video) ∧
      Frame l.Touched f₀.mem r.2.mem := by
  set f₁ := f₀.store (drawBackground background f₀.video) with hf₁
  have hdrawn : Frame l.Screen f₀.mem f₁.mem := fun a ha =>
    (if_neg fun hin => ha (pixel_sub.mp (pixel_background hin.1 hin.2))).trans (video_mem f₀ a)
  have hnode0 : l.node 0 = l.pool := rfl
  have hbase : l.pool + 8 * l.rows = l.buf 0 := rfl
  have hlast : l.node (l.rows - 1) + 8 ≤ l.top := node_le_buf (by omega) l.rows
  have hpool : l.pool ≤ l.node (l.rows - 1) := base_le_slot _ _ _
  have hb0 := buf_le_top (l := l) (b := 0) (by omega)
  have htop := l.top_lt
  have hheap0 : (l.pool + 8 * l.rows) % 2 ^ 32 = l.buf 0 := by
    rw [hbase, Nat.mod_eq_of_lt (buf_lt (by omega))]
  have hheap1 : (l.buf 0 + 4 * l.columns) % 2 ^ 32 = l.buf (0 + 1) := by
    rw [Nat.mod_eq_of_lt (by omega)]
    exact (slot_succ _ _ _).symm
  set mem₁ := zeros l.pool (8 * l.rows) f₁.mem
  set mem₂ := storeWord l.pool (l.buf 0) mem₁
  have hw : word mem₂ l.pool = l.buf 0 := word_storeWord _ _ (buf_lt (by omega))
  obtain ⟨mem₃, heq, hl, hf⟩ := linkRows_spec (linked_first hr f₁.mem) (k := l.rows - 1) (by omega)
  rw [hnode0] at heq
  have hinit : initTerminal l.pool l.rows l.columns background colour f₀ =
      (l.top, { f₁ with
        term := { members (Tty.initTerminal l.rows l.columns background colour f₀.video).term with
          screen := l.pool }
        mem := storeWord (l.node (l.rows - 1) + 4) 0 mem₃ }) := by
    unfold initTerminal
    simp only [kmalloc, hheap0, hheap1, ← hf₁]
    change (fun r : ℕ × (ℕ → UInt8) =>
      (r.1, ({ f₁ with term := _, mem := storeWord _ 0 r.2 } : Flat)))
      (linkRows l.columns l.pool (l.rows - 1) 0 l.pool (l.buf (0 + 1))
        (zeros (word mem₂ l.pool) (4 * l.columns) mem₂)) = _
    rw [hw, heq]
    rfl
  have hz : Frame l.Mem f₁.mem mem₁ := frame_zeros ⟨Nat.le_refl _, by omega⟩
  have hs : Frame l.Mem mem₁ mem₂ := frame_storeWord ⟨Nat.le_refl _, by omega⟩
  have hcl : Frame l.Mem mem₂ (zeros (l.buf 0) (4 * l.columns) mem₂) :=
    frame_zeros ⟨pool_le_buf 0, hb0⟩
  have hstored : Frame l.Mem f₁.mem (storeWord (l.node (l.rows - 1) + 4) 0 mem₃) :=
    (((hz.trans hs).trans hcl).trans hf).trans (frame_storeWord ⟨by omega, by omega⟩)
  rw [hinit]
  exact ⟨rfl, ⟨⟨rfl, rfl, rfl, hl.rows hr⟩, ⟨hstored, rfl, rfl, rfl⟩, hc⟩,
    hdrawn.touched_screen.trans hstored.touched_mem⟩

/-! ### Runs -/

/-- A call of the driver, or an assignment that one of its callers makes. -/
inductive Call
  | puts (msg : List UInt8)
  | clear
  | refresh (redraw : Bool)
  | showCursor (shown : Bool) -- `term->show_cursor`, as `kgetline` sets it
  | setColour (colour : UInt8) -- `set_colour_terminal`

def Call.Text : Call → Prop
  | .puts msg => IsText msg
  | _ => True

variable (around) in
/-- The call on the list. -/
def Call.onList (m : Machine) : Call → Option Machine
  | .puts msg => Tty.tputs around m msg
  | .clear => Tty.clearTerminal m
  | .refresh redraw => (refreshTerminal m.term redraw m.video).map (Machine.mk m.term)
  | .showCursor shown => some { m with term := { m.term with showCursor := shown } }
  | .setColour colour => some { m with term := { m.term with colour := colour.toNat } }

variable (around) in
/-- The call in memory. -/
def Call.inMemory (f : Flat) : Call → Option Flat
  | .puts msg => tputs around f msg
  | .clear => clearTerminal f
  | .refresh redraw => f.refresh redraw
  | .showCursor shown => some { f with term := { f.term with showCursor := shown } }
  | .setColour colour => some { f with term := { f.term with colour := colour.toNat } }

lemma Embeds.canDraw (hd : l.Drawable) (h : Embeds l f m) : CanDraw m.term := fun _ => by
  rw [h.represents.rows, h.represents.columns]
  exact hd.small

/-- A call comes back, and does in memory what it does on the list. -/
lemma call_follows (hd : l.Drawable) (haround : ∀ i, around i < 2 ^ 32) (h : Embeds l f m)
    (hs : Sound m) {c : Call} (hc : c.Text) :
    ∃ m', c.onList around m = some m' ∧ Sound m' ∧ Follows l f (c.inMemory around f) m' := by
  obtain ⟨xs, hl⟩ := hs.listed
  have hr := h.represents
  have hw := h.shows
  have hshows : ∀ term, Shows l { f with term := term } m.video := fun _ =>
    ⟨hw.pixel, hw.area, hw.areaX, hw.areaY⟩
  cases c with
  | puts msg =>
    obtain ⟨m', hm, hs'⟩ := tputs_some around hs hc
    exact ⟨m', hm, hs', (tputs_follows hd haround msg h hs.toShaped hm).1⟩
  | clear =>
    obtain ⟨m', hm, hs'⟩ := applyOp_some around hs (show Op.clear.Text from trivial)
    exact ⟨m', hm, hs', clearTerminal_follows hd h hs.toShaped hm⟩
  | refresh redraw =>
    obtain ⟨v, hv, ha⟩ := refreshTerminal_some hl hs.draws redraw hs.area
    exact ⟨⟨m.term, v⟩, by rw [Call.onList, hv]; rfl, ⟨hs.toShaped, hs.draws, ha⟩,
      h.refresh hd hl hv⟩
  | showCursor shown =>
    have he : Embeds l { f with term := { f.term with showCursor := shown } }
        { m with term := { m.term with showCursor := shown } } :=
      ⟨⟨hr.rows, hr.columns, by rw [hr.term]; rfl, hr.held⟩, hshows _, h.colour⟩
    exact ⟨_, rfl, ⟨⟨⟨xs, hl.congr rfl rfl rfl⟩, hs.ok⟩, he.canDraw hd, hs.area⟩, .refl he⟩
  | setColour colour =>
    have ok := hs.ok
    have he : Embeds l { f with term := { f.term with colour := colour.toNat } }
        { m with term := { m.term with colour := colour.toNat } } :=
      ⟨⟨hr.rows, hr.columns, by rw [hr.term]; rfl, hr.held⟩, hshows _, UInt8.toNat_lt _⟩
    exact ⟨_, rfl, ⟨⟨⟨xs, hl.congr rfl rfl rfl⟩, ⟨ok.rows, ok.columns, ok.x, ok.y⟩⟩, hs.draws,
      hs.area⟩, .refl he⟩

lemma calls_follow (hd : l.Drawable) (haround : ∀ i, around i < 2 ^ 32) {calls : List Call}
    (hcalls : ∀ c ∈ calls, c.Text) (h : Embeds l f m) (hs : Sound m) :
    ∃ m', calls.foldlM (Call.onList around) m = some m' ∧
      Follows l f (calls.foldlM (Call.inMemory around) f) m' := by
  induction calls generalizing f m with
  | nil => exact ⟨m, rfl, .refl h⟩
  | cons c calls ih =>
    obtain ⟨m₁, hm₁, hs₁, f₁, hf₁, he₁, hframe⟩ :=
      call_follows hd haround h hs (hcalls c List.mem_cons_self)
    obtain ⟨m', hm', hfol⟩ := ih (fun c hc => hcalls c (List.mem_cons_of_mem _ hc)) he₁ hs₁
    rw [List.foldlM_cons, List.foldlM_cons, hm₁, hf₁]
    exact ⟨m', hm', .trans hframe hfol⟩

/-- **The terminal in memory**: a terminal whose blocks fit below the end of memory and do not
stand where it is drawn, in memory that holds anything. After any calls on it, the memory holds the
list of rows with the cells that the driver has on the list. All other bytes are the pixels that
have been drawn on the list, and where nothing is drawn they are as they were. -/
theorem terminal_in_memory (l : Layout) (hr : 2 ≤ l.rows) (hc : 1 ≤ l.columns) (hd : l.Drawable)
    (haround : ∀ i, around i < 2 ^ 32) (background : ℕ → UInt8) {colour : ℕ}
    (hcolour : colour < 2 ^ 8) {f₀ : Flat} (harea : f₀.video.AreaOk) {calls : List Call}
    (hcalls : ∀ c ∈ calls, c.Text) :
    (initTerminal l.pool l.rows l.columns background colour f₀).1 = l.top ∧
      ∃ m f,
        calls.foldlM (Call.onList around)
          (Tty.initTerminal l.rows l.columns background colour f₀.video) = some m ∧
        calls.foldlM (Call.inMemory around)
          (initTerminal l.pool l.rows l.columns background colour f₀).2 = some f ∧
        Rows l f.mem m.term.node m.term.cells ∧
        (∀ a, ¬ l.Mem a → f.mem a = m.video.mem ((a : ℤ) - videoMemory)) ∧
        ∀ a, ¬ l.Mem a → ¬ l.Screen a → f.mem a = f₀.mem a := by
  obtain ⟨htop, he, hframe⟩ := initTerminal_embeds l (by omega) background hcolour f₀
  obtain ⟨hrows, hcols⟩ := hd.small
  obtain ⟨hsound, -⟩ := initTerminal_sound ⟨hr, by omega⟩ ⟨hc, by omega⟩ background colour harea
  obtain ⟨m, hm, f, hf, hef, hff⟩ := calls_follow hd haround hcalls he hsound
  exact ⟨htop, m, f, hm, hf, hef.represents.held, hef.shows.pixel, fun a h₁ h₂ =>
    hframe.trans hff a (not_or.mpr ⟨h₁, h₂⟩)⟩

/-- The terminal of the kernel. -/
def kernelLayout : Layout := ⟨0x1F0000, 16, 32, by decide, by decide⟩

lemma kernelLayout_drawable : kernelLayout.Drawable :=
  ⟨⟨by decide, by decide⟩, Or.inr (by decide)⟩

/-- A memory that is 7 everywhere, before there is a terminal. -/
def sevens : Flat where
  term := ⟨fun _ => 0, 0, 0, false, 0, 0, 0, 0, fun _ => 0, 0, 0⟩
  mem := fun _ => 7
  area := fun _ => 0
  areaX := 65535
  areaY := 65535

/-- A line on the terminal of the kernel, with its cursor shown: nothing is written from
0x1F0880 on. -/
theorem terminal_in_memory_line : ∃ f, [Call.showCursor true, .puts [72, 10]].foldlM
    (Call.inMemory fun _ => 0) (initTerminal 0x1F0000 16 32 (fun _ => 0) 0 sevens).2 = some f ∧
      ∀ a, 0x1F0880 ≤ a → f.mem a = 7 := by
  obtain ⟨-, m, f, -, hf, -, -, hrest⟩ := terminal_in_memory kernelLayout (by decide) (by decide)
    kernelLayout_drawable (fun _ => (by decide : 0 < 2 ^ 32)) (fun _ => 0)
    (show 0 < 2 ^ 8 by decide) (show sevens.video.AreaOk from Or.inl ⟨rfl, rfl⟩)
    (show ∀ c ∈ [Call.showCursor true, .puts [72, 10]], c.Text by simp [Call.Text, IsText])
  refine ⟨f, hf, fun a ha => hrest a (fun hin => ?_) fun hin => ?_⟩
  · exact absurd hin.2 (Nat.not_lt.mpr ha)
  · have hend : videoMemory + kernelLayout.extent ≤ 0x1F0880 := by decide
    exact absurd hin.2 (Nat.not_lt.mpr (hend.trans ha))

end Mono98.TtyMemory
