import Mathlib.Data.List.Basic
import Mono98.Lib.Word

/-!
The text screen: a grid of words with a cursor.

This is what the row list of a terminal stands for. Rows are counted from the top of the
screen; cells off the grid are blank. The cursor may stand behind the last column, and the
wrap to the next row is deferred until the next byte that is not a colour code; a newline on
a pending wrap moves down twice but scrolls once, and so leaves the cursor in the row below
the last one.
-/

namespace Mono98.TextGrid

open Mono98.Lib.Word

structure Screen where
  rows : ℕ
  columns : ℕ
  x : ℕ
  y : ℕ
  colour : ℕ
  cell : ℕ → ℕ → ℕ

/-- A byte between `0xF0` and `0xFF` sets the colour. -/
def IsColour (c : UInt8) : Prop := c &&& 0xF0 = 0xF0

instance (c : UInt8) : Decidable (IsColour c) := inferInstanceAs (Decidable (_ = _))

def blank (rows columns colour : ℕ) : Screen := ⟨rows, columns, 0, 0, colour, fun _ _ => 0⟩

namespace Screen

variable (s : Screen)

def setColour (c : UInt8) : Screen := { s with colour := (c &&& 0x0F).toNat }

def wrap : Screen :=
  if s.columns ≤ s.x then { s with x := 0, y := inc 16 s.y } else s

def newline : Screen := { s with x := 0, y := inc 16 s.y }

/-- The top row goes, and a blank one comes in at the bottom. -/
def scroll : Screen :=
  { s with
    y := dec 16 s.y
    cell := fun r c => if r + 1 < s.rows then s.cell (r + 1) c else 0 }

/-- Scroll once if the cursor is below the last row. -/
def follow : Screen := if s.rows ≤ s.y then s.scroll else s

def stepBack : Screen :=
  let x := dec 16 s.x
  if x = 2 ^ 16 - 1 then { s with x := dec 16 s.columns, y := dec 16 s.y }
  else { s with x := x }

def store (v : ℕ) : Screen :=
  { s with cell := Function.update s.cell s.y (Function.update (s.cell s.y) s.x v) }

def advance : Screen := { s with x := inc 16 s.x }

end Screen

variable (glyph : UInt8 → ℕ)

/-- What one byte does to the screen. -/
def put (s : Screen) (c : UInt8) : Screen :=
  if IsColour c then s.setColour c
  else if c = 10 then s.wrap.newline.follow
  else if c = 8 then
    if s.wrap.x = 0 ∧ s.wrap.y = 0 then s.wrap else s.wrap.stepBack.store 0
  else (s.wrap.follow.store (glyph c ||| s.colour)).advance

/-- What a byte makes the driver draw before the string ends. -/
inductive Paint | nothing | background | everything
  deriving DecidableEq

def paint (s : Screen) (c : UInt8) : Paint :=
  if IsColour c then .nothing
  else if c = 10 then if s.rows ≤ s.wrap.newline.y then .background else .nothing
  else if c = 8 then if s.wrap.x = 0 ∧ s.wrap.y = 0 then .nothing else .everything
  else if s.rows ≤ s.wrap.y then .background else .nothing

/-- The bytes of a string. -/
def puts (s : Screen) (msg : List UInt8) : Screen := msg.foldl (put glyph) s

@[simp] lemma puts_nil (s : Screen) : puts glyph s [] = s := rfl
@[simp] lemma puts_cons (s : Screen) (c : UInt8) (msg : List UInt8) :
    puts glyph s (c :: msg) = puts glyph (put glyph s c) msg := rfl
lemma puts_append (s : Screen) (u v : List UInt8) :
    puts glyph s (u ++ v) = puts glyph (puts glyph s u) v := by
  simp [puts, List.foldl_append]

/-- Where the cursor may be between two bytes. -/
structure Ok (s : Screen) : Prop where
  rows : 2 ≤ s.rows ∧ s.rows < 65536
  columns : 1 ≤ s.columns ∧ s.columns < 65536
  x : s.x ≤ s.columns
  y : s.y < s.rows ∨ s.y = s.rows ∧ s.x = 0

/-! ### The parts of a step -/

namespace Screen

variable (s : Screen)

@[simp] lemma wrap_rows : s.wrap.rows = s.rows := by unfold wrap; split <;> rfl
@[simp] lemma wrap_columns : s.wrap.columns = s.columns := by unfold wrap; split <;> rfl
@[simp] lemma wrap_colour : s.wrap.colour = s.colour := by unfold wrap; split <;> rfl
@[simp] lemma wrap_cell : s.wrap.cell = s.cell := by unfold wrap; split <;> rfl
@[simp] lemma follow_rows : s.follow.rows = s.rows := by unfold follow; split <;> rfl
@[simp] lemma follow_columns : s.follow.columns = s.columns := by unfold follow; split <;> rfl
@[simp] lemma follow_colour : s.follow.colour = s.colour := by unfold follow; split <;> rfl
@[simp] lemma follow_x : s.follow.x = s.x := by unfold follow; split <;> rfl
@[simp] lemma stepBack_rows : s.stepBack.rows = s.rows := by simp only [stepBack]; split <;> rfl
@[simp] lemma stepBack_columns : s.stepBack.columns = s.columns := by
  simp only [stepBack]; split <;> rfl
@[simp] lemma stepBack_colour : s.stepBack.colour = s.colour := by
  simp only [stepBack]; split <;> rfl
@[simp] lemma stepBack_cell : s.stepBack.cell = s.cell := by simp only [stepBack]; split <;> rfl

lemma wrap_of_lt (h : s.x < s.columns) : s.wrap = s := if_neg (by omega)

lemma follow_of_lt (h : s.y < s.rows) : s.follow = s := if_neg (by omega)

end Screen

variable {glyph} {s : Screen}

@[simp] lemma put_rows (c : UInt8) : (put glyph s c).rows = s.rows := by
  unfold put; split_ifs <;> simp [Screen.setColour, Screen.newline, Screen.store, Screen.advance]

@[simp] lemma put_columns (c : UInt8) : (put glyph s c).columns = s.columns := by
  unfold put; split_ifs <;> simp [Screen.setColour, Screen.newline, Screen.store, Screen.advance]

lemma put_colour (c : UInt8) :
    (put glyph s c).colour = if IsColour c then (c &&& 0x0F).toNat else s.colour := by
  unfold put
  split_ifs <;> simp [Screen.setColour, Screen.newline, Screen.store, Screen.advance]

@[simp] lemma puts_rows (msg : List UInt8) : (puts glyph s msg).rows = s.rows := by
  induction msg generalizing s with
  | nil => rfl
  | cons c msg ih => rw [puts_cons, ih, put_rows]

@[simp] lemma puts_columns (msg : List UInt8) : (puts glyph s msg).columns = s.columns := by
  induction msg generalizing s with
  | nil => rfl
  | cons c msg ih => rw [puts_cons, ih, put_columns]

lemma ok_blank {rows columns colour : ℕ} (hr : 2 ≤ rows ∧ rows < 65536)
    (hc : 1 ≤ columns ∧ columns < 65536) : Ok (blank rows columns colour) :=
  ⟨hr, hc, Nat.zero_le _, Or.inl (by simp only [blank]; omega)⟩

/-- After the wrap the cursor stands on a column. -/
lemma Ok.wrap (h : Ok s) :
    s.wrap.x < s.columns ∧ (s.wrap.y < s.rows ∨ s.wrap.y = s.rows ∧ s.wrap.x = 0) := by
  obtain ⟨hr, hc, hx, hy⟩ := h
  unfold Screen.wrap
  split_ifs with hw
  · have := inc_le 16 s.y
    simp only [and_true]
    omega
  · omega

lemma Ok.newline_y (h : Ok s) : s.wrap.newline.y ≤ s.rows + 1 := by
  have := h.wrap
  have := inc_le 16 s.wrap.y
  simp only [Screen.newline]
  omega

/-- The cell a backspace blanks is on the screen. -/
lemma Ok.stepBack (h : Ok s) (h0 : ¬ (s.wrap.x = 0 ∧ s.wrap.y = 0)) :
    s.wrap.stepBack.x < s.columns ∧ s.wrap.stepBack.y < s.rows := by
  obtain ⟨h1, h2⟩ := h.wrap
  obtain ⟨hr, hc, -, -⟩ := h
  simp only [Screen.stepBack, Screen.wrap_columns, dec]
  split_ifs <;> simp only <;> omega

/-- The cell a printed byte goes to is on the screen. -/
lemma Ok.follow (h : Ok s) : s.wrap.follow.x < s.columns ∧ s.wrap.follow.y < s.rows := by
  obtain ⟨h1, h2⟩ := h.wrap
  obtain ⟨hr, hc, -, -⟩ := h
  rw [Screen.follow_x]
  refine ⟨h1, ?_⟩
  unfold Screen.follow
  split_ifs with hf
  · rw [Screen.wrap_rows] at hf
    simp only [Screen.scroll, dec]
    split_ifs <;> omega
  · simp only [Screen.wrap_rows] at hf; omega

theorem ok_put (h : Ok s) (c : UInt8) : Ok (put glyph s c) := by
  have hr := h.rows
  have hc := h.columns
  refine ⟨by simpa using hr, by simpa using hc, ?_, ?_⟩
  · rw [put_columns]
    unfold put
    split_ifs
    · exact h.x
    · rw [Screen.follow_x]
      exact Nat.zero_le _
    · exact Nat.le_of_lt h.wrap.1
    · exact Nat.le_of_lt (h.stepBack ‹_›).1
    · exact Nat.le_trans (inc_le 16 _) h.follow.1
  · rw [put_rows]
    unfold put
    split_ifs
    · exact h.y
    · have hy := h.newline_y
      have hx : s.wrap.newline.x = 0 := rfl
      have hrows : s.wrap.newline.rows = s.rows := s.wrap_rows
      rw [Screen.follow_x]
      unfold Screen.follow
      split_ifs with hf
      · simp only [Screen.scroll, dec]
        split_ifs <;> omega
      · omega
    · exact h.wrap.2
    · exact Or.inl (h.stepBack ‹_›).2
    · exact Or.inl h.follow.2

theorem ok_puts (h : Ok s) (msg : List UInt8) : Ok (puts glyph s msg) := by
  induction msg generalizing s with
  | nil => exact h
  | cons c msg ih => exact ih (ok_put h c)

end Mono98.TextGrid
