import Mono98.TextGrid

/-!
The unbounded page, and the text screen as a window of it.

The page has unboundedly many rows. Nothing is ever moved on it: printing fills cells and
moves the cursor on, and scrolling only moves the window, whose top row is `top`, the number
of rows that have been scrolled off. The page is blank from the cursor on and in every row
below the window, which is why a row that comes in at the bottom of the screen is the row the
page has there.
-/

namespace Mono98.TextPage

open Mono98.TextGrid Mono98.Lib.Word

/-- A page seen through a window of `rows` rows. -/
structure Page where
  rows : ℕ
  columns : ℕ
  cell : ℕ → ℕ → ℕ
  x : ℕ
  y : ℕ
  colour : ℕ
  top : ℕ

def blankPage (rows columns colour : ℕ) : Page := ⟨rows, columns, fun _ _ => 0, 0, 0, colour, 0⟩

namespace Page

variable (p : Page)

/-- A cursor behind the last column stands at the start of the next row. -/
def wrap : Page := if p.x = p.columns then { p with x := 0, y := p.y + 1 } else p

def newline : Page := { p with x := 0, y := p.y + 1 }

/-- The window moves down a row when the cursor is below it. -/
def follow : Page := if p.top + p.rows ≤ p.y then { p with top := p.top + 1 } else p

/-- One cell back in reading order. -/
def stepBack : Page :=
  if p.x = 0 then { p with x := p.columns - 1, y := p.y - 1 } else { p with x := p.x - 1 }

def store (v : ℕ) : Page :=
  { p with cell := Function.update p.cell p.y (Function.update (p.cell p.y) p.x v) }

def advance : Page := { p with x := p.x + 1 }

end Page

variable (glyph : UInt8 → ℕ)

/-- What one byte does to the page. -/
def put (p : Page) (c : UInt8) : Page :=
  if IsColour c then { p with colour := (c &&& 0x0F).toNat }
  else if c = 10 then p.wrap.newline.follow
  else if c = 8 then
    if p.wrap.x = 0 ∧ p.wrap.y = p.top then p.wrap else p.wrap.stepBack.store 0
  else (p.wrap.follow.store (glyph c ||| p.colour)).advance

def puts (p : Page) (msg : List UInt8) : Page := msg.foldl (put glyph) p

@[simp] lemma puts_nil (p : Page) : puts glyph p [] = p := rfl
@[simp] lemma puts_cons (p : Page) (c : UInt8) (msg : List UInt8) :
    puts glyph p (c :: msg) = puts glyph (put glyph p c) msg := rfl

/-- Clearing resets the page and the cursor, but not the colour. -/
def clear (p : Page) : Page := blankPage p.rows p.columns p.colour

/-- The screen is the window of the page, and the page is blank from the cursor on and below
the window. -/
structure Shows (s : Screen) (p : Page) : Prop where
  rows : s.rows = p.rows
  columns : s.columns = p.columns
  x : s.x = p.x
  y : p.top + s.y = p.y
  colour : s.colour = p.colour
  cell : ∀ r < s.rows, ∀ c < s.columns, s.cell r c = p.cell (p.top + r) c
  blank : ∀ r, ∀ c < s.columns, p.y < r ∨ p.y = r ∧ p.x ≤ c → p.cell r c = 0
  below : ∀ r, p.top + p.rows ≤ r → ∀ c < s.columns, p.cell r c = 0

/-- The row of the cursor does not run past the range of its 16 bits. -/
def Fits (s : Screen) (c : UInt8) : Prop := c = 10 → s.wrap.y ≠ 65535

variable {glyph} {s : Screen} {p : Page}

lemma shows_blank (rows columns colour : ℕ) :
    Shows (blank rows columns colour) (blankPage rows columns colour) :=
  ⟨rfl, rfl, rfl, rfl, rfl, fun _ _ _ _ => rfl, fun _ _ _ _ => rfl, fun _ _ _ _ => rfl⟩

/-! ### The parts of a step -/

@[simp] lemma wrap_rows (p : Page) : p.wrap.rows = p.rows := by
  unfold Page.wrap; split <;> rfl
@[simp] lemma wrap_columns (p : Page) : p.wrap.columns = p.columns := by
  unfold Page.wrap; split <;> rfl
@[simp] lemma follow_rows (p : Page) : p.follow.rows = p.rows := by
  unfold Page.follow; split <;> rfl
@[simp] lemma follow_columns (p : Page) : p.follow.columns = p.columns := by
  unfold Page.follow; split <;> rfl
@[simp] lemma follow_x (p : Page) : p.follow.x = p.x := by
  unfold Page.follow; split <;> rfl
@[simp] lemma wrap_top (p : Page) : p.wrap.top = p.top := by
  unfold Page.wrap; split <;> rfl
@[simp] lemma wrap_colour (p : Page) : p.wrap.colour = p.colour := by
  unfold Page.wrap; split <;> rfl
@[simp] lemma follow_colour (p : Page) : p.follow.colour = p.colour := by
  unfold Page.follow; split <;> rfl
@[simp] lemma stepBack_rows (p : Page) : p.stepBack.rows = p.rows := by
  unfold Page.stepBack; split <;> rfl
@[simp] lemma stepBack_columns (p : Page) : p.stepBack.columns = p.columns := by
  unfold Page.stepBack; split <;> rfl
@[simp] lemma stepBack_top (p : Page) : p.stepBack.top = p.top := by
  unfold Page.stepBack; split <;> rfl
@[simp] lemma stepBack_colour (p : Page) : p.stepBack.colour = p.colour := by
  unfold Page.stepBack; split <;> rfl
@[simp] lemma stepBack_cell (p : Page) : p.stepBack.cell = p.cell := by
  unfold Page.stepBack; split <;> rfl

lemma shows_wrap (ok : Ok s) (h : Shows s p) : Shows s.wrap p.wrap := by
  obtain ⟨hr, hc, hx, hy⟩ := ok
  have hcol := h.columns
  have hx' := h.x
  have hy' := h.y
  by_cases hw : s.columns ≤ s.x
  · rw [Screen.wrap, if_pos hw, Page.wrap, if_pos (by omega)]
    refine ⟨h.rows, hcol, rfl, ?_, h.colour, h.cell, fun r c hc hrc => ?_, h.below⟩
    · simp only [inc_of_lt (show s.y + 1 < 2 ^ 16 by omega)]
      omega
    · exact h.blank r c hc (Or.inl (by simp only at hrc; omega))
  · rw [Screen.wrap, if_neg hw, Page.wrap, if_neg (by omega)]
    exact h

lemma shows_newline (h : Shows s p) (hy : s.y + 1 < 2 ^ 16) : Shows s.newline p.newline := by
  refine ⟨h.rows, h.columns, rfl, ?_, h.colour, h.cell, fun r c hc hrc => ?_, h.below⟩
  · have := h.y
    simp only [Screen.newline, Page.newline, inc_of_lt hy]
    omega
  · simp only [Page.newline] at hrc
    exact h.blank r c hc (Or.inl (by omega))

/-- Scrolling the screen moves the window. -/
lemma shows_follow (h : Shows s p) (hr : 1 ≤ s.rows) : Shows s.follow p.follow := by
  have hy := h.y
  have hrows := h.rows
  by_cases hf : s.rows ≤ s.y
  · rw [Screen.follow, if_pos hf, Page.follow, if_pos (by omega)]
    refine ⟨hrows, h.columns, h.x, ?_, h.colour, fun r hr c hc => ?_, h.blank, fun r hr => ?_⟩
    · simp only [Screen.scroll, dec_of_pos (show 0 < s.y by omega)]
      omega
    · simp only [Screen.scroll] at hr hc ⊢
      split_ifs with hlast
      · rw [h.cell (r + 1) hlast c hc, Nat.add_assoc, Nat.add_comm 1 r]
      · exact (h.below _ (by omega) c hc).symm
    · exact h.below r (by simp only at hr; omega)
  · rw [Screen.follow, if_neg hf, Page.follow, if_neg (by omega)]
    exact h

lemma screen_store (s : Screen) (v r c : ℕ) :
    (s.store v).cell r c = if r = s.y ∧ c = s.x then v else s.cell r c := by
  simp only [Screen.store, Function.update_apply]
  split_ifs with h1 h2 h2 <;> simp_all

lemma page_store (p : Page) (v r c : ℕ) :
    (p.store v).cell r c = if r = p.y ∧ c = p.x then v else p.cell r c := by
  simp only [Page.store, Function.update_apply]
  split_ifs with h1 h2 h2 <;> simp_all

/-- Where a step back leads, on the screen and on the page. -/
lemma stepBack_cursor (h : Shows s p) (hc : 1 ≤ s.columns ∧ s.columns < 2 ^ 16)
    (hx : s.x < s.columns) (h0 : ¬ (s.x = 0 ∧ s.y = 0)) :
    s.stepBack.x = p.stepBack.x ∧ p.top + s.stepBack.y = p.stepBack.y ∧
      ∀ r, ∀ c < s.columns, p.stepBack.y < r ∨ p.stepBack.y = r ∧ p.stepBack.x ≤ c →
        r = p.stepBack.y ∧ c = p.stepBack.x ∨ p.y < r ∨ p.y = r ∧ p.x ≤ c := by
  have hcol := h.columns
  have hpx := h.x
  have hpy := h.y
  by_cases hx0 : s.x = 0
  · have hm : dec 16 s.x = 2 ^ 16 - 1 := by rw [hx0]; rfl
    simp only [Screen.stepBack, Page.stepBack, if_pos hm, if_pos (show p.x = 0 by omega),
      dec_of_pos (show 0 < s.columns by omega), dec_of_pos (show 0 < s.y by omega)]
    refine ⟨by omega, by omega, fun r c hc => ?_⟩
    omega
  · have hm : ¬ s.x - 1 = 2 ^ 16 - 1 := by omega
    simp only [Screen.stepBack, Page.stepBack, dec_of_pos (show 0 < s.x by omega), if_neg hm,
      if_neg (show ¬ p.x = 0 by omega)]
    refine ⟨by omega, hpy, fun r c hc => ?_⟩
    omega

/-- Blanking the cell before the cursor, and stepping back on it. -/
lemma shows_stepBack (h : Shows s p) (hc : 1 ≤ s.columns ∧ s.columns < 2 ^ 16)
    (hx : s.x < s.columns) (h0 : ¬ (s.x = 0 ∧ s.y = 0)) :
    Shows (s.stepBack.store 0) (p.stepBack.store 0) := by
  obtain ⟨hsx, hsy, hback⟩ := stepBack_cursor h hc hx h0
  refine ⟨?_, ?_, hsx, ?_, ?_, fun r hr c hc => ?_, fun r c hc hrc => ?_, fun r hr c hc => ?_⟩
  · simp only [Screen.store, Page.store, Screen.stepBack_rows, stepBack_rows, h.rows]
  · simp only [Screen.store, Page.store, Screen.stepBack_columns, stepBack_columns, h.columns]
  · simp only [Screen.store, Page.store, stepBack_top, hsy]
  · simp only [Screen.store, Page.store, Screen.stepBack_colour, stepBack_colour, h.colour]
  · simp only [Screen.store, Screen.stepBack_rows, Screen.stepBack_columns] at hr hc
    have ht : (p.stepBack.store 0).top = p.top := stepBack_top p
    rw [screen_store, page_store, Screen.stepBack_cell, stepBack_cell, h.cell r hr c hc, ht, hsx,
      ← hsy]
    simp only [Nat.add_left_cancel_iff]
  · simp only [Screen.store, Screen.stepBack_columns] at hc
    rw [page_store, stepBack_cell]
    split_ifs with hat
    · rfl
    · exact h.blank r c hc ((hback r c hc hrc).resolve_left hat)
  · simp only [Screen.store, Screen.stepBack_columns, Page.store, stepBack_top, stepBack_rows]
      at hr hc
    rw [page_store, stepBack_cell]
    split_ifs
    · rfl
    · exact h.below r hr c hc

/-- Filling the cell under the cursor, and moving on. -/
lemma shows_store (h : Shows s p) (hc : s.columns < 2 ^ 16) (hx : s.x < s.columns)
    (hy : s.y < s.rows) (v : ℕ) : Shows (s.store v).advance (p.store v).advance := by
  have hpx := h.x
  have hpy := h.y
  have hrows := h.rows
  have hcols := h.columns
  refine ⟨hrows, hcols, ?_, hpy, h.colour, fun r hr c hc => ?_, fun r c hc hrc => ?_,
    fun r hr c hc => ?_⟩
  · show inc 16 s.x = p.x + 1
    rw [inc_of_lt (by omega), hpx]
  · have hr : r < s.rows := hr
    have hc : c < s.columns := hc
    show (s.store v).cell r c = (p.store v).cell (p.top + r) c
    rw [screen_store, page_store, h.cell r hr c hc, hpx, ← hpy]
    simp only [Nat.add_left_cancel_iff]
  · have hc : c < s.columns := hc
    have hrc : p.y < r ∨ p.y = r ∧ p.x + 1 ≤ c := hrc
    show (p.store v).cell r c = 0
    rw [page_store, if_neg (by omega)]
    exact h.blank r c hc (by omega)
  · have hc : c < s.columns := hc
    have hr : p.top + p.rows ≤ r := hr
    show (p.store v).cell r c = 0
    rw [page_store, if_neg (by omega)]
    exact h.below r hr c hc

/-- **One byte** on the screen is one byte on the page. -/
theorem shows_put (ok : Ok s) (h : Shows s p) {c : UInt8} (hf : Fits s c) :
    Shows (TextGrid.put glyph s c) (put glyph p c) := by
  have hr := ok.rows
  have hc := ok.columns
  have hw := shows_wrap ok h
  obtain ⟨hwx, hwy⟩ := ok.wrap
  unfold TextGrid.put put
  by_cases hcol : IsColour c
  · rw [if_pos hcol, if_pos hcol]
    exact ⟨h.rows, h.columns, h.x, h.y, rfl, h.cell, h.blank, h.below⟩
  rw [if_neg hcol, if_neg hcol]
  by_cases hnl : c = 10
  · rw [if_pos hnl, if_pos hnl]
    have hy : s.wrap.y + 1 < 2 ^ 16 := by have := hf hnl; omega
    exact shows_follow (shows_newline hw hy) (by simp [Screen.newline]; omega)
  rw [if_neg hnl, if_neg hnl]
  by_cases hbs : c = 8
  · rw [if_pos hbs, if_pos hbs]
    have hiff : p.wrap.x = 0 ∧ p.wrap.y = p.top ↔ s.wrap.x = 0 ∧ s.wrap.y = 0 := by
      have e1 := hw.x
      have e2 := hw.y
      rw [wrap_top] at e2
      omega
    by_cases h0 : s.wrap.x = 0 ∧ s.wrap.y = 0
    · rw [if_pos h0, if_pos (hiff.mpr h0)]
      exact hw
    · rw [if_neg h0, if_neg (fun hp => h0 (hiff.mp hp))]
      exact shows_stepBack hw (by simpa using hc) (by simpa using hwx) h0
  · rw [if_neg hbs, if_neg hbs, ← h.colour]
    obtain ⟨hfx, hfy⟩ := ok.follow
    exact shows_store (shows_follow hw (by simp; omega)) (by simpa using hc.2) (by simpa using hfx)
      (by simpa using hfy) _

/-- Only a colour code changes the colour. -/
lemma put_frame (p : Page) (c : UInt8) : (put glyph p c).rows = p.rows ∧
    (put glyph p c).columns = p.columns ∧
    (put glyph p c).colour = if IsColour c then (c &&& 0x0F).toNat else p.colour := by
  unfold put
  split_ifs <;> simp [Page.newline, Page.store, Page.advance]

/-! ### Runs -/

/-- No byte of the string overflows the row of the cursor. -/
def FitsAll (glyph : UInt8 → ℕ) : Screen → List UInt8 → Prop
  | _, [] => True
  | s, c :: msg => Fits s c ∧ FitsAll glyph (TextGrid.put glyph s c) msg

theorem shows_puts (ok : Ok s) (h : Shows s p) {msg : List UInt8} (hf : FitsAll glyph s msg) :
    Shows (TextGrid.puts glyph s msg) (puts glyph p msg) := by
  induction msg generalizing s p with
  | nil => exact h
  | cons c msg ih => exact ih (ok_put ok c) (shows_put ok h hf.1) hf.2

/-- Below 65535 rows no row overflows. -/
lemma fits_of_rows (ok : Ok s) (hr : s.rows ≤ 65534) (c : UInt8) : Fits s c := by
  have := ok.wrap
  intro _
  omega

lemma fitsAll_of_rows (ok : Ok s) (hr : s.rows ≤ 65534) (msg : List UInt8) :
    FitsAll glyph s msg := by
  induction msg generalizing s with
  | nil => trivial
  | cons c msg ih => exact ⟨fits_of_rows ok hr c, ih (ok_put ok c) (by simpa using hr)⟩

end Mono98.TextPage
