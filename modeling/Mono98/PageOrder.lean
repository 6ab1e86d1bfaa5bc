import Mathlib.Tactic.Ring
import Mono98.TextPage

/-!
The page in reading order.

The cells of a page are counted row after row. A cursor behind the last column has the same
position as one at the start of the next row, so that the deferred wrap is invisible here: a
printed byte fills the cell at the cursor and moves it on by one, a backspace moves it back by
one and blanks the cell there.
-/

namespace Mono98.PageOrder

open Mono98.TextGrid Mono98.TextPage

/-- The number of cells before the cursor. -/
def pos (p : Page) : ℕ := p.y * p.columns + p.x

/-- The word in cell number `q`. -/
def word (p : Page) (q : ℕ) : ℕ := p.cell (q / p.columns) (q % p.columns)

variable {glyph : UInt8 → ℕ} {p : Page}

lemma div_mod_iff {q r c n : ℕ} (h : c < n) : q / n = r ∧ q % n = c ↔ q = r * n + c := by
  constructor
  · rintro ⟨rfl, rfl⟩
    exact (Nat.div_add_mod' q n).symm
  · rintro rfl
    have hn : 0 < n := Nat.zero_lt_of_lt h
    rw [Nat.add_comm, Nat.add_mul_div_right _ _ hn, Nat.add_mul_mod_self_right,
      Nat.div_eq_of_lt h, Nat.mod_eq_of_lt h]
    exact ⟨Nat.zero_add r, rfl⟩

/-! ### The parts of a step -/

lemma wrap_x_lt (hc : 1 ≤ p.columns) (hx : p.x ≤ p.columns) : p.wrap.x < p.columns := by
  unfold Page.wrap
  split
  · exact hc
  · omega

/-- The deferred wrap does not move the cursor. -/
lemma wrap_pos (p : Page) : pos p.wrap = pos p := by
  unfold Page.wrap pos
  split
  · next h => simp only [h]; ring
  · rfl

lemma wrap_word (p : Page) : word p.wrap = word p := by
  unfold Page.wrap word
  split <;> rfl

lemma follow_pos (p : Page) : pos p.follow = pos p := by
  unfold Page.follow pos
  split <;> rfl

lemma follow_word (p : Page) : word p.follow = word p := by
  unfold Page.follow word
  split <;> rfl

lemma store_word (hx : p.x < p.columns) (v : ℕ) :
    word (p.store v) = Function.update (word p) (pos p) v := by
  funext q
  show (p.store v).cell (q / p.columns) (q % p.columns) = _
  rw [page_store, Function.update_apply]
  simp only [div_mod_iff hx]
  rfl

/-- The window moves only when the rows from its old top on are full. -/
lemma follow_top (hr : 1 ≤ p.rows) :
    p.follow.top = p.top ∨ p.follow.top * p.columns + (p.rows - 1) * p.columns ≤ pos p := by
  unfold Page.follow
  split
  · next h =>
    right
    show (p.top + 1) * p.columns + (p.rows - 1) * p.columns ≤ p.y * p.columns + p.x
    rw [← Nat.add_mul]
    exact Nat.le_trans (Nat.mul_le_mul_right _ (by omega)) (Nat.le_add_right _ _)
  · exact Or.inl rfl

lemma stepBack_pos (hc : 1 ≤ p.columns) (h : 1 ≤ pos p) : pos p.stepBack = pos p - 1 := by
  unfold Page.stepBack
  split
  · next hx =>
    unfold pos at h ⊢
    rw [hx, Nat.add_zero] at h ⊢
    obtain ⟨y, hy⟩ : ∃ y, p.y = y + 1 := Nat.exists_eq_succ_of_ne_zero fun h0 => by simp [h0] at h
    simp only [hy, Nat.add_sub_cancel, Nat.add_mul, Nat.one_mul]
    omega
  · show p.y * p.columns + (p.x - 1) = p.y * p.columns + p.x - 1
    omega

lemma stepBack_word (p : Page) : word p.stepBack = word p := by
  unfold Page.stepBack word
  split <;> rfl

lemma stepBack_x_lt (hc : 1 ≤ p.columns) (hx : p.x < p.columns) :
    p.stepBack.x < p.stepBack.columns := by
  unfold Page.stepBack
  split
  · exact Nat.sub_lt hc Nat.one_pos
  · exact Nat.lt_of_le_of_lt (Nat.sub_le _ _) hx

/-! ### Printing and rubbing out -/

/-- What a printed byte does: the cell at the cursor is filled, and the window moves only when
it is full but for its last row. -/
structure Prints (p p' : Page) (v : ℕ) : Prop where
  pos : pos p' = pos p + 1
  word : word p' = Function.update (word p) (PageOrder.pos p) v
  top : p'.top = p.top ∨ p'.top * p.columns + (p.rows - 1) * p.columns ≤ PageOrder.pos p
  rows : p'.rows = p.rows
  columns : p'.columns = p.columns
  colour : p'.colour = p.colour

/-- What a backspace does: the cell before the cursor goes blank. -/
structure Rubs (p p' : Page) : Prop where
  pos : pos p' = pos p - 1
  word : word p' = Function.update (word p) (PageOrder.pos p - 1) 0
  top : p'.top = p.top
  rows : p'.rows = p.rows
  columns : p'.columns = p.columns
  colour : p'.colour = p.colour

theorem put_prints (hr : 1 ≤ p.rows) (hc : 1 ≤ p.columns) (hx : p.x ≤ p.columns) {c : UInt8}
    (hcol : ¬ IsColour c) (h10 : c ≠ 10) (h8 : c ≠ 8) :
    Prints p (put glyph p c) (glyph c ||| p.colour) := by
  rw [TextPage.put, if_neg hcol, if_neg h10, if_neg h8]
  have hlt : p.wrap.follow.x < p.wrap.follow.columns := by simpa using wrap_x_lt hc hx
  have hpos : pos p.wrap.follow = pos p := (follow_pos _).trans (wrap_pos _)
  refine ⟨?_, ?_, ?_, ?_, ?_, ?_⟩
  · show pos p.wrap.follow + 1 = _
    rw [hpos]
  · show word (p.wrap.follow.store _) = _
    rw [store_word hlt, hpos, follow_word, wrap_word]
  · have h := follow_top (p := p.wrap) (by simpa using hr)
    rw [wrap_top, wrap_rows, wrap_columns, wrap_pos] at h
    exact h
  · exact (follow_rows _).trans (wrap_rows p)
  · exact (follow_columns _).trans (wrap_columns p)
  · exact (follow_colour _).trans (wrap_colour p)

theorem put_rubs (hc : 1 ≤ p.columns) (hx : p.x ≤ p.columns) (h : p.top * p.columns < pos p) :
    Rubs p (put glyph p 8) := by
  have h0 : ¬ (p.wrap.x = 0 ∧ p.wrap.y = p.top) := by
    rintro ⟨h1, h2⟩
    rw [← wrap_pos, pos, h1, h2, wrap_columns] at h
    omega
  rw [TextPage.put, if_neg (by decide), if_neg (by decide), if_pos rfl, if_neg h0]
  have hlt := stepBack_x_lt (by simpa using hc) (p := p.wrap) (by simpa using wrap_x_lt hc hx)
  have hpos : pos p.wrap.stepBack = pos p - 1 := by
    rw [stepBack_pos (by simpa using hc) (by rw [wrap_pos]; omega), wrap_pos]
  refine ⟨hpos, ?_, ?_, ?_, ?_, ?_⟩
  · rw [store_word hlt, hpos, stepBack_word, wrap_word]
  · exact (stepBack_top _).trans (wrap_top p)
  · exact (stepBack_rows _).trans (wrap_rows p)
  · exact (stepBack_columns _).trans (wrap_columns p)
  · exact (stepBack_colour _).trans (wrap_colour p)

/-- The cells from the cursor on are blank. -/
lemma blank_word {s : Screen} (h : Shows s p) (hc : 1 ≤ p.columns) {q : ℕ} (hq : pos p ≤ q) :
    word p q = 0 := by
  refine h.blank _ _ (by rw [h.columns]; exact Nat.mod_lt _ hc) ?_
  have hdm := Nat.div_add_mod' q p.columns
  have hlt := Nat.mod_lt q hc
  unfold pos at hq
  rcases Nat.lt_trichotomy (q / p.columns) p.y with hlt' | heq | hgt
  · have : (q / p.columns + 1) * p.columns ≤ p.y * p.columns := Nat.mul_le_mul_right _ hlt'
    rw [Nat.add_mul] at this
    omega
  · rw [heq] at hdm
    omega
  · exact Or.inl hgt

end Mono98.PageOrder
