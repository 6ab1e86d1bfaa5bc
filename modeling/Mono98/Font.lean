import Mathlib.Data.List.Basic

/-!
The font of the terminal: one 32-bit word for each 7-bit character.

The top 25 bits of a word are the rows of a 5×5 bitmap, and its low bits are left free for
the colour.
-/

namespace Mono98.Font

def n0 : ℕ := 0b11111110011010110011111110000000
def n1 : ℕ := 0b00100001000010000100001000000000
def n2 : ℕ := 0b11111000011111110000111110000000
def n3 : ℕ := 0b11111000011111100001111110000000
def n4 : ℕ := 0b10001100011111100001000010000000
def n5 : ℕ := 0b11111100001111100001111110000000
def n6 : ℕ := 0b11111100001111110001111110000000
def n7 : ℕ := 0b11111000100010001000100000000000
def n8 : ℕ := 0b11111100011111110001111110000000
def n9 : ℕ := 0b11111100011111100001000010000000
def la : ℕ := 0b11111100011111110001100010000000
def lb : ℕ := 0b11110100101111110001111110000000
def lc : ℕ := 0b11111100011000010001111110000000
def ld : ℕ := 0b11100100101000110010111000000000
def le : ℕ := 0b11111100001111110000111110000000
def lf : ℕ := 0b11111100001111110000100000000000
def lg : ℕ := 0b11111100001001110001111110000000
def lh : ℕ := 0b10001100011111110001100010000000
def li : ℕ := 0b11111001000010000100111110000000
def lj : ℕ := 0b11111000010000100001111100000000
def lk : ℕ := 0b10001100101010010010100010000000
def ll : ℕ := 0b10000100001000010000111110000000
def lm : ℕ := 0b11111101011010110101101010000000
def ln : ℕ := 0b10001110011010110011100010000000
def lo : ℕ := 0b11111100011000110001111110000000
def lp : ℕ := 0b11111100011111110000100000000000
def lq : ℕ := 0b11111100011000111111000010000000
def lr : ℕ := 0b11111100011111110110100110000000
def ls : ℕ := 0b11111100001111100001111110000000
def lt : ℕ := 0b11111001000010000100001000000000
def lu : ℕ := 0b10001100011000110001111110000000
def lv : ℕ := 0b10001100011000101010001000000000
def lw : ℕ := 0b10101101011010110101111110000000
def ly : ℕ := 0b10001010100010000100001000000000
def lx : ℕ := 0b10001010100010001010100010000000
def lz : ℕ := 0b11111000100010001000111110000000

/-- `!` to `/`. -/
def marks1 : List ℕ :=
  [0b00100001000010000000001000000000, 0b11011110110000000000000000000000,
   0b01010111110101011111010100000000, 0b11111101001111100101111110000000,
   0b10001000100010001000100010000000, 0b01010010101111101010010100000000,
   0b10000100000000000000000000000000, 0b01111100001000010000011110000000,
   0b11110000010000100001111100000000, 0b10101011101111101110101010000000,
   0b00100001001111100100001000000000, 0b00000000000000001000100000000000,
   0b00000000001111100000000000000000, 0b00000000000000011000110000000000,
   0b00001000100010001000100000000000]

def digits : List ℕ :=
  [n0, n1, n2, n3, n4, n5, n6, n7, n8, n9]

/-- `:` to `@`. -/
def marks2 : List ℕ :=
  [0b00100001000000000100001000000000, 0b00100001000000000100010000000000,
   0b00100010001000001000001000000000, 0b00000111110000011111000000000000,
   0b10000010000010001000100000000000, 0b11111100010011000000001000000000,
   0b00111110101011011110101100000000]

/-- The letters, whose two cases share their bitmaps. -/
def letters : List ℕ :=
  [la, lb, lc, ld, le, lf, lg, lh, li, lj, lk, ll, lm, ln, lo, lp, lq, lr, ls, lt, lu, lv, lw, lx,
   ly, lz]

/-- `[` to the backquote. -/
def marks3 : List ℕ :=
  [0b11111100001000010000111110000000, 0b10000010000010000010000010000000,
   0b11111000010000100001111110000000, 0b00100010101000100000000000000000,
   0b00000000000000000000111110000000, 0b10101101010000001110011100000000]

/-- The left brace to `~`. -/
def marks4 : List ℕ :=
  [0b01100100000100010000011000000000, 0b11111111111101111111111110000000,
   0b00110000010001000001001100000000, 0b00001000110010101001111110000000]

/-- `default_font[128]`. -/
def defaultFont : List ℕ :=
  List.replicate 32 0 ++ ([0] ++ marks1 ++ digits ++ marks2 ++ letters ++ marks3 ++ letters ++
    marks4 ++ [0])

end Mono98.Font
