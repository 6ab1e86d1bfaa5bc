import Mathlib.Algebra.Order.Field.Basic
import Mono98.Lib.Word

/-!
The mathematical routines of the programs.

`float32_t` is an ordered field: its arithmetic is read as exact. A division by zero, which has
no value there, is `none`.
-/

namespace Mono98.Math

open Mono98.Lib.Word

variable {K : Type*} [Field K] [LinearOrder K] (number guess pi x : K)

/-! ### Roots -/

/-- `while ((float32_t)(i * i) <= number) i++;`, at most `n` rounds of it. -/
def isqrtLoop : ℕ → ℕ → Option ℕ
  | 0, _ => none
  | n + 1, i =>
    if ((i * i % 2 ^ 32 : ℕ) : K) ≤ number then isqrtLoop n (inc 32 i) else some (dec 32 i)

/-- After 2³² rounds the counter is 0 again, and the loop never ends. -/
def isqrt : Option ℕ := isqrtLoop number (2 ^ 32) 0

/-- The body of the loop of `sqrt`. -/
def newton : Option K :=
  if 2 * guess = 0 then none else some (guess - (guess * guess - number) / (2 * guess))

/-- The loop, with `i` rounds left. -/
def sqrtLoop : ℕ → K → Option K
  | 0, guess => some guess
  | i + 1, guess => (newton number guess).bind (sqrtLoop i)

def sqrtIterations : ℕ := 3

def sqrt : Option K := (isqrt number).bind fun r => sqrtLoop number sqrtIterations (r : K)

/-! ### Angles -/

def pow (n : ℕ) : K := (List.range n).foldl (fun result _ => result * x) 1

/-- A product of 32 bits. -/
def factorial (n : ℕ) : ℕ := (List.range' 2 (n - 1)).foldl (fun result i => result * i % 2 ^ 32) 1

def sinCosIterations : ℕ := 10

/-- The sum over `i` of the terms of degree `degree i`. -/
def series (degree : ℕ → ℕ) : K :=
  (List.range sinCosIterations).foldl (fun result i =>
    result + (if i % 2 = 0 then 1 else -1) * (pow x (degree i) / (factorial (degree i) : K))) 0

/-- The signs that a routine gives to its calls of itself, by the range of the angle. -/
structure Signs where
  second : ℤ
  third : ℤ
  fourth : ℤ

/-- `3/2`, a division of integers. -/
def threeHalves : K := ((3 / 2 : ℕ) : K)

/-- The angle that a routine with the signs `q` calls itself with, and the sign that it gives to
the result. `none` is an angle for the series. -/
def call (q : Signs) : Option (ℤ × K) :=
  if pi / 2 < x ∧ x ≤ pi then some (q.second, x - pi / 2)
  else if pi < x ∧ x ≤ threeHalves * pi then some (q.third, x - pi)
  else if threeHalves * pi < x ∧ x ≤ 2 * pi then some (q.fourth, x - threeHalves * pi)
  else none

/-- The routine with the signs `q` and the series `f`, at most `n` calls deep. -/
def trig (q : Signs) (f : K → K) : ℕ → K → Option K
  | 0, _ => none
  | n + 1, x =>
    match call pi x q with
    | some (s, y) => (trig q f n y).map ((s : K) * ·)
    | none => some (f x)

def sinSigns : Signs := ⟨1, -1, -1⟩

def cosSigns : Signs := ⟨-1, -1, 1⟩

/-- `M_PI` is the argument `pi`. Calls are never more than three deep. -/
def sin : Option K := trig pi sinSigns (series · fun i => 2 * i + 1) 3 x

def cos : Option K := trig pi cosSigns (series · fun i => 2 * i) 3 x

end Mono98.Math
