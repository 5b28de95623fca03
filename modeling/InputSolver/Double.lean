/-
  InputSolver — double precision.

  Rates are computed in double precision.  A `Double` is a natural multiple
  of a power of two; every operation gives the double nearest to the exact
  result, the even one of two that are equally near.  The rates here are far
  from the ends of the exponent range, so exponents are not bounded.
-/
import InputSolver.Text.Fixed

namespace InputSolver

/-- The number `significand * 2 ^ exponent`. -/
structure Double where
  significand : Nat
  exponent : Int
  deriving DecidableEq

namespace Double

/-- A numerator and a denominator. -/
def ratio (d : Double) : Nat × Nat :=
  (d.significand * Nat.pow 2 d.exponent.toNat, Nat.pow 2 (-d.exponent).toNat)

/-- The quotient `num / den` scaled by a power of two and rounded. -/
def scaled (num den : Nat) (exponent : Int) : Double :=
  ⟨roundHalfEven (num * Nat.pow 2 (-exponent).toNat) (den * Nat.pow 2 exponent.toNat), exponent⟩

/-- The double nearest to `num / den`.  The exponent leaves the significand
    53 binary digits. -/
def nearest (num den : Nat) : Double :=
  if num = 0 then ⟨0, 0⟩
  else
    let e : Int := Nat.log2 num - Nat.log2 den - 52
    if num * Nat.pow 2 (-e).toNat < Nat.pow 2 52 * (den * Nat.pow 2 e.toNat) then
      scaled num den (e - 1)
    else scaled num den e

def ofNat (n : Nat) : Double := nearest n 1

def add (a b : Double) : Double :=
  nearest (a.ratio.1 * b.ratio.2 + b.ratio.1 * a.ratio.2) (a.ratio.2 * b.ratio.2)

def mul (a b : Double) : Double := nearest (a.ratio.1 * b.ratio.1) (a.ratio.2 * b.ratio.2)

def div (a b : Double) : Double := nearest (a.ratio.1 * b.ratio.2) (a.ratio.2 * b.ratio.1)

/-- The exact value with a fixed number of decimals. -/
def fixed (d : Double) (places : Nat) : String := Text.fixed places d.ratio.1 d.ratio.2

/-- The largest natural number at or below the product with another one. -/
def floorMul (d : Double) (n : Nat) : Nat := d.ratio.1 * n / d.ratio.2

end Double

end InputSolver
