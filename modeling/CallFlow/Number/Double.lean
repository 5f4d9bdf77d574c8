/-
  This file defines binary floating-point numbers of 53
  significant bits, with exact rounding.

  A finite number is a sign and a magnitude `m * 2 ^ q` with
  `m ≤ 2 ^ 53` and `-1074 ≤ q ≤ 971`.  Every operation
  rounds the exact result to the nearest number, and a half
  to the even one.

  Main declarations:
    * `Magnitude`
    * `Magnitude.ofRatio`
    * `Magnitude.mul`
    * `Magnitude.div`
    * `Magnitude.isFinite`
    * `Double`
-/

namespace CallFlow

------------------------------------------------------------
-- Magnitudes
------------------------------------------------------------

/- The number `m * 2 ^ q`. -/
structure Magnitude where
  m : Nat
  q : Int
deriving DecidableEq, Repr

namespace Magnitude

/- Zero, with the least exponent. -/
def zero : Magnitude :=
  ⟨0, -1074⟩

/- The quotient of two numbers, a half going to the even. -/
def roundDiv
    (num den : Nat) : Nat :=
  let d := num / den
  let r := num % den
  if den < 2 * r || (den == 2 * r && d % 2 == 1) then d + 1
  else d

/- The power `2 ^ q` as a fraction. -/
def powerOfTwo
    (q : Int) : Nat × Nat :=
  (Nat.pow 2 q.toNat, Nat.pow 2 (-q).toNat)

/-
  The greatest `e` with `2 ^ e ≤ num / den`, for a positive
  fraction.
-/
def logTwo
    (num den : Nat) : Int :=
  let e : Int := (Nat.log2 num : Int) - (Nat.log2 den : Int)
  let p := powerOfTwo e
  if num * p.2 < den * p.1 then e - 1 else e

/- The nearest number to a fraction. -/
def ofRatio
    (num den : Nat) : Magnitude :=
  if num = 0 then zero
  else
    let q := max (logTwo num den - 52) (-1074)
    let p := powerOfTwo q
    let m := roundDiv (num * p.2) (den * p.1)
    if m = Nat.pow 2 53 then ⟨Nat.pow 2 52, q + 1⟩
    else ⟨m, q⟩

/- The nearest number to a natural number. -/
def ofNat
    (n : Nat) : Magnitude :=
  ofRatio n 1

/- The rounded product. -/
def mul
    (a b : Magnitude) : Magnitude :=
  let p := powerOfTwo (a.q + b.q)
  ofRatio (a.m * b.m * p.1) p.2

/- The rounded quotient. -/
def div
    (a b : Magnitude) : Magnitude :=
  let p := powerOfTwo (a.q - b.q)
  ofRatio (a.m * p.1) (b.m * p.2)

/- Whether a magnitude is below `2 ^ 1024`. -/
def isFinite
    (a : Magnitude) : Bool :=
  a.q ≤ 971

/- The nearest number to a power of ten. -/
def powerOfTen
    (k : Nat) : Magnitude :=
  ofNat (Nat.pow 10 k)

end Magnitude

------------------------------------------------------------
-- Signed numbers
------------------------------------------------------------

/- A finite number with a sign; zero has one too. -/
structure Double where
  negative : Bool
  magnitude : Magnitude
deriving DecidableEq, Repr

end CallFlow
