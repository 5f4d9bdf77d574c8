import CallFlow.Number.Double
import CallFlow.Number.Numeral

/-
  This file defines how numerals and floating-point numbers
  stand for each other.

  A number is written with the fewest digits that lie closer
  to it than to any other number.  A numeral is read with a
  significand that is cut to a word, and then scaled by
  powers of ten, each step being rounded.

  Main declarations:
    * `Magnitude.shortest`
    * `Double.numeral`
    * `Numeral.double?`
    * `Numeral.isWord`
-/

namespace CallFlow

------------------------------------------------------------
-- The fewest digits
------------------------------------------------------------

namespace Magnitude

/-
  The point of the grid `10 ^ k` that stands for a number,
  where the grid has one: a point stands for the numbers
  that no other number is closer to it than.
-/
def gridPoint?
    (a : Magnitude)
    (k : Int) : Option Nat :=
  -- All quantities are multiples of one common unit.
  let num :=
    Nat.pow 2 (a.q - 2).toNat * Nat.pow 10 (-k).toNat
  let grid :=
    Nat.pow 10 k.toNat * Nat.pow 2 (2 - a.q).toNat
  let value := 4 * a.m * num
  let low :=
    if a.m = Nat.pow 2 52 ∧ -1074 < a.q then
      (4 * a.m - 1) * num
    else (4 * a.m - 2) * num
  let high := (4 * a.m + 2) * num
  let closed := a.m % 2 == 0
  let stands := fun (c : Nat) =>
    (low < c * grid && c * grid < high) ||
      (closed && (c * grid == low || c * grid == high))
  let below := value / grid
  let above := below + 1
  match stands below, stands above with
  | false, false => none
  | true, false => some below
  | false, true => some above
  | true, true =>
      let toBelow := value - below * grid
      let toAbove := above * grid - value
      if toBelow < toAbove then some below
      else if toAbove < toBelow then some above
      else if below % 2 == 0 then some below
      else some above

/-
  The digits and the exponent of the coarsest decimal grid
  with a point that stands for a positive number.
-/
def shortest
    (a : Magnitude) : Nat × Int :=
  let found := (List.range 700).findSome? fun (i : Nat) =>
    let k : Int := 320 - (i : Int)
    (a.gridPoint? k).map fun c => (c, k)
  found.getD (0, 0)

end Magnitude

------------------------------------------------------------
-- Writing a number
------------------------------------------------------------

namespace Double

/-
  Exponents of the first digit from -5 to 15 are written
  with a decimal point alone, all others with a power of ten.
-/
def positional
    (e : Int) : Bool :=
  -5 ≤ e && e ≤ 15

/- The numeral of a number. -/
def numeral
    (x : Double) : Numeral :=
  if x.magnitude.m = 0 then
    ⟨x.negative, ['0'], ['0'], none⟩
  else
    let (c, k) := x.magnitude.shortest
    let ds := Numeral.digitsOf c
    let e : Int := k + (ds.length : Int) - 1
    if positional e then
      if e < 0 then
        ⟨x.negative, ['0'],
          List.replicate (-e - 1).toNat '0' ++ ds, none⟩
      else if 0 ≤ k then
        ⟨x.negative, ds ++ List.replicate k.toNat '0',
          ['0'], none⟩
      else
        let point := (e + 1).toNat
        ⟨x.negative, ds.take point, ds.drop point, none⟩
    else ⟨x.negative, ds.take 1, ds.drop 1, some e⟩

end Double

------------------------------------------------------------
-- Reading a numeral
------------------------------------------------------------

namespace Numeral

/- The greatest significand. -/
def wordMax : Nat :=
  18446744073709551615

/- The greatest exponent that is read digit by digit. -/
def exponentMax : Nat :=
  2147483647

/-
  Take digits into a significand as long as it fits a word,
  and give back the digits that were not taken.
-/
def takeDigits
    (significand : Nat) : List Char → Nat × List Char
  | [] => (significand, [])
  | c :: r =>
      let next := 10 * significand + (c.toNat - '0'.toNat)
      if wordMax < next then (significand, c :: r)
      else takeDigits next r

/-
  Divide by powers of ten that have a rounded form of their
  own, until the rest is one of them or nothing is left.
-/
def scaleDown
    (a : Magnitude) : Nat → Nat → Magnitude
  | 0, _ => .zero
  | steps + 1, k =>
      if k ≤ 308 then a.div (.powerOfTen k)
      else scaleDown (a.div (.powerOfTen 308)) steps (k - 308)

/-
  A significand times a power of ten, unless the result is
  too large.  Four divisions leave nothing of any word.
-/
def scale?
    (significand : Nat)
    (k : Int) : Option Magnitude :=
  let a := Magnitude.ofNat significand
  if significand = 0 then some .zero
  else if 308 < k then none
  else if 0 ≤ k then
    let b := a.mul (.powerOfTen k.toNat)
    if b.isFinite then some b else none
  else some (scaleDown a 4 (-k).toNat)

/-
  The number nearest to a numeral, reached by rounded steps,
  unless it is too large.
-/
def double?
    (n : Numeral) : Option Double :=
  let (s₁, left) := takeDigits 0 n.whole
  let (s₂, unread) := takeDigits s₁ n.fraction
  let shift : Int :=
    (left.length : Int) -
      ((n.fraction.length - unread.length : Nat) : Int)
  let e := n.exponent.getD 0
  if exponentMax < e.natAbs then
    if s₂ ≠ 0 ∧ 0 < e then none
    else some ⟨n.negative, .zero⟩
  else
    (scale? s₂ (shift + e)).map fun a => ⟨n.negative, a⟩

/- Whether an integer fits a word, signed or not. -/
def isWord
    (i : Int) : Bool :=
  -9223372036854775808 ≤ i && i ≤ 18446744073709551615

end Numeral

end CallFlow
