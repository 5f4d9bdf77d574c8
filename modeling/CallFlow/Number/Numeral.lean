/-
  This file defines decimal numerals as they are written in
  data: a sign, whole digits without a leading zero, digits
  of a fraction, and an exponent.

  Main declarations:
    * `Numeral`
    * `Numeral.ofChars?`
    * `Numeral.chars`
    * `Numeral.ofInt`
    * `Numeral.integer?`

  Main statements:
    * `Numeral.digitsValue_digitsOf`
    * `Numeral.integer?_ofInt`
-/

namespace CallFlow

------------------------------------------------------------
-- Numerals
------------------------------------------------------------

/-
  A numeral.  Without digits of a fraction there is no
  decimal point.
-/
structure Numeral where
  negative : Bool
  whole : List Char
  fraction : List Char
  exponent : Option Int
deriving DecidableEq, Repr

namespace Numeral

/- The number that a list of digits stands for. -/
def digitsValue
    (ds : List Char) : Nat :=
  Nat.ofDigitChars 10 ds 0

/- The digits of a number. -/
def digitsOf
    (n : Nat) : List Char :=
  Nat.toDigits 10 n

/- Whether whole digits are written without leading zeros. -/
def wholeOk : List Char → Bool
  | [] => false
  | ['0'] => true
  | '0' :: _ => false
  | _ => true

/- Read the part of a numeral after its exponent mark. -/
def exponentOf?
    (cs : List Char) : Option Int :=
  let (negative, ds) :=
    match cs with
    | '-' :: r => (true, r)
    | '+' :: r => (false, r)
    | r => (false, r)
  if ds.isEmpty || !ds.all Char.isDigit then none
  else if negative then some (-(digitsValue ds : Int))
  else some (digitsValue ds)

/- Read the part of a numeral after its fraction. -/
def readExponent
    (negative : Bool)
    (whole fraction : List Char) :
    List Char → Option Numeral
  | [] => some ⟨negative, whole, fraction, none⟩
  | c :: r =>
      if c = 'e' || c = 'E' then
        (exponentOf? r).map fun e =>
          ⟨negative, whole, fraction, some e⟩
      else none

/- Read the part of a numeral after its sign. -/
def readUnsigned
    (negative : Bool)
    (cs : List Char) : Option Numeral :=
  let whole := cs.takeWhile Char.isDigit
  let rest := cs.dropWhile Char.isDigit
  if wholeOk whole then
    match rest with
    | '.' :: r =>
        let fraction := r.takeWhile Char.isDigit
        if fraction.isEmpty then none
        else
          readExponent negative whole fraction
            (r.dropWhile Char.isDigit)
    | r => readExponent negative whole [] r
  else none

/- Read a numeral. -/
def ofChars?
    (cs : List Char) : Option Numeral :=
  match cs with
  | '-' :: r => readUnsigned true r
  | r => readUnsigned false r

/- The written form of an exponent. -/
def exponentChars : Option Int → List Char
  | none => []
  | some e =>
      'e' :: (if e < 0 then '-' else '+') ::
        digitsOf e.natAbs

/- The written form of a numeral. -/
def chars
    (n : Numeral) : List Char :=
  (if n.negative then ['-'] else []) ++ n.whole ++
    (if n.fraction.isEmpty then [] else '.' :: n.fraction) ++
    exponentChars n.exponent

/- The numeral of an integer. -/
def ofInt
    (n : Int) : Numeral :=
  ⟨n < 0, digitsOf n.natAbs, [], none⟩

/-
  The integer that a numeral is written as.  A fraction, an
  exponent or a negative zero is not the form of an integer.
-/
def integer?
    (n : Numeral) : Option Int :=
  if n.fraction.isEmpty && n.exponent.isNone then
    if n.negative then
      if digitsValue n.whole = 0 then none
      else some (-(digitsValue n.whole : Int))
    else some (digitsValue n.whole)
  else none

------------------------------------------------------------
-- Digits
------------------------------------------------------------

/- The digits of a number stand for it. -/
theorem digitsValue_digitsOf
    (n : Nat) : digitsValue (digitsOf n) = n :=
  Nat.ofDigitChars_ten_toDigits

/- The numeral of an integer stands for it. -/
theorem integer?_ofInt
    (n : Int) : (ofInt n).integer? = some n := by
  by_cases h : n < 0
  · have hNe : n.natAbs ≠ 0 := by omega
    simp only [integer?, ofInt, digitsValue_digitsOf, h,
      decide_true, List.isEmpty_nil, Option.isNone_none,
      Bool.and_self, if_true, hNe, if_false, Option.some.injEq]
    omega
  · simp only [integer?, ofInt, digitsValue_digitsOf, h,
      decide_false, List.isEmpty_nil, Option.isNone_none,
      Bool.and_self, if_true, Bool.false_eq_true, if_false,
      Option.some.injEq]
    omega

end Numeral

end CallFlow
