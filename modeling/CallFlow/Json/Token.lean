import CallFlow.Number.Numeral

/-
  This file defines the tokens of JSON notation and how a
  text is cut into them.

  The text is read one character at a time.  White space
  ends a word and is otherwise passed over; it never changes
  the tokens around it.

  Main declarations:
    * `Json.Token`
    * `Json.textOf?`
    * `Json.Scan.step`
    * `Json.tokens?`
-/

namespace CallFlow

namespace Json

------------------------------------------------------------
-- Tokens
------------------------------------------------------------

/-
  A token.  A text that holds half of a surrogate pair is
  `text none`.
-/
inductive Token where
  | beginList
  | endList
  | beginObject
  | endObject
  | comma
  | colon
  | null
  | bool (b : Bool)
  | number (n : Numeral)
  | text (s : Option String)
deriving DecidableEq

------------------------------------------------------------
-- The contents of a string
------------------------------------------------------------

/- The value of a hexadecimal digit. -/
def hexDigit?
    (c : Char) : Option Nat :=
  if '0' ≤ c ∧ c ≤ '9' then some (c.toNat - '0'.toNat)
  else if 'a' ≤ c ∧ c ≤ 'f' then
    some (c.toNat - 'a'.toNat + 10)
  else if 'A' ≤ c ∧ c ≤ 'F' then
    some (c.toNat - 'A'.toNat + 10)
  else none

/- The value of four hexadecimal digits. -/
def hexFour?
    (a b c d : Char) : Option Nat := do
  let a ← hexDigit? a
  let b ← hexDigit? b
  let c ← hexDigit? c
  let d ← hexDigit? d
  return ((a * 16 + b) * 16 + c) * 16 + d

/- The character that an escape of one letter stands for. -/
def escaped?
    (c : Char) : Option Char :=
  match c with
  | '"' => some '"'
  | '\\' => some '\\'
  | '/' => some '/'
  | 'b' => some '\x08'
  | 'f' => some '\x0c'
  | 'n' => some '\n'
  | 'r' => some '\r'
  | 't' => some '\t'
  | _ => none

/-
  The code points between the quotes of a string, where each
  half of a surrogate pair still counts for itself.
-/
def codes? : List Char → Option (List Nat)
  | [] => some []
  | '\\' :: 'u' :: a :: b :: c :: d :: rest => do
      let n ← hexFour? a b c d
      return n :: (← codes? rest)
  | '\\' :: e :: rest => do
      let c ← escaped? e
      return c.toNat :: (← codes? rest)
  | ['\\'] => none
  | c :: rest =>
      if c.toNat < 0x20 then none
      else (codes? rest).map fun ns => c.toNat :: ns

/- The first halves of surrogate pairs. -/
def isHigh
    (n : Nat) : Bool :=
  0xd800 ≤ n && n ≤ 0xdbff

/- The second halves of surrogate pairs. -/
def isLow
    (n : Nat) : Bool :=
  0xdc00 ≤ n && n ≤ 0xdfff

/- Join surrogate pairs, if no half stands alone. -/
def join? : List Nat → Option (List Char)
  | [] => some []
  | [n] =>
      if isHigh n || isLow n then none
      else some [Char.ofNat n]
  | n :: m :: rest =>
      if isHigh n then
        if isLow m then
          (join? rest).map fun cs =>
            Char.ofNat
              (0x10000 + (n - 0xd800) * 0x400 +
                (m - 0xdc00)) :: cs
        else none
      else if isLow n then none
      else
        (join? (m :: rest)).map fun cs =>
          Char.ofNat n :: cs

/- The token of the characters between two quotes. -/
def textOf?
    (cs : List Char) : Option Token :=
  (codes? cs).map fun ns =>
    .text ((join? ns).map String.ofList)

------------------------------------------------------------
-- Words
------------------------------------------------------------

/- The token of a run of letters, digits and signs. -/
def wordOf?
    (cs : List Char) : Option Token :=
  if cs = ['n', 'u', 'l', 'l'] then some .null
  else if cs = ['t', 'r', 'u', 'e'] then some (.bool true)
  else if cs = ['f', 'a', 'l', 's', 'e'] then
    some (.bool false)
  else (Numeral.ofChars? cs).map .number

/- Whether a character can be part of a word. -/
def isWordChar
    (c : Char) : Bool :=
  c.isAlphanum || c == '-' || c == '+' || c == '.'

/- White space between tokens. -/
def isSpace
    (c : Char) : Bool :=
  c == ' ' || c == '\t' || c == '\n' || c == '\r'

/- The token that is one mark. -/
def mark?
    (c : Char) : Option Token :=
  match c with
  | '[' => some .beginList
  | ']' => some .endList
  | '\x7b' => some .beginObject
  | '\x7d' => some .endObject
  | ',' => some .comma
  | ':' => some .colon
  | _ => none

------------------------------------------------------------
-- Scanning
------------------------------------------------------------

/-
  What the scanner is in the middle of, with the characters
  seen of it, last first.
-/
inductive Mode where
  | between
  | word (seen : List Char)
  | quoted (seen : List Char)
  | escape (seen : List Char)
deriving DecidableEq

/- The tokens found so far, last first, and the mode. -/
structure Scan where
  found : List Token
  mode : Mode

namespace Scan

/- The scanner before the first character. -/
def start : Scan :=
  ⟨[], .between⟩

/- Read a character that stands between two tokens. -/
def fresh
    (found : List Token)
    (c : Char) : Option Scan :=
  if isSpace c then some ⟨found, .between⟩
  else if c = '"' then some ⟨found, .quoted []⟩
  else if isWordChar c then some ⟨found, .word [c]⟩
  else (mark? c).map fun t => ⟨t :: found, .between⟩

/- Read one character. -/
def step
    (s : Scan)
    (c : Char) : Option Scan :=
  match s.mode with
  | .between => fresh s.found c
  | .word seen =>
      if isWordChar c then
        some ⟨s.found, .word (c :: seen)⟩
      else do
        let t ← wordOf? seen.reverse
        fresh (t :: s.found) c
  | .quoted seen =>
      if c = '"' then
        (textOf? seen.reverse).map fun t =>
          ⟨t :: s.found, .between⟩
      else if c = '\\' then
        some ⟨s.found, .escape (c :: seen)⟩
      else some ⟨s.found, .quoted (c :: seen)⟩
  | .escape seen => some ⟨s.found, .quoted (c :: seen)⟩

/- The tokens, if nothing is left unfinished. -/
def finish
    (s : Scan) : Option (List Token) :=
  match s.mode with
  | .between => some s.found.reverse
  | .word seen =>
      (wordOf? seen.reverse).map fun t =>
        (t :: s.found).reverse
  | _ => none

end Scan

/- The tokens of a text. -/
def tokens?
    (cs : List Char) : Option (List Token) :=
  (cs.foldlM Scan.step Scan.start).bind Scan.finish

end Json

end CallFlow
