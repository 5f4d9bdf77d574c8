import CallFlow.Text.Class

/-
  This file defines which texts can stand in an argument of
  a dialplan application as they are.

  A safe text cannot end its line, start a comment, or close
  the application call around it.

  Main declarations:
    * `Text.closes`
    * `Text.isDialplanSafe`
-/

namespace CallFlow

namespace Text

/-
  Whether a text that starts inside `depth` parentheses ends
  outside of all of them, never closes one too many, and has
  no semicolon and no control character.
-/
def closes : Nat → List Char → Bool
  | depth, [] => depth == 0
  | depth, c :: rest =>
      if c = '(' then closes (depth + 1) rest
      else if c = ')' then
        match depth with
        | 0 => false
        | d + 1 => closes d rest
      else if c = ';' || isControl c then false
      else closes depth rest

/- Whether a text can stand in an argument as it is. -/
def isDialplanSafe
    (s : String) : Bool :=
  closes 0 s.toList

end Text

end CallFlow
