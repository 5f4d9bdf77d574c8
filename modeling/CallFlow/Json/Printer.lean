import CallFlow.Json.Basic

/-
  This file defines the written form of data, on one line or
  with one part a line.

  Main declarations:
    * `Json.quoted`
    * `Json.chars`
    * `Json.compact`
    * `Json.pretty`
-/

namespace CallFlow

namespace Json

------------------------------------------------------------
-- Strings
------------------------------------------------------------

/- A hexadecimal digit in lower case. -/
def hexChar
    (n : Nat) : Char :=
  Nat.digitChar n

/- The escape of a code point below 2 ^ 16. -/
def codeEscape
    (n : Nat) : List Char :=
  ['\\', 'u', hexChar (n / 4096 % 16), hexChar (n / 256 % 16),
    hexChar (n / 16 % 16), hexChar (n % 16)]

/- A character inside a string. -/
def quotedChar
    (c : Char) : List Char :=
  match c with
  | '"' => ['\\', '"']
  | '\\' => ['\\', '\\']
  | '\x08' => ['\\', 'b']
  | '\x0c' => ['\\', 'f']
  | '\n' => ['\\', 'n']
  | '\r' => ['\\', 'r']
  | '\t' => ['\\', 't']
  | c => if c.toNat < 0x20 then codeEscape c.toNat else [c]

/- A text between quotes. -/
def quoted
    (s : String) : List Char :=
  '"' :: s.toList.flatMap quotedChar ++ ['"']

------------------------------------------------------------
-- Layout
------------------------------------------------------------

/- How the parts of lists and objects are set apart. -/
inductive Layout where
  | compact
  | indented
deriving DecidableEq

/- What stands before a part, inside `depth` others. -/
def Layout.gap
    (l : Layout)
    (depth : Nat) : List Char :=
  match l with
  | compact => []
  | indented => '\n' :: List.replicate (2 * depth) ' '

/- What stands after a colon. -/
def Layout.pause : Layout → List Char
  | compact => []
  | indented => [' ']

/- What stands for broken data: half of a surrogate pair. -/
def brokenChars : List Char :=
  '"' :: codeEscape 0xd800 ++ ['"']

mutual

/- The written form of data inside `depth` others. -/
def charsAt
    (l : Layout)
    (depth : Nat) : Json → List Char
  | null => ['n', 'u', 'l', 'l']
  | bool true => ['t', 'r', 'u', 'e']
  | bool false => ['f', 'a', 'l', 's', 'e']
  | number n => n.chars
  | string s => quoted s
  | list items =>
      if items.isEmpty then ['[', ']']
      else
        '[' :: itemChars l (depth + 1) items ++
          l.gap depth ++ [']']
  | object members =>
      if members.isEmpty then ['\x7b', '\x7d']
      else
        '\x7b' :: memberChars l (depth + 1) members ++
          l.gap depth ++ ['\x7d']
  | broken => brokenChars

/- The written form of the items of a list. -/
def itemChars
    (l : Layout)
    (depth : Nat) : List Json → List Char
  | [] => []
  | j :: js =>
      l.gap depth ++ charsAt l depth j ++
        (if js.isEmpty then []
        else ',' :: itemChars l depth js)

/- The written form of the members of an object. -/
def memberChars
    (l : Layout)
    (depth : Nat) : List (String × Json) → List Char
  | [] => []
  | (name, j) :: ms =>
      l.gap depth ++ quoted name ++ ':' :: l.pause ++
        charsAt l depth j ++
          (if ms.isEmpty then []
          else ',' :: memberChars l depth ms)

end

/- The written form of data on one line. -/
def compact
    (j : Json) : String :=
  String.ofList (charsAt .compact 0 j)

/- The written form of data with one part a line. -/
def pretty
    (j : Json) : String :=
  String.ofList (charsAt .indented 0 j)

end Json

end CallFlow
