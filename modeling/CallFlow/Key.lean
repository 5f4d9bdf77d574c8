/-
  This file defines the keys of a telephone keypad.

  Keys are ordered `0` to `9`, then `*`, then `#`.  This is
  the order in which the choices of a menu are laid out.

  Main declarations:
    * `Key`
    * `Key.rank`
    * `Key.ofChar?`
    * `Key.ofText?`
    * `Key.token`
-/

namespace CallFlow

------------------------------------------------------------
-- Keys
------------------------------------------------------------

/- A key of the keypad. -/
inductive Key where
  | digit (d : Fin 10)
  | star
  | pound
deriving DecidableEq, Repr

namespace Key

/- The key `0`. -/
def zero : Key :=
  digit 0

/- The position of a key in key order. -/
def rank : Key → Nat
  | digit d => d.val
  | star => 10
  | pound => 11

/- Two keys of equal rank are equal. -/
theorem rank_injective
    (a b : Key)
    (h : a.rank = b.rank) : a = b := by
  cases a <;> cases b <;> simp [rank] at h ⊢ <;> omega

/- The character printed on a key. -/
def toChar : Key → Char
  | digit d => Nat.digitChar d.val
  | star => '*'
  | pound => '#'

/- The text of a key. -/
def text
    (k : Key) : String :=
  String.singleton k.toChar

/- The name of a key inside the name of a block. -/
def token : Key → String
  | digit d => String.singleton (Nat.digitChar d.val)
  | star => "star"
  | pound => "hash"

/- Every key, in key order. -/
def all : List Key :=
  (List.finRange 10).map digit ++ [star, pound]

/- The key that a character is printed on. -/
def ofChar?
    (c : Char) : Option Key :=
  all.find? fun k => k.toChar == c

/- The key that a text names: the text is one character. -/
def ofText?
    (s : String) : Option Key :=
  match s.toList with
  | [c] => ofChar? c
  | _ => none

/- What is said of a text that names no key. -/
def rejection
    (s : String) : String :=
  "'" ++ s ++ "' is not a DTMF key (expected 0-9, * or #)"

/- Every key is in the list of all keys. -/
theorem mem_all
    (k : Key) : k ∈ all := by
  cases k <;> simp [all]

/- Reading the text of a key gives the key back. -/
theorem ofText?_text
    (k : Key) : ofText? k.text = some k := by
  cases k with
  | digit d =>
      have h : ∀ d : Fin 10,
          ofText? (text (digit d)) = some (digit d) := by
        decide +kernel
      exact h d
  | star => decide +kernel
  | pound => decide +kernel

end Key

end CallFlow
