import CallFlow.Number.Shortest
import CallFlow.NameMap

/-
  This file defines data in JSON notation, as it is written:
  numerals keep their form, and the members of an object
  keep their order and their repetitions.

  Main declarations:
    * `Json`
    * `Json.induct`
    * `Json.normal`
-/

namespace CallFlow

------------------------------------------------------------
-- Data
------------------------------------------------------------

/-
  A piece of data.  `broken` is a string, or an object with
  a member name, that holds half of a surrogate pair: no
  text stands for it, so it can be skipped but not used.
-/
inductive Json where
  | null
  | bool (b : Bool)
  | number (n : Numeral)
  | string (s : String)
  | list (items : List Json)
  | object (members : List (String × Json))
  | broken
deriving Inhabited

namespace Json

/- Induction over data, with every part at hand. -/
theorem induct
    {P : Json → Prop}
    (null : P .null)
    (bool : ∀ b, P (.bool b))
    (number : ∀ n, P (.number n))
    (string : ∀ s, P (.string s))
    (list :
      ∀ items, (∀ j ∈ items, P j) → P (.list items))
    (object :
      ∀ members, (∀ m ∈ members, P m.2) →
        P (.object members))
    (broken : P .broken)
    (j : Json) : P j :=
  Json.rec
    (motive_1 := P)
    (motive_2 := fun items => ∀ j ∈ items, P j)
    (motive_3 := fun members => ∀ m ∈ members, P m.2)
    (motive_4 := fun m => P m.2)
    null bool number string
    (fun items h => list items h)
    (fun members h => object members h)
    broken
    (fun _ h => absurd h List.not_mem_nil)
    (fun _ _ hHead hTail j h => by
      rcases List.mem_cons.mp h with h | h
      · exact h ▸ hHead
      · exact hTail j h)
    (fun _ h => absurd h List.not_mem_nil)
    (fun _ _ hHead hTail m h => by
      rcases List.mem_cons.mp h with h | h
      · exact h ▸ hHead
      · exact hTail m h)
    (fun _ _ h => h)
    j

/- The data of an integer. -/
def ofInt
    (n : Int) : Json :=
  number (Numeral.ofInt n)

/- The data of a natural number. -/
def ofNat
    (n : Nat) : Json :=
  ofInt n

/- A text, or nothing. -/
def ofText? : Option String → Json
  | some s => string s
  | none => null

/- A number, or nothing. -/
def ofNat? : Option Nat → Json
  | some n => ofNat n
  | none => null

/- A list of texts. -/
def ofTexts
    (l : List String) : Json :=
  list (l.map string)

/- An object with the entries of a map. -/
def ofMap
    (m : NameMap Json) : Json :=
  object m.entries

end Json

end CallFlow
