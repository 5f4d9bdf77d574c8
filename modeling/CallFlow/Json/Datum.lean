import CallFlow.Json.Basic

/-
  This file defines what data stands for: numbers are known
  by their values, and objects have one member a name, in
  name order.

  Data that holds broken parts, a number that is too large,
  or too many lists and objects inside each other, stands
  for nothing.

  Main declarations:
    * `Datum`
    * `Datum.json`
    * `Json.datum?`
-/

namespace CallFlow

/-
  What a piece of data stands for.  Integers that do not fit
  a word are floating-point numbers.
-/
inductive Datum where
  | null
  | bool (b : Bool)
  | integer (n : Int)
  | real (x : Double)
  | text (s : String)
  | list (items : List Datum)
  | object (members : List (String × Datum))
deriving Inhabited

namespace Datum

mutual

/- The data that is written for a datum. -/
def json : Datum → Json
  | null => .null
  | bool b => .bool b
  | integer n => .ofInt n
  | real x => .number x.numeral
  | text s => .string s
  | list items => .list (jsonItems items)
  | object members => .object (jsonMembers members)

/- The data that is written for the items of a list. -/
def jsonItems : List Datum → List Json
  | [] => []
  | d :: ds => json d :: jsonItems ds

/- The data that is written for the members of an object. -/
def jsonMembers :
    List (String × Datum) → List (String × Json)
  | [] => []
  | (name, d) :: ms => (name, json d) :: jsonMembers ms

end

end Datum

/- What a numeral stands for. -/
def Numeral.datum?
    (n : Numeral) : Option Datum :=
  match n.integer? with
  | some i =>
      if isWord i then some (.integer i)
      else n.double?.map .real
  | none => n.double?.map .real

namespace Json

mutual

/- What data with at most `depth` levels stands for. -/
def datum? : Nat → Json → Option Datum
  | _, null => some .null
  | _, bool b => some (.bool b)
  | _, number n => n.datum?
  | _, string s => some (.text s)
  | 0, list _ => none
  | depth + 1, list items =>
      (itemData? depth items).map .list
  | 0, object _ => none
  | depth + 1, object members =>
      (memberData? depth members).map fun ms =>
        .object (NameMap.ofList ms).entries
  | _, broken => none

/- What the items of a list stand for. -/
def itemData? : Nat → List Json → Option (List Datum)
  | _, [] => some []
  | depth, j :: js => do
      return (← datum? depth j) :: (← itemData? depth js)

/- What the members of an object stand for. -/
def memberData? :
    Nat → List (String × Json) →
      Option (List (String × Datum))
  | _, [] => some []
  | depth, (name, j) :: ms => do
      return (name, ← datum? depth j) ::
        (← memberData? depth ms)

end

end Json

end CallFlow
