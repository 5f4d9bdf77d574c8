import CallFlow.Json.Basic

/-
  This file defines how the fields of records are read from
  data.

  A record is written as an object, whose other members are
  passed over, or as the list of its fields.

  Main declarations:
    * `Json.fields?`
    * `Json.given?`
    * `Json.orElse?`
    * `Json.nullable?`
-/

namespace CallFlow

namespace Json

------------------------------------------------------------
-- Values of fields
------------------------------------------------------------

/- A text. -/
def text? : Json → Option String
  | string s => some s
  | _ => none

/- A natural number below a bound. -/
def natBelow?
    (bound : Nat) : Json → Option Nat
  | number n =>
      n.integer?.bind fun i =>
        if 0 ≤ i ∧ i < bound then some i.toNat else none
  | _ => none

/- A number of 32 bits. -/
def word32?
    (j : Json) : Option UInt32 :=
  (j.natBelow? UInt32.size).map UInt32.ofNat

/- A number of 64 bits. -/
def word64?
    (j : Json) : Option UInt64 :=
  (j.natBelow? UInt64.size).map UInt64.ofNat

/- A truth value. -/
def bool? : Json → Option Bool
  | bool b => some b
  | _ => none

/- A list of parts that can each be read. -/
def list?
    {α : Type}
    (f : Json → Option α) : Json → Option (List α)
  | list items => items.mapM f
  | _ => none

/- A map of values that can each be read; the last counts. -/
def map?
    {α : Type}
    (f : Json → Option α) : Json → Option (NameMap α)
  | object members =>
      (members.mapM fun m =>
        (f m.2).map fun v => (m.1, v)).map NameMap.ofList
  | _ => none

/- A value, or nothing. -/
def nullable?
    {α : Type}
    (f : Json → Option α) : Json → Option (Option α)
  | null => some none
  | j => (f j).map some

------------------------------------------------------------
-- Fields
------------------------------------------------------------

/- A field that has to be there. -/
def given?
    {α : Type}
    (f : Json → Option α)
    (field : Option Json) : Option α :=
  field.bind f

/- A field with a value for the case that it is absent. -/
def orElse?
    {α : Type}
    (d : α)
    (f : Json → Option α) : Option Json → Option α
  | none => some d
  | some j => f j

/-
  The member with one of some names, which must not come
  twice.
-/
def member?
    (names : List String)
    (members : List (String × Json)) :
    Option (Option Json) :=
  match members.filter fun m => names.contains m.1 with
  | [] => some none
  | [m] => some (some m.2)
  | _ => none

/-
  The fields of a record, where each is known by some names.
  A list may leave out the last fields.
-/
def fields?
    (fields : List (List String)) :
    Json → Option (List (Option Json))
  | object members =>
      fields.mapM fun names => member? names members
  | list items =>
      if items.length ≤ fields.length then
        some (items.map some ++
          List.replicate (fields.length - items.length) none)
      else none
  | _ => none

/- The fields of a record that a list gives all of. -/
def allFields?
    (fields : List String)
    (j : Json) : Option (List (Option Json)) :=
  match j with
  | list items =>
      if items.length = fields.length then
        j.fields? (fields.map fun f => [f])
      else none
  | j => j.fields? (fields.map fun f => [f])

end Json

end CallFlow
