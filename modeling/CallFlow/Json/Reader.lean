import CallFlow.Json.Basic
import CallFlow.Json.Token

/-
  This file defines how tokens make up data.

  The reader keeps the lists and objects that are still open
  on a stack, innermost first, and takes one token at a time.

  Main declarations:
    * `Json.Frame`
    * `Json.Reader`
    * `Json.Reader.step`
    * `Json.read?`
-/

namespace CallFlow

namespace Json

------------------------------------------------------------
-- Open lists and objects
------------------------------------------------------------

/- The members of an open object, unless a name is broken. -/
abbrev Members : Type :=
  Option (List (String × Json))

/- Add a member to an open object. -/
def Members.add
    (ms : Members)
    (name : Option String)
    (v : Json) : Members := do
  return (← name, v) :: (← ms)

/- The object of its members, last first. -/
def Members.close : Members → Json
  | some ms => .object ms.reverse
  | none => .broken

/- A list or an object that is still open, last part first. -/
inductive Frame where
  | list (items : List Json)
  | object (members : Members) (name : Option String)

/- What the reader has got to. -/
inductive Reader where
  | value (outer : List Frame)
  | firstItem (outer : List Frame)
  | firstName (outer : List Frame)
  | nextName (outer : List Frame) (members : Members)
  | colon
      (outer : List Frame)
      (members : Members)
      (name : Option String)
  | done (outer : List Frame) (v : Json)

------------------------------------------------------------
-- Reading
------------------------------------------------------------

/- The data of a token that stands alone. -/
def atom? : Token → Option Json
  | .null => some .null
  | .bool b => some (.bool b)
  | .number n => some (.number n)
  | .text (some s) => some (.string s)
  | .text none => some .broken
  | _ => none

namespace Reader

/- Read a token where data must start. -/
def begin
    (outer : List Frame)
    (t : Token) : Option Reader :=
  match t with
  | .beginList => some (.firstItem outer)
  | .beginObject => some (.firstName outer)
  | t => (atom? t).map fun v => .done outer v

/- Read a token after complete data. -/
def after
    (outer : List Frame)
    (v : Json)
    (t : Token) : Option Reader :=
  match outer, t with
  | .list items :: o, .comma =>
      some (.value (.list (v :: items) :: o))
  | .list items :: o, .endList =>
      some (.done o (.list (v :: items).reverse))
  | .object ms name :: o, .comma =>
      some (.nextName o (ms.add name v))
  | .object ms name :: o, .endObject =>
      some (.done o (ms.add name v).close)
  | _, _ => none

/- Read one token. -/
def step
    (r : Reader)
    (t : Token) : Option Reader :=
  match r with
  | .value o => begin o t
  | .firstItem o =>
      if t = .endList then some (.done o (.list []))
      else begin (.list [] :: o) t
  | .firstName o =>
      match t with
      | .endObject => some (.done o (.object []))
      | .text name => some (.colon o (some []) name)
      | _ => none
  | .nextName o ms =>
      match t with
      | .text name => some (.colon o ms name)
      | _ => none
  | .colon o ms name =>
      if t = .colon then some (.value (.object ms name :: o))
      else none
  | .done o v => after o v t

/- The data, if nothing is open. -/
def result? : Reader → Option Json
  | .done [] v => some v
  | _ => none

end Reader

/- The data that a list of tokens makes up. -/
def ofTokens?
    (ts : List Token) : Option Json :=
  (ts.foldlM Reader.step (.value [])).bind Reader.result?

/- The data that a text writes. -/
def read?
    (s : String) : Option Json :=
  (tokens? s.toList).bind ofTokens?

end Json

end CallFlow
