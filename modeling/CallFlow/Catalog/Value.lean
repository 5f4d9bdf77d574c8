import CallFlow.NameMap
import CallFlow.Text.Class

/-
  This file defines the values that the parameters of a step
  can take.

  Main declarations:
    * `Value`
    * `Value.text?`
    * `Value.integer?`
    * `Value.flag?`
    * `Value.display`
    * `Value.isBlank`
    * `Settings`
-/

namespace CallFlow

------------------------------------------------------------
-- Values
------------------------------------------------------------

/- A value of a parameter. -/
inductive Value where
  | flag (b : Bool)
  | integer (n : Int64)
  | text (s : String)
deriving DecidableEq

namespace Value

/- The text of a textual value. -/
def text? : Value → Option String
  | text s => some s
  | _ => none

/- The number of an integer value. -/
def integer? : Value → Option Int64
  | integer n => some n
  | _ => none

/- The truth of a flag. -/
def flag? : Value → Option Bool
  | flag b => some b
  | _ => none

/- A value as it is shown. -/
def display : Value → String
  | flag true => "true"
  | flag false => "false"
  | integer n => toString n.toInt
  | text s => s

/- A blank text counts as absent where a value is required. -/
def isBlank : Value → Bool
  | text s => Text.isBlank s
  | _ => false

end Value

/- The parameters of a step that have a value. -/
abbrev Settings : Type :=
  NameMap Value

namespace Settings

/- The text under a name. -/
def text?
    (s : Settings)
    (name : String) : Option String :=
  (s.get? name).bind Value.text?

/- The number under a name. -/
def integer?
    (s : Settings)
    (name : String) : Option Int64 :=
  (s.get? name).bind Value.integer?

/- Whether a flag is set; an absent one is not. -/
def isSet
    (s : Settings)
    (name : String) : Bool :=
  ((s.get? name).bind Value.flag?).getD false

/- The text under a name, unless it is blank. -/
def filled?
    (s : Settings)
    (name : String) : Option String :=
  (s.text? name).filter fun t => !Text.isBlank t

/- The number under a name, where it is a count. -/
def count?
    (s : Settings)
    (name : String) : Option UInt32 :=
  (s.integer? name).bind fun n =>
    if 0 ≤ n.toInt ∧ n.toInt < 4294967296 then
      some (UInt32.ofNat n.toInt.toNat)
    else none

end Settings

end CallFlow
