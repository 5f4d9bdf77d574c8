import CallFlow.Catalog.Param
import CallFlow.Text.Safe

/-
  This file defines when a value may be written to a
  parameter of a step.

  Main declarations:
    * `ParamError`
    * `ParamError.message`
    * `StepKind.check`
-/

namespace CallFlow

------------------------------------------------------------
-- Rejected writes
------------------------------------------------------------

/- Why a value cannot be written to a parameter. -/
inductive ParamError where
  | unknown (kind : StepKind) (name : String)
  | wrongSort
      (kind : StepKind)
      (name : String)
      (expected : ParamSort)
  | outOfRange
      (kind : StepKind)
      (name : String)
      (lo hi : Int64)
  | unsafeText (kind : StepKind) (name : String)
deriving DecidableEq

namespace ParamError

/- What is said of a rejected write. -/
def message : ParamError → String
  | unknown kind name =>
      "Node type " ++ kind.name ++ " has no parameter named '" ++
        name ++ "'"
  | wrongSort kind name expected =>
      "Parameter '" ++ name ++ "' of " ++ kind.name ++
        " expects a " ++ expected.name ++ " value"
  | outOfRange kind name lo hi =>
      "Parameter '" ++ name ++ "' of " ++ kind.name ++
        " must lie between " ++ toString lo.toInt ++ " and " ++
        toString hi.toInt
  | unsafeText kind name =>
      "Parameter '" ++ name ++ "' of " ++ kind.name ++
        " contains control characters, ';' or unbalanced " ++
        "parentheses"

end ParamError

------------------------------------------------------------
-- Checking a write
------------------------------------------------------------

namespace StepKind

/-
  Check a write: the parameter exists, the value is of its
  sort, lies in its range, and is safe if it is a text.
-/
def check
    (k : StepKind)
    (name : String)
    (v : Value) : Except ParamError Unit :=
  match k.param? name with
  | none => .error (.unknown k name)
  | some p =>
      if !p.sort.accepts v then
        .error (.wrongSort k name p.sort)
      else
        match p.missedRange? v with
        | some (lo, hi) => .error (.outOfRange k name lo hi)
        | none =>
            match v with
            | .text s =>
                if Text.isDialplanSafe s then .ok ()
                else .error (.unsafeText k name)
            | _ => .ok ()

end StepKind

end CallFlow
