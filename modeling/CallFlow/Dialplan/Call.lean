import CallFlow.Text.Class

/-
  This file defines how calls of dialplan applications are
  written.

  Main declarations:
    * `Dialplan.escape`
    * `Dialplan.dropTrailingEmpty`
    * `Dialplan.call`
-/

namespace CallFlow

namespace Dialplan

------------------------------------------------------------
-- Arguments
------------------------------------------------------------

/-
  A character of an argument: separators and comment starts
  get a backslash, and control characters are dropped.
-/
def escapeChar
    (c : Char) : List Char :=
  if c = ',' || c = ';' then ['\\', c]
  else if Text.isControl c then []
  else [c]

/- A value as an argument. -/
def escape
    (s : String) : String :=
  String.ofList (s.toList.flatMap escapeChar)

/- An optional value as an argument. -/
def escape?
    (s : Option String) : String :=
  (s.map escape).getD ""

/- A list of arguments up to the last that is not empty. -/
def dropTrailingEmpty
    (args : List String) : List String :=
  (args.reverse.dropWhile fun a => a.isEmpty).reverse

/- The call of an application. -/
def call
    (app : String)
    (args : List String) : String :=
  app ++ "(" ++
    ",".intercalate (dropTrailingEmpty args) ++ ")"

end Dialplan

end CallFlow
