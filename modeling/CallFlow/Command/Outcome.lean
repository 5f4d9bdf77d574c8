import CallFlow.Compile.Compiler
import CallFlow.Script.Bytes
import CallFlow.Snapshot.Load

/-
  This file defines what the command line is asked to do,
  and what comes of it.

  Main declarations:
    * `Command`
    * `Contents`
    * `Outcome`
    * `Files`
-/

namespace CallFlow

/- What the command line is asked to do. -/
inductive Command where
  | types
  | validate (snapshot : String)
  | compile
      (snapshot : String)
      (options assets output artifact : Option String)
  | inspect (artifact : String) (rows : Bool)
deriving DecidableEq

/- What is written to a file. -/
inductive Contents where
  | text (s : String)
  | bytes (bs : List UInt8)
deriving DecidableEq

/-
  What comes of a command.  The closing line goes to the
  error output too, with the time that was spent.  The files
  that have been written are listed in their order.
-/
structure Outcome where
  exitCode : UInt32
  output : String
  errors : String
  closing : Option String
  written : List (String × Contents)

/-
  The files that can be read or written, by path.  For one
  that cannot be read there is the reason, and for one that
  cannot be written with some contents, there is a reason
  too.
-/
structure Files where
  text : String → Except String String
  bytes : String → Except String (List UInt8)
  refusal? : String → Contents → Option String

namespace Contents

/- What is said of a file that was written. -/
def success
    (path : String) : Contents → String
  | .text _ => "Wrote dialplan to '" ++ path ++ "'"
  | .bytes _ => "Wrote artifact to '" ++ path ++ "'"

/- What is said of a file that cannot be written. -/
def failure
    (path reason : String) : Contents → String
  | .text _ =>
      "Failed to write dialplan '" ++ path ++ "': " ++ reason
  | .bytes _ =>
      "Failed to save artifact: Artifact I/O on '" ++ path ++
        "' failed: " ++ reason

end Contents

namespace Outcome

/- Some lines, each ended. -/
def lines
    (ls : List String) : String :=
  String.join (ls.map fun l => l ++ "\n")

/- A command that has printed some lines. -/
def printed
    (ls : List String) : Outcome :=
  ⟨0, lines ls, "", none, []⟩

/- Findings as they are printed. -/
def findingLines
    (fs : List Finding) : String :=
  lines (fs.map Finding.display)

/- The last lines of a command that fails. -/
def failureLines
    (reason : String) : String :=
  lines ["", "Error: " ++ reason]

/- A command that has failed, after printing findings. -/
def failed
    (fs : List Finding)
    (reason : String) : Outcome :=
  ⟨1, "", findingLines fs ++ failureLines reason, none, []⟩

end Outcome

end CallFlow
