import CallFlow.Command.Outcome
import CallFlow.Dialplan.Render

/-
  This file defines what every command of the command line
  does, given the files that it can read and write.

  Main declarations:
    * `Command.listTypes`
    * `Command.runValidate`
    * `Command.writeScript`
    * `Command.runCompile`
    * `Command.runInspect`
    * `Command.run`
-/

namespace CallFlow

namespace Command

------------------------------------------------------------
-- The catalog
------------------------------------------------------------

/- The line of a parameter. -/
def paramLine
    (p : Param) : String :=
  "    " ++ p.name ++ ": " ++ p.sort.name ++
    (if p.required then " (required)" else "") ++
    (match p.initial with
    | some v => " = " ++ v.display
    | none => "")

/- The lines of a kind of step. -/
def kindLines
    (k : StepKind) : List String :=
  (k.name ++ " - " ++ k.description) ::
    k.params.map paramLine

/- List the kinds of steps and their parameters. -/
def listTypes : Outcome :=
  .printed (StepKind.all.flatMap kindLines)

------------------------------------------------------------
-- Checking
------------------------------------------------------------

/- The lines that sum up the findings about a flow. -/
def summaryLines
    (t : Flow)
    (found : List Finding) : List String :=
  ["", "Flow '" ++ t.name ++ "': " ++ toString t.size ++
    " node(s), " ++ toString found.length ++ " finding(s)"]

/- What is said of a snapshot that cannot be read. -/
def readFailure
    (what path reason : String) : String :=
  "Failed to read " ++ what ++ " '" ++ path ++ "': " ++ reason

/- What is said of a snapshot that cannot be loaded. -/
def loadFailure
    (path : String)
    (e : LoadError) : String :=
  "Failed to load snapshot '" ++ path ++ "': " ++ e.message

/- Print every finding about a stored flow. -/
def runValidate
    (files : Files)
    (path : String) : Outcome :=
  match files.text path with
  | .error reason =>
      .failed [] (readFailure "snapshot" path reason)
  | .ok s =>
      match Flow.load s with
      | .error (.malformed found) =>
          ⟨1, "", Outcome.findingLines found, none, []⟩
      | .error e => .failed [] (loadFailure path e)
      | .ok t =>
          let found := t.findings
          ⟨if found.any Finding.blocksCompile then 1 else 0,
            Outcome.lines (summaryLines t found),
            Outcome.findingLines found, none, []⟩

------------------------------------------------------------
-- Compiling
------------------------------------------------------------

/- Read the flow to compile. -/
def loadFlow
    (files : Files)
    (path : String) : Except String Flow := do
  let s ←
    (files.text path).mapError
      (readFailure "snapshot" path)
  (Flow.load s).mapError (loadFailure path)

/- What every complaint about a form begins with. -/
def parseFailure
    (what path : String) : String :=
  "Failed to parse " ++ what ++ " '" ++ path ++ "': "

/- Why a text of some other form is not read. -/
def parseReason : String :=
  "not in the expected form"

/- Read a file in a form of data. -/
def readData
    {α : Type}
    (files : Files)
    (what path : String)
    (f : Json → Option α) : Except String α := do
  let s ← (files.text path).mapError (readFailure what path)
  match (Json.read? s).bind f with
  | some a => .ok a
  | none => .error (parseFailure what path ++ parseReason)

/- Read the options to compile with. -/
def loadOptions
    (files : Files) :
    Option String → Except String Options
  | none => .ok .standard
  | some path =>
      readData files "options" path Options.ofJson?

/- Read where audio is found. -/
def loadAssets
    (files : Files) :
    Option String → Except String Resolver
  | none => .ok .direct
  | some path => do
      let sounds ←
        readData files "assets" path (Json.map? Json.text?)
      return (AudioLibrary.mk sounds 0).resolver

/- The files that a script is asked to be written to. -/
def targets
    (s : Script)
    (output artifact : Option String) :
    List (String × Contents) :=
  (output.map fun p => (p, .text s.render)).toList ++
    (artifact.map fun p => (p, .bytes s.toBytes)).toList

/-
  Write files in turn, up to the first one that cannot be
  written, and then say why.
-/
def writeAll
    (files : Files) :
    List (String × Contents) →
      List (String × Contents) × Option String
  | [] => ([], none)
  | (path, c) :: rest =>
      match files.refusal? path c with
      | some reason => ([], some (c.failure path reason))
      | none =>
          let (written, failure) := writeAll files rest
          ((path, c) :: written, failure)

/-
  Write a script to where it is asked for.  Without a file for
  it the text is printed, before anything is written.
-/
def writeScript
    (files : Files)
    (c : Compilation)
    (output artifact : Option String) : Outcome :=
  let (written, failure) :=
    writeAll files (targets c.script output artifact)
  let printed :=
    if output.isSome then "" else c.script.render
  let errors :=
    Outcome.findingLines c.findings ++
      Outcome.lines (written.map fun w => w.2.success w.1)
  match failure with
  | none =>
      ⟨0, printed, errors,
        some ("Compiled " ++ toString c.script.blocks.length ++
          " block(s)"),
        written⟩
  | some reason =>
      ⟨1, printed, errors ++ Outcome.failureLines reason, none,
        written⟩

/- Compile a stored flow. -/
def runCompile
    (files : Files)
    (snapshot : String)
    (options assets output artifact : Option String) :
    Outcome :=
  let inputs : Except String (Flow × Options × Resolver) :=
    do
      let t ← loadFlow files snapshot
      let o ← loadOptions files options
      return (t, o, ← loadAssets files assets)
  match inputs with
  | .error reason => .failed [] reason
  | .ok (t, o, r) =>
      match (Compiler.withOptions o).compile t r with
      | .error e =>
          .failed e.findings
            ("Compilation failed: " ++ e.message)
      | .ok c => writeScript files c output artifact

------------------------------------------------------------
-- Inspecting
------------------------------------------------------------

/- A text filled up with spaces to a width. -/
def padded
    (width : Nat)
    (s : String) : String :=
  s ++ String.ofList (List.replicate (width - s.length) ' ')

/- The line of a step. -/
def rowLine
    (r : Row) : String :=
  padded 24 r.block ++ " " ++ padded 8 r.label.name ++ " " ++
    padded 16 r.instr ++ " " ++ ", ".intercalate r.arguments

/- What every complaint about stored bytes begins with. -/
def decodeFailure : String :=
  "Artifact deserialization failed: "

/- Why bytes are not read. -/
def decodeReason : String :=
  "not a script"

/- Print a stored script. -/
def runInspect
    (files : Files)
    (path : String)
    (rows : Bool) : Outcome :=
  match files.bytes path with
  | .error reason =>
      .failed [] ("Failed to load artifact: Artifact I/O on '" ++
        path ++ "' failed: " ++ reason)
  | .ok bs =>
      match Script.ofBytes? bs with
      | none =>
          .failed [] ("Failed to load artifact: " ++
            decodeFailure ++ decodeReason)
      | some s =>
          if rows then .printed (s.rows.map rowLine)
          else ⟨0, s.render, "", none, []⟩

------------------------------------------------------------
-- Commands
------------------------------------------------------------

/- What comes of a command. -/
def run
    (files : Files) : Command → Outcome
  | .types => listTypes
  | .validate snapshot => runValidate files snapshot
  | .compile snapshot options assets output artifact =>
      runCompile files snapshot options assets output artifact
  | .inspect artifact rows => runInspect files artifact rows

end Command

end CallFlow
