import CallFlow.Command.Outcome

/-
  This file defines how a command is read from the words of
  a command line.

  Main declarations:
    * `Command.ofArgs?`
    * `Command.usage`
-/

namespace CallFlow

namespace Command

/- How the command line is used. -/
def usage : List String :=
  ["Usage:",
    "  types",
    "  validate SNAPSHOT",
    "  compile SNAPSHOT [--options FILE] [--assets FILE]",
    "          [--output FILE] [--artifact FILE]",
    "  inspect ARTIFACT [--rows]"]

/- What is known of a compilation that is asked for. -/
structure CompileArgs where
  snapshot : Option String
  options : Option String
  assets : Option String
  output : Option String
  artifact : Option String

/- A compilation that nothing is known of. -/
def CompileArgs.empty : CompileArgs :=
  ⟨none, none, none, none, none⟩

/- Set what is not yet set. -/
def once
    (old : Option String)
    (new : String) : Option (Option String) :=
  match old with
  | none => some (some new)
  | some _ => none

/- Read the words that a compilation is asked for with. -/
def compileArgs?
    (a : CompileArgs) : List String → Option CompileArgs
  | [] => some a
  | [w] =>
      if w.startsWith "-" then none
      else (once a.snapshot w).map fun s =>
        { a with snapshot := s }
  | w :: v :: rest =>
      if w = "--options" then do
        let s ← once a.options v
        compileArgs? { a with options := s } rest
      else if w = "--assets" ∨ w = "-a" then do
        let s ← once a.assets v
        compileArgs? { a with assets := s } rest
      else if w = "--output" ∨ w = "-o" then do
        let s ← once a.output v
        compileArgs? { a with output := s } rest
      else if w = "--artifact" then do
        let s ← once a.artifact v
        compileArgs? { a with artifact := s } rest
      else if w.startsWith "-" then none
      else do
        let s ← once a.snapshot w
        compileArgs? { a with snapshot := s } (v :: rest)

/- Read a command. -/
def ofArgs? : List String → Option Command
  | ["types"] => some .types
  | ["validate", snapshot] => some (.validate snapshot)
  | ["inspect", artifact] => some (.inspect artifact false)
  | ["inspect", artifact, "--rows"] =>
      some (.inspect artifact true)
  | ["inspect", "--rows", artifact] =>
      some (.inspect artifact true)
  | "compile" :: rest => do
      let a ← compileArgs? .empty rest
      return .compile (← a.snapshot) a.options a.assets
        a.output a.artifact
  | _ => none

/- The files that a command may read. -/
def inputs : Command → List String
  | types => []
  | validate snapshot => [snapshot]
  | compile snapshot options assets _ _ =>
      snapshot :: options.toList ++ assets.toList
  | inspect artifact _ => [artifact]

end Command

end CallFlow
