import CallFlow.Command.Args
import CallFlow.Command.Run

/-
  The command line: it reads the files that a command names,
  writes those that the command would write, and prints what
  comes of it.
-/

namespace CallFlow

/- Why a file could not be read or written. -/
def fileReason : IO.Error → String
  | .noFileOrDirectory _ _ _ =>
      "No such file or directory (os error 2)"
  | .permissionDenied _ _ _ =>
      "Permission denied (os error 13)"
  | .inappropriateType _ _ _ =>
      "Is a directory (os error 21)"
  | e => toString e

/- Read a file, or find out why it cannot be read. -/
def readBytes
    (path : String) : IO (Except String ByteArray) := do
  try
    return .ok (← IO.FS.readBinFile path)
  catch e =>
    return .error (fileReason e)

/-
  The files that have been read, and those that turned out
  not to be writable.
-/
def filesOf
    (found : List (String × Except String ByteArray))
    (refused : List ((String × Contents) × String)) : Files :=
  let look := fun (path : String) =>
    match found.find? fun e => e.1 == path with
    | some e => e.2
    | none => .error "No such file or directory (os error 2)"
  { text := fun path => do
      match String.fromUTF8? (← look path) with
      | some s => return s
      | none => .error "stream did not contain valid UTF-8"
    bytes := fun path => do
      return (← look path).data.toList
    refusal? := fun path c => refused.lookup (path, c) }

/- Write a file, or find out why it cannot be written. -/
def writeContents
    (path : String)
    (c : Contents) : IO (Option String) := do
  let data : ByteArray :=
    match c with
    | .text s => s.toUTF8
    | .bytes bs => ⟨bs.toArray⟩
  try
    IO.FS.writeBinFile path data
    return none
  catch e =>
    return some (fileReason e)

/- Write files up to the first one that cannot be written. -/
def writeFiles :
    List (String × Contents) →
      IO (List ((String × Contents) × String))
  | [] => return []
  | (path, c) :: rest => do
      match ← writeContents path c with
      | some reason => return [((path, c), reason)]
      | none => writeFiles rest

/- Print what has come of a command. -/
def deliver
    (o : Outcome)
    (started : Nat) : IO UInt32 := do
  IO.print o.output
  IO.eprint o.errors
  match o.closing with
  | none => pure ()
  | some line =>
      let now ← IO.monoMsNow
      IO.eprintln
        (line ++ " in " ++ toString (now - started) ++ "ms")
  return o.exitCode

end CallFlow

open CallFlow in
/- Run the command line. -/
def main
    (args : List String) : IO UInt32 := do
  let started ← IO.monoMsNow
  match Command.ofArgs? args with
  | none =>
      IO.eprint (Outcome.lines Command.usage)
      return 2
  | some command =>
      let found ←
        command.inputs.mapM fun path => do
          return (path, ← readBytes path)
      -- What it would write is tried before it is run.
      let planned := Command.run (filesOf found []) command
      let refused ← writeFiles planned.written
      deliver (Command.run (filesOf found refused) command)
        started
