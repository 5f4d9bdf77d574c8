import CallFlow.Flow.Basic
import CallFlow.Script.Basic

/-
  This file defines emitters: what a step of each kind does
  with the call, apart from where the call goes next.

  Main declarations:
    * `Emitter`
    * `Emitter.standard`
    * `Emitters`
    * `Emitter.registered`
-/

namespace CallFlow

/-
  An emitter makes the instructions of a node from the node
  and the locations of its sounds by parameter.  It may fail
  for want of a parameter, which it then names.
-/
abbrev Emitter : Type :=
  Node → (String → Option String) →
    Except String (List Instr)

/- Emitters, by the kind of step that they are for. -/
abbrev Emitters : Type :=
  List (StepKind × Emitter)

namespace Emitter

/- A value that has to be there. -/
def require
    {α : Type}
    (name : String)
    (v : Option α) : Except String α :=
  match v with
  | some a => .ok a
  | none => .error name

/- Play a sound. -/
def play
    (blocking : Bool) : Emitter :=
  fun n sound => do
    let location ← require "audio" (sound "audio")
    return [.play location blocking
      (n.settings.filled? "options")]

/- Read digits into a variable. -/
def collect : Emitter :=
  fun n sound => do
    let maxDigits ← require "maxDigits"
      ((n.settings.count? "maxDigits").filter (0 < ·))
    return [.readDigits
      ((n.settings.filled? "variable").getD "digits")
      (sound "prompt")
      maxDigits
      ((n.settings.count? "timeout").getD 5)]

/- Connect the call to a queue of agents. -/
def agent : Emitter :=
  fun n _ => do
    let queue ← require "queue" (n.settings.filled? "queue")
    return [.bridge (.queue queue)
      (n.settings.count? "timeout")
      (n.settings.filled? "options")]

/- Connect the call to a number. -/
def number : Emitter :=
  fun n _ => do
    let destination ← require "destination"
      (n.settings.filled? "destination")
    return [.bridge
      (.number
        ((n.settings.filled? "technology").getD "PJSIP")
        destination)
      (n.settings.count? "timeout")
      (n.settings.filled? "options")]

/- End the call. -/
def hangup : Emitter :=
  fun n _ => .ok [.hangup (n.settings.count? "cause")]

/- The emitter of every kind of step. -/
def standard : StepKind → Emitter
  | .playback => play true
  | .background => play false
  | .collect => collect
  | .agent => agent
  | .number => number
  | .hangup => hangup

/- The usual emitters, for the kinds of the catalog. -/
def registered : Emitters :=
  StepKind.all.map fun k => (k, standard k)

/- There is one of them for every kind. -/
theorem lookup_registered
    (k : StepKind) :
    registered.lookup k = some (standard k) := by
  cases k <;> rfl

/- An emitter that makes the same instructions always. -/
def fixed
    (instrs : List Instr) : Emitter :=
  fun _ _ => .ok instrs

end Emitter

end CallFlow
