import CallFlow.Catalog.Kind
import CallFlow.Catalog.Value

/-
  This file defines the catalog: which parameters a step of
  each kind takes, and how a step of each kind continues.

  Main declarations:
    * `ParamSort`
    * `Param`
    * `LeafRule`
    * `StepKind.params`
    * `StepKind.branching`
    * `StepKind.leafRule`
    * `StepKind.initialSettings`
    * `StepKind.endsCall`
    * `StepKind.offersReturn`
-/

namespace CallFlow

------------------------------------------------------------
-- Parameters
------------------------------------------------------------

/- What the values of a parameter are. -/
inductive ParamSort where
  | audio
  | text
  | integer
  | boolean
deriving DecidableEq, Repr

namespace ParamSort

/- The name of a sort. -/
def name : ParamSort → String
  | audio => "audio"
  | text => "text"
  | integer => "integer"
  | boolean => "boolean"

/- Whether a value is of a sort. -/
def accepts : ParamSort → Value → Bool
  | audio, .text _ => true
  | text, .text _ => true
  | integer, .integer _ => true
  | boolean, .flag _ => true
  | _, _ => false

end ParamSort

/- A parameter that steps of some kind take. -/
structure Param where
  name : String
  sort : ParamSort
  required : Bool
  initial : Option Value
  range : Option (Int64 × Int64)

namespace Param

/- A parameter that has to be given. -/
def mandatory
    (name : String)
    (sort : ParamSort) : Param :=
  ⟨name, sort, true, none, none⟩

/- A parameter that may be left out. -/
def optional
    (name : String)
    (sort : ParamSort) : Param :=
  ⟨name, sort, false, none, none⟩

/- A parameter that new steps have a value for. -/
def startingAt
    (p : Param)
    (v : Value) : Param :=
  { p with initial := some v }

/- A parameter whose numbers lie between two bounds. -/
def within
    (p : Param)
    (lo hi : Int64) : Param :=
  { p with range := some (lo, hi) }

/- The bounds that a value lies outside of. -/
def missedRange?
    (p : Param)
    (v : Value) : Option (Int64 × Int64) :=
  match p.range, v with
  | some (lo, hi), .integer n =>
      if lo ≤ n ∧ n ≤ hi then none else some (lo, hi)
  | _, _ => none

end Param

------------------------------------------------------------
-- Rules for leaves
------------------------------------------------------------

/- How a step continues when it has no children. -/
inductive LeafRule where
  | terminal
  | terminalWhen (flag : String)
  | fallThrough
deriving DecidableEq

------------------------------------------------------------
-- The catalog
------------------------------------------------------------

namespace StepKind

/- What a kind of step does, in a few words. -/
def description : StepKind → String
  | playback =>
      "Play an audio file, then wait for a menu selection"
  | background =>
      "Play an audio file while already listening for digits"
  | collect =>
      "Read a sequence of digits into a channel variable"
  | agent => "Place the caller into an agent queue"
  | number => "Dial an external number or SIP address"
  | hangup => "Hang up the call"

/- The parameters of a kind, in the order they are shown. -/
def params : StepKind → List Param
  | playback =>
      [ .mandatory "audio" .audio,
        .optional "options" .text,
        (Param.optional "terminal" .boolean).startingAt
          (.flag false),
        (Param.optional "returnToRoot" .boolean).startingAt
          (.flag false) ]
  | background =>
      [ .mandatory "audio" .audio,
        .optional "options" .text,
        (Param.optional "returnToRoot" .boolean).startingAt
          (.flag false) ]
  | collect =>
      [ .optional "prompt" .audio,
        (Param.optional "variable" .text).startingAt
          (.text "digits"),
        (Param.mandatory "maxDigits" .integer).within 1 255,
        ((Param.optional "timeout" .integer).startingAt
          (.integer 5)).within 0 3600,
        (Param.optional "returnToRoot" .boolean).startingAt
          (.flag false) ]
  | agent =>
      [ .mandatory "queue" .text,
        (Param.optional "timeout" .integer).within 0 3600,
        .optional "options" .text ]
  | number =>
      [ .mandatory "destination" .text,
        (Param.optional "technology" .text).startingAt
          (.text "PJSIP"),
        ((Param.optional "timeout" .integer).startingAt
          (.integer 30)).within 0 3600,
        .optional "options" .text ]
  | hangup =>
      [ (Param.optional "cause" .integer).within 1 127 ]

/- The parameter of a kind with a given name. -/
def param?
    (k : StepKind)
    (name : String) : Option Param :=
  k.params.find? fun p => p.name == name

/- Whether steps of a kind can lead on to children. -/
def branching : StepKind → Bool
  | playback | background | collect => true
  | agent | number | hangup => false

/- How steps of a kind continue without children. -/
def leafRule : StepKind → LeafRule
  | playback => .terminalWhen "terminal"
  | background | collect => .fallThrough
  | agent | number | hangup => .terminal

/- The flag that asks for a way back to the first menu. -/
def returnFlag : StepKind → Option String
  | playback | background | collect => some "returnToRoot"
  | agent | number | hangup => none

/- The names of the parameters that name audio. -/
def audioParams
    (k : StepKind) : List String :=
  (k.params.filter fun p => p.sort == .audio).map (·.name)

/- The settings of a new step. -/
def initialSettings
    (k : StepKind) : Settings :=
  NameMap.ofList
    (k.params.filterMap fun p =>
      p.initial.map fun v => (p.name, v))

/- Whether a step without children ends the call. -/
def endsCall
    (k : StepKind)
    (s : Settings) : Bool :=
  match k.leafRule with
  | .terminal => true
  | .terminalWhen flag => s.isSet flag
  | .fallThrough => false

/- Whether a menu offers a way back to the first menu. -/
def offersReturn
    (k : StepKind)
    (s : Settings) : Bool :=
  match k.returnFlag with
  | some flag => s.isSet flag
  | none => false

/- The required parameters that are absent or blank. -/
def missingParams
    (k : StepKind)
    (s : Settings) : List String :=
  (k.params.filter fun p =>
    p.required &&
      match s.get? p.name with
      | none => true
      | some v => v.isBlank).map (·.name)

end StepKind

end CallFlow
