import CallFlow.Json.Record
import CallFlow.Script.Basic

/-
  This file defines the form of scripts as data.

  A record is an object.  A value of a type with cases is
  the name of its case, or an object with one member of that
  name that holds its parts.

  Main declarations:
    * `Script.toJson`
    * `Script.ofJson?`
    * `Instr.toJson`
    * `Instr.ofJson?`
-/

namespace CallFlow

------------------------------------------------------------
-- Cases
------------------------------------------------------------

namespace Json

/- The data of a case with parts. -/
def ofCase
    (name : String)
    (parts : Json) : Json :=
  .object [(name, parts)]

/- The name of a case and its parts, if it has any. -/
def case? : Json → Option (String × Option Json)
  | string name => some (name, none)
  | object [(name, parts)] => some (name, some parts)
  | _ => none

/- Whether a case has no parts. -/
def noParts : Option Json → Bool
  | none => true
  | some null => true
  | _ => false

/- The parts of a case that has them as fields. -/
def parts?
    (fields : List String) :
    Option Json → Option (List (Option Json))
  | some (object members) =>
      (object members).allFields? fields
  | _ => none

/- A field that may be absent or null. -/
def maybe?
    {α : Type}
    (f : Json → Option α) :
    Option Json → Option (Option α) :=
  orElse? none (nullable? f)

end Json

------------------------------------------------------------
-- Labels, tags and targets
------------------------------------------------------------

/- The data of a label. -/
def Label.toJson : Label → Json
  | entry => .string "Entry"
  | digit k => .ofCase "Digit" (.string k.text)
  | invalid => .string "Invalid"
  | timeout => .string "Timeout"

/- Read a key. -/
def Key.ofJson?
    (j : Json) : Option Key :=
  j.text?.bind Key.ofText?

/- Read a label. -/
def Label.ofJson?
    (j : Json) : Option Label := do
  match ← j.case? with
  | ("Digit", some k) => (Key.ofJson? k).map .digit
  | ("Entry", p) =>
      if Json.noParts p then some .entry else none
  | ("Invalid", p) =>
      if Json.noParts p then some .invalid else none
  | ("Timeout", p) =>
      if Json.noParts p then some .timeout else none
  | _ => none

/- The data of a tag. -/
def Tag.toJson : Tag → Json
  | start => .string "Start"
  | collect => .string "Collect"

/- Read a tag. -/
def Tag.ofJson?
    (j : Json) : Option Tag := do
  match ← j.case? with
  | ("Start", p) =>
      if Json.noParts p then some .start else none
  | ("Collect", p) =>
      if Json.noParts p then some .collect else none
  | _ => none

/- The data of a target. -/
def Target.toJson : Target → Json
  | queue name => .ofCase "Queue" (.string name)
  | number technology destination =>
      .ofCase "Number"
        (.object
          [("technology", .string technology),
           ("destination", .string destination)])

/- Read a target. -/
def Target.ofJson?
    (j : Json) : Option Target := do
  match ← j.case? with
  | ("Queue", some name) => name.text?.map .queue
  | ("Number", p) =>
      match ← Json.parts? ["technology", "destination"] p with
      | [technology, destination] =>
          return .number
            (← Json.given? Json.text? technology)
            (← Json.given? Json.text? destination)
      | _ => none
  | _ => none

------------------------------------------------------------
-- Instructions
------------------------------------------------------------

/- The data of a count. -/
def countJson
    (n : UInt32) : Json :=
  .ofNat n.toNat

/- The data of an optional count. -/
def countJson?
    (n : Option UInt32) : Json :=
  .ofNat? (n.map UInt32.toNat)

namespace Instr

/- The data of an instruction. -/
def toJson : Instr → Json
  | answer => .string "Answer"
  | wait seconds =>
      .ofCase "Wait"
        (.object [("seconds", countJson seconds)])
  | play sound blocking options =>
      .ofCase "Play"
        (.object
          [("asset", .string sound),
           ("blocking", .bool blocking),
           ("options", .ofText? options)])
  | waitForDigit timeout =>
      .ofCase "WaitForDigit"
        (.object [("timeout", countJson timeout)])
  | readDigits channelVar prompt maxDigits timeout =>
      .ofCase "ReadDigits"
        (.object
          [("variable", .string channelVar),
           ("prompt", .ofText? prompt),
           ("max_digits", countJson maxDigits),
           ("timeout", countJson timeout)])
  | dispatch channelVar =>
      .ofCase "Dispatch"
        (.object [("variable", .string channelVar)])
  | bridge target timeout options =>
      .ofCase "Bridge"
        (.object
          [("target", target.toJson),
           ("timeout", countJson? timeout),
           ("options", .ofText? options)])
  | goto block label tag =>
      .ofCase "Goto"
        (.object
          [("block", .string block),
           ("label", label.toJson),
           ("tag", (tag.map Tag.toJson).getD .null)])
  | hangup cause =>
      .ofCase "Hangup"
        (.object [("cause", countJson? cause)])

/- Read the parts of an instruction with one count. -/
def ofCount?
    (field : String)
    (f : UInt32 → Instr)
    (p : Option Json) : Option Instr := do
  match ← Json.parts? [field] p with
  | [n] => (Json.given? Json.word32? n).map f
  | _ => none

/- Read an instruction. -/
def ofJson?
    (j : Json) : Option Instr := do
  match ← j.case? with
  | ("Answer", p) =>
      if Json.noParts p then some .answer else none
  | ("Wait", p) => ofCount? "seconds" .wait p
  | ("Play", p) =>
      match ← Json.parts? ["asset", "blocking", "options"] p
        with
      | [sound, blocking, options] =>
          return .play
            (← Json.given? Json.text? sound)
            (← Json.given? Json.bool? blocking)
            (← Json.maybe? Json.text? options)
      | _ => none
  | ("WaitForDigit", p) =>
      ofCount? "timeout" .waitForDigit p
  | ("ReadDigits", p) =>
      match ← Json.parts?
        ["variable", "prompt", "max_digits", "timeout"] p with
      | [channelVar, prompt, maxDigits, timeout] =>
          return .readDigits
            (← Json.given? Json.text? channelVar)
            (← Json.maybe? Json.text? prompt)
            (← Json.given? Json.word32? maxDigits)
            (← Json.given? Json.word32? timeout)
      | _ => none
  | ("Dispatch", p) =>
      match ← Json.parts? ["variable"] p with
      | [channelVar] =>
          (Json.given? Json.text? channelVar).map .dispatch
      | _ => none
  | ("Bridge", p) =>
      match ← Json.parts? ["target", "timeout", "options"] p
        with
      | [target, timeout, options] =>
          return .bridge
            (← Json.given? Target.ofJson? target)
            (← Json.maybe? Json.word32? timeout)
            (← Json.maybe? Json.text? options)
      | _ => none
  | ("Goto", p) =>
      match ← Json.parts? ["block", "label", "tag"] p with
      | [block, label, tag] =>
          return .goto
            (← Json.given? Json.text? block)
            (← Json.given? Label.ofJson? label)
            (← Json.maybe? Tag.ofJson? tag)
      | _ => none
  | ("Hangup", p) =>
      match ← Json.parts? ["cause"] p with
      | [cause] =>
          (Json.maybe? Json.word32? cause).map .hangup
      | _ => none
  | _ => none

end Instr

------------------------------------------------------------
-- Scripts
------------------------------------------------------------

/- The data of a step. -/
def Step.toJson
    (s : Step) : Json :=
  .object
    [("label", s.label.toJson),
     ("tag", (s.tag.map Tag.toJson).getD .null),
     ("primitive", s.instr.toJson)]

/- Read a step. -/
def Step.ofJson?
    (j : Json) : Option Step := do
  match ← j.allFields? ["label", "tag", "primitive"] with
  | [label, tag, instr] =>
      return {
        label := ← Json.given? Label.ofJson? label
        tag := ← Json.maybe? Tag.ofJson? tag
        instr := ← Json.given? Instr.ofJson? instr }
  | _ => none

/- The data of a block. -/
def Block.toJson
    (b : Block) : Json :=
  .object
    [("index", .ofNat b.index),
     ("name", .string b.name),
     ("steps", .list (b.steps.map Step.toJson))]

/- Read a block. -/
def Block.ofJson?
    (j : Json) : Option Block := do
  match ← j.allFields? ["index", "name", "steps"] with
  | [index, name, steps] =>
      return {
        index := ← Json.given? (Json.natBelow? UInt64.size) index
        name := ← Json.given? Json.text? name
        steps :=
          ← Json.given? (Json.list? Step.ofJson?) steps }
  | _ => none

/- The data of a script. -/
def Script.toJson
    (s : Script) : Json :=
  .object
    [("flow_name", .string s.flowName),
     ("entry_extension", .string s.entryExtension),
     ("blocks", .list (s.blocks.map Block.toJson))]

/- Read a script. -/
def Script.ofJson?
    (j : Json) : Option Script := do
  match ← j.allFields?
    ["flow_name", "entry_extension", "blocks"] with
  | [flowName, entryExtension, blocks] =>
      return {
        flowName := ← Json.given? Json.text? flowName
        entryExtension :=
          ← Json.given? Json.text? entryExtension
        blocks :=
          ← Json.given? (Json.list? Block.ofJson?) blocks }
  | _ => none

end CallFlow
