import CallFlow.Key

/-
  This file defines scripts: what a telephone switch does
  with a call, as blocks of steps that are kept under labels.

  Main declarations:
    * `Label`
    * `Tag`
    * `Target`
    * `Instr`
    * `Step`
    * `Block`
    * `Script`
    * `Instr.endsLabel`
    * `Script.rows`
-/

namespace CallFlow

------------------------------------------------------------
-- Instructions
------------------------------------------------------------

/- What a step of a block is the answer to. -/
inductive Label where
  | entry
  | digit (k : Key)
  | invalid
  | timeout
deriving DecidableEq

/- The name of a label. -/
def Label.name : Label → String
  | entry => "entry"
  | digit k => k.text
  | invalid => "invalid"
  | timeout => "timeout"

/- A point at which a block can be entered again. -/
inductive Tag where
  | start
  | collect
deriving DecidableEq

/- The name of a tag. -/
def Tag.name : Tag → String
  | start => "start"
  | collect => "collect"

/- Whom a call is connected to. -/
inductive Target where
  | queue (name : String)
  | number (technology destination : String)
deriving DecidableEq

/-
  One instruction.  Sounds are given by their locations, and
  times in seconds.
-/
inductive Instr where
  | answer
  | wait (seconds : UInt32)
  | play
      (sound : String)
      (blocking : Bool)
      (options : Option String)
  | waitForDigit (timeout : UInt32)
  | readDigits
      (channelVar : String)
      (prompt : Option String)
      (maxDigits timeout : UInt32)
  | dispatch (channelVar : String)
  | bridge
      (target : Target)
      (timeout : Option UInt32)
      (options : Option String)
  | goto (block : String) (label : Label) (tag : Option Tag)
  | hangup (cause : Option UInt32)
deriving DecidableEq

/- A number as text, or an empty text. -/
def countText : Option UInt32 → String
  | some n => toString n.toNat
  | none => ""

/- The target of a bridge as one argument. -/
def Target.text : Target → String
  | queue name => "queue:" ++ name
  | number technology destination =>
      technology ++ "/" ++ destination

namespace Instr

/- The name of an instruction. -/
def name : Instr → String
  | answer => "answer"
  | wait _ => "wait"
  | play _ true _ => "play"
  | play _ false _ => "play-background"
  | waitForDigit _ => "wait-for-digit"
  | readDigits _ _ _ _ => "read-digits"
  | dispatch _ => "dispatch"
  | bridge _ _ _ => "bridge"
  | goto _ _ _ => "goto"
  | hangup _ => "hangup"

/- The arguments of an instruction as plain texts. -/
def arguments : Instr → List String
  | answer => []
  | wait seconds => [toString seconds.toNat]
  | play sound _ options => [sound, options.getD ""]
  | waitForDigit timeout => [toString timeout.toNat]
  | readDigits channelVar prompt maxDigits timeout =>
      [channelVar, prompt.getD "", toString maxDigits.toNat,
        toString timeout.toNat]
  | dispatch channelVar => [channelVar]
  | bridge target timeout options =>
      [target.text, countText timeout, options.getD ""]
  | goto block label tag =>
      [block, label.name, (tag.map Tag.name).getD ""]
  | hangup cause => [countText cause]

/- Whether nothing under a label follows an instruction. -/
def endsLabel : Instr → Bool
  | hangup _ => true
  | goto _ _ _ => true
  | dispatch _ => true
  | bridge _ _ _ => true
  | _ => false

end Instr

------------------------------------------------------------
-- Scripts
------------------------------------------------------------

/- An instruction in its place. -/
structure Step where
  label : Label
  tag : Option Tag
  instr : Instr
deriving DecidableEq

/- A named group of steps. -/
structure Block where
  index : Nat
  name : String
  steps : List Step
deriving DecidableEq

/-
  A script.  Every block is entered at the same extension.
-/
structure Script where
  flowName : String
  entryExtension : String
  blocks : List Block
deriving DecidableEq

namespace Block

/- The steps under a label, in order. -/
def stepsUnder
    (b : Block)
    (l : Label) : List Step :=
  b.steps.filter fun s => s.label == l

/- The labels in the order in which they first come. -/
def labels
    (b : Block) : List Label :=
  (b.steps.map Step.label).eraseDups

/- The last instruction under a label. -/
def lastUnder?
    (b : Block)
    (l : Label) : Option Instr :=
  (b.stepsUnder l).getLast?.map Step.instr

end Block

/- A step of a script as it is listed. -/
structure Row where
  block : String
  label : Label
  instr : String
  arguments : List String
deriving DecidableEq

namespace Script

/- The first block with a name. -/
def block?
    (s : Script)
    (name : String) : Option Block :=
  s.blocks.find? fun b => b.name == name

/- The block in which every call starts. -/
def entryBlock?
    (s : Script) : Option Block :=
  s.blocks.head?

/- Every step, block by block. -/
def rows
    (s : Script) : List Row :=
  s.blocks.flatMap fun b =>
    b.steps.map fun st =>
      ⟨b.name, st.label, st.instr.name, st.instr.arguments⟩

end Script

end CallFlow
