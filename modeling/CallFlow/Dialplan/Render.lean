import CallFlow.Dialplan.Call
import CallFlow.Script.Basic

/-
  This file defines the text of a script in a dialplan.

  A block becomes a context, a run of steps under one label
  becomes an extension, and a step becomes a line.  The text
  depends on the script alone.

  Main declarations:
    * `Dialplan.extension`
    * `Dialplan.arguments`
    * `Dialplan.application`
    * `Dialplan.runs`
    * `Block.lines`
    * `Script.lines`
    * `Script.render`
-/

namespace CallFlow

namespace Dialplan

------------------------------------------------------------
-- Applications
------------------------------------------------------------

/- The extension of a label, given that of the entry. -/
def extension
    (entry : String) : Label → String
  | .entry => entry
  | .digit k => k.text
  | .invalid => "i"
  | .timeout => "t"

/- The value of a variable, between two texts. -/
def valueOf
    (channelVar : String) : String :=
  "$\x7b" ++ channelVar ++ "\x7d"

/-
  A jump to the extension that a variable holds, or to the
  timeout extension where it holds nothing.
-/
def dispatchCall
    (channelVar : String) : String :=
  "Goto($\x7bIF($[\"" ++ valueOf channelVar ++ "\" = \"\"]?t:" ++
    valueOf channelVar ++ ")\x7d,1)"

/- The call that carries out an instruction. -/
def application
    (entry : String) : Instr → String
  | .answer => "Answer()"
  | .wait seconds => call "Wait" [toString seconds.toNat]
  | .play sound blocking options =>
      call (if blocking then "Playback" else "Background")
        [escape sound, escape? options]
  | .waitForDigit timeout =>
      call "WaitExten" [toString timeout.toNat]
  | .readDigits channelVar prompt maxDigits timeout =>
      call "Read"
        [escape channelVar, escape? prompt,
          toString maxDigits.toNat, "", "",
          toString timeout.toNat]
  | .dispatch channelVar => dispatchCall (escape channelVar)
  | .bridge (.queue name) timeout options =>
      call "Queue"
        [escape name, escape? options, "", "",
          countText timeout]
  | .bridge (.number technology destination) timeout
      options =>
      call "Dial"
        [escape technology ++ "/" ++ escape destination,
          countText timeout, escape? options]
  | .goto block label tag =>
      "Goto(" ++ escape block ++ "," ++
        extension entry label ++ "," ++
        (tag.map Tag.name).getD "1" ++ ")"
  | .hangup cause => call "Hangup" [countText cause]

------------------------------------------------------------
-- Lines
------------------------------------------------------------

/- The mark of a tag behind a priority. -/
def tagMark : Option Tag → String
  | some t => "(" ++ t.name ++ ")"
  | none => ""

/- The line of a step that starts an extension. -/
def firstLine
    (entry : String)
    (s : Step) : String :=
  "exten => " ++ extension entry s.label ++ ",1" ++
    tagMark s.tag ++ "," ++ application entry s.instr

/- The line of a step that continues an extension. -/
def nextLine
    (entry : String)
    (s : Step) : String :=
  " same => n" ++ tagMark s.tag ++ "," ++
    application entry s.instr

/-
  The lines of some steps after a step with a given label.
  An empty line stands before every further extension.
-/
def linesAfter
    (entry : String)
    (before : Label) : List Step → List String
  | [] => []
  | s :: rest =>
      if s.label = before then
        nextLine entry s :: linesAfter entry s.label rest
      else
        "" :: firstLine entry s ::
          linesAfter entry s.label rest

/- The lines of the steps of a block. -/
def stepLines
    (entry : String) : List Step → List String
  | [] => []
  | s :: rest =>
      firstLine entry s :: linesAfter entry s.label rest

end Dialplan

/- The lines of a block, after an empty one. -/
def Block.lines
    (b : Block)
    (entry : String) : List String :=
  "" :: ("[" ++ Text.onOneLine b.name ++ "]") ::
    Dialplan.stepLines entry b.steps

namespace Script

/- The first line of every dialplan. -/
def headLine
    (s : Script) : String :=
  "; Generated by ivrflow for flow '" ++
    Text.onOneLine s.flowName ++ "'"

/- The lines of a script. -/
def lines
    (s : Script) : List String :=
  s.headLine ::
    s.blocks.flatMap fun b =>
      b.lines (Dialplan.escape s.entryExtension)

/- The text of a script, every line being ended. -/
def render
    (s : Script) : String :=
  String.join (s.lines.map fun l => l ++ "\n")

end Script

end CallFlow
