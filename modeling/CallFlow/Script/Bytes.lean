import CallFlow.Bytes.Codec
import CallFlow.Script.Basic

/-
  This file defines the form of scripts as bytes.

  A record is its fields one after another, and a value of a
  type with cases is the number of its case and its parts.

  Main declarations:
    * `Codec.instr`
    * `Codec.script`
    * `Script.toBytes`
    * `Script.ofBytes?`
-/

namespace CallFlow

namespace Codec

------------------------------------------------------------
-- Labels, tags and targets
------------------------------------------------------------

/- Keys, as texts. -/
def key : Codec Key :=
  text.iso Key.text Key.ofText?

/- Labels. -/
def label : Codec Label where
  write
    | .entry => caseNumber.write 0
    | .digit k => caseNumber.write 1 ++ key.write k
    | .invalid => caseNumber.write 2
    | .timeout => caseNumber.write 3
  read bs := do
    let (n, rest) ← caseNumber.read bs
    match n with
    | 0 => some (.entry, rest)
    | 1 => key.readAs .digit rest
    | 2 => some (.invalid, rest)
    | 3 => some (.timeout, rest)
    | _ => none

/- Tags. -/
def tag : Codec Tag where
  write
    | .start => caseNumber.write 0
    | .collect => caseNumber.write 1
  read bs := do
    let (n, rest) ← caseNumber.read bs
    match n with
    | 0 => some (.start, rest)
    | 1 => some (.collect, rest)
    | _ => none

/- Targets. -/
def target : Codec Target where
  write
    | .queue name => caseNumber.write 0 ++ text.write name
    | .number technology destination =>
        caseNumber.write 1 ++
          (text.pair text).write (technology, destination)
  read bs := do
    let (n, rest) ← caseNumber.read bs
    match n with
    | 0 => text.readAs .queue rest
    | 1 =>
        (text.pair text).readAs
          (fun p => .number p.1 p.2) rest
    | _ => none

------------------------------------------------------------
-- Instructions
------------------------------------------------------------

/- The parts of an instruction that plays a sound. -/
def playParts :
    Codec (String × Bool × Option String) :=
  text.pair (bool.pair text.option)

/- The parts of an instruction that reads digits. -/
def readParts :
    Codec (String × Option String × UInt32 × UInt32) :=
  text.pair (text.option.pair (word32.pair word32))

/- The parts of an instruction that connects a call. -/
def bridgeParts :
    Codec (Target × Option UInt32 × Option String) :=
  target.pair (word32.option.pair text.option)

/- The parts of a jump. -/
def gotoParts : Codec (String × Label × Option Tag) :=
  text.pair (label.pair tag.option)

/- Write an instruction. -/
def writeInstr : Instr → List UInt8
  | .answer => caseNumber.write 0
  | .wait seconds =>
      caseNumber.write 1 ++ word32.write seconds
  | .play sound blocking options =>
      caseNumber.write 2 ++
        playParts.write (sound, blocking, options)
  | .waitForDigit timeout =>
      caseNumber.write 3 ++ word32.write timeout
  | .readDigits channelVar prompt maxDigits timeout =>
      caseNumber.write 4 ++
        readParts.write
          (channelVar, prompt, maxDigits, timeout)
  | .dispatch channelVar =>
      caseNumber.write 5 ++ text.write channelVar
  | .bridge target timeout options =>
      caseNumber.write 6 ++
        bridgeParts.write (target, timeout, options)
  | .goto block label tag =>
      caseNumber.write 7 ++
        gotoParts.write (block, label, tag)
  | .hangup cause =>
      caseNumber.write 8 ++ word32.option.write cause

/- Read an instruction. -/
def readInstr
    (bs : List UInt8) : Option (Instr × List UInt8) := do
  let (n, rest) ← caseNumber.read bs
  match n with
  | 0 => some (.answer, rest)
  | 1 => word32.readAs .wait rest
  | 2 =>
      playParts.readAs
        (fun p => .play p.1 p.2.1 p.2.2) rest
  | 3 => word32.readAs .waitForDigit rest
  | 4 =>
      readParts.readAs
        (fun p => .readDigits p.1 p.2.1 p.2.2.1 p.2.2.2)
        rest
  | 5 => text.readAs .dispatch rest
  | 6 =>
      bridgeParts.readAs
        (fun p => .bridge p.1 p.2.1 p.2.2) rest
  | 7 =>
      gotoParts.readAs
        (fun p => .goto p.1 p.2.1 p.2.2) rest
  | 8 => word32.option.readAs .hangup rest
  | _ => none

/- Instructions. -/
def instr : Codec Instr :=
  ⟨writeInstr, readInstr⟩

------------------------------------------------------------
-- Scripts
------------------------------------------------------------

/- Steps. -/
def step : Codec Step :=
  (label.pair (tag.option.pair instr)).iso
    (fun s => (s.label, s.tag, s.instr))
    (fun p => some ⟨p.1, p.2.1, p.2.2⟩)

/- Blocks. -/
def block : Codec Block :=
  (count.pair (text.pair step.list)).iso
    (fun b => (b.index, b.name, b.steps))
    (fun p => some ⟨p.1, p.2.1, p.2.2⟩)

/- Scripts. -/
def script : Codec Script :=
  (text.pair (text.pair block.list)).iso
    (fun s => (s.flowName, s.entryExtension, s.blocks))
    (fun p => some ⟨p.1, p.2.1, p.2.2⟩)

end Codec

namespace Script

/- The bytes of a script. -/
def toBytes
    (s : Script) : List UInt8 :=
  Codec.script.write s

/-
  The script that some bytes begin with.  What comes after
  it does not count.
-/
def ofBytes?
    (bs : List UInt8) : Option Script :=
  (Codec.script.read bs).map Prod.fst

end Script

end CallFlow
