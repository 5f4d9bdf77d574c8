import CallFlow.Text.CaseTable
import CallFlow.Text.Class

/-
  This file defines the lower-case form of a text.

  Every character is replaced by its lower-case form.  The
  capital sigma becomes a final sigma at the end of a word,
  and the dotted capital `I` becomes `i` with a dot above.

  Main declarations:
    * `Text.lowerChar`
    * `Text.lower`
    * `Text.contextSlug`
    * `Text.uploadSlug`
-/

namespace CallFlow

namespace Text

------------------------------------------------------------
-- Letter case
------------------------------------------------------------

/- Whether a code point lies in one of some ranges. -/
def inRanges
    (ranges : List (Nat × Nat))
    (c : Char) : Bool :=
  ranges.any fun r => r.1 ≤ c.toNat && c.toNat ≤ r.2

/- The property Cased. -/
def isCased
    (c : Char) : Bool :=
  inRanges casedRanges c

/- The property Case_Ignorable. -/
def isIgnorable
    (c : Char) : Bool :=
  inRanges ignorableRanges c

/- Whether a run of the table holds a code point. -/
def CaseRun.holds
    (r : CaseRun)
    (n : Nat) : Bool :=
  r.first ≤ n && n ≤ r.last && (n - r.first) % r.step == 0

/- The lower-case form of a character on its own. -/
def lowerChar
    (c : Char) : Char :=
  match lowerRuns.find? fun r => r.holds c.toNat with
  | none => c
  | some r => Char.ofNat (c.toNat + r.shift).toNat

/-
  Whether the first character that is not ignorable exists
  and is cased.
-/
def meetsCased
    (cs : List Char) : Bool :=
  match cs.dropWhile isIgnorable with
  | [] => false
  | c :: _ => isCased c

/- The code point of the capital sigma. -/
def capitalSigma : Nat :=
  0x3a3

/-
  The lower-case form of a text, given the characters before
  it, nearest first.
-/
def lowerAfter
    (before : List Char) : List Char → List Char
  | [] => []
  | c :: rest =>
      let here :=
        if c.toNat = capitalSigma then
          if meetsCased before && !meetsCased rest
          then ['\u03c2'] else ['\u03c3']
        else if c.toNat = 0x130 then ['i', '\u0307']
        else [lowerChar c]
      here ++ lowerAfter (c :: before) rest

/- The lower-case form of a text. -/
def lower
    (cs : List Char) : List Char :=
  lowerAfter [] cs

------------------------------------------------------------
-- Names made from free text
------------------------------------------------------------

/-
  The name of a flow as part of the name of a block: its
  ASCII words in lower case, joined by dashes.
-/
def contextSlug
    (name : String) : String :=
  let ws := words (fun c => !c.isAlphanum) name.toList
  if ws.isEmpty then "flow"
  else dashed (ws.map fun w => w.map Char.toLower)

/-
  The name of an uploaded file as part of an audio name: its
  words in lower case, joined by dashes.
-/
def uploadSlug
    (name : String) : String :=
  dashed ((words isBlankChar name.toList).map lower)

end Text

end CallFlow
