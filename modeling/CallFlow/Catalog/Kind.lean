/-
  This file defines the kinds of steps a flow is made of.

  Main declarations:
    * `StepKind`
    * `StepKind.all`
    * `StepKind.name`
    * `StepKind.aliases`
    * `StepKind.ofName?`
-/

namespace CallFlow

------------------------------------------------------------
-- Kinds of steps
------------------------------------------------------------

/- What a step of a flow does with the caller. -/
inductive StepKind where
  | playback
  | background
  | collect
  | agent
  | number
  | hangup
deriving DecidableEq, Repr

namespace StepKind

/- Every kind, in the order of the catalog. -/
def all : List StepKind :=
  [playback, background, collect, agent, number, hangup]

/- The name of a kind. -/
def name : StepKind → String
  | playback => "Playback"
  | background => "PlaybackBackground"
  | collect => "CollectDigits"
  | agent => "AgentTransfer"
  | number => "NumberTransfer"
  | hangup => "Hangup"

/- Older names of a kind, which are still read. -/
def aliases : StepKind → List String
  | playback => ["PlayAudio"]
  | background => ["PlayAudioBackground"]
  | collect => ["PlaySoundWithDTMFAccept"]
  | agent => []
  | number => ["Transfer"]
  | hangup => ["HangUp"]

/- The kind that a name or an older name stands for. -/
def ofName?
    (s : String) : Option StepKind :=
  all.find? fun k => k.name == s || k.aliases.contains s

/- What is said of a name that no kind has. -/
def rejection
    (s : String) : String :=
  "Unknown node type '" ++ s ++ "'"

/- Every kind is in the list of all kinds. -/
theorem mem_all
    (k : StepKind) : k ∈ all := by
  cases k <;> simp [all]

/- Reading the name of a kind gives the kind back. -/
theorem ofName?_name
    (k : StepKind) : ofName? k.name = some k := by
  cases k <;> decide +kernel

end StepKind

end CallFlow
