import CallFlow.Flow.Edit

/-
  This file defines edits as values, and how they are
  submitted to a flow.

  Main declarations:
    * `Edit`
    * `Flow.apply`
    * `Flow.applyAt`
    * `Flow.submit`
-/

namespace CallFlow

/- One edit. -/
inductive Edit where
  | add
      (parent : String)
      (kind : StepKind)
      (label : String)
      (key : Option Key)
  | update (id : String) (patch : Patch)
  | move (id newParent : String)
  | delete (id : String)
deriving DecidableEq

namespace Flow

/- The flow after an edit, with the id of an added node. -/
def apply
    (t : Flow) :
    Edit → Except EditFailure (Flow × Option String)
  | .add parent kind label key => do
      let (t', id) ← t.add parent kind label key
      return (t', some id)
  | .update id patch => do
      return (← t.update id patch, none)
  | .move id newParent => do
      return (← t.move id newParent, none)
  | .delete id => do
      let (t', _) ← t.delete id
      return (t', none)

/- Apply an edit if the flow is still at a version. -/
def applyAt
    (t : Flow)
    (expected : UInt64)
    (e : Edit) : Except EditFailure (Flow × Option String) :=
  if expected = t.version then t.apply e
  else .error (.rejected (.staleVersion expected t.version))

/-
  The flow that is left where an edit was made.  Nothing was
  written if it was rejected, and if it stopped the nodes
  were.
-/
def left
    (t : Flow) : Except EditFailure Flow → Flow
  | .ok t' => t'
  | .error (.rejected _) => t
  | .error (.stopped written) => written

/- The flow after an edit that is made where it stands. -/
def submit
    (t : Flow)
    (e : Edit) : Flow :=
  t.left ((t.apply e).map Prod.fst)

end Flow

end CallFlow
