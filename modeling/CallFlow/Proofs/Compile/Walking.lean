import CallFlow.Compile.Outline
import CallFlow.Compile.Emitter
import CallFlow.Compile.Options
import CallFlow.Proofs.Script.Running

/-
  What a caller meets on the way through a flow.

  The caller goes from node to node.  Each node performs its
  action when it is come to, with the sounds that its own
  settings name.  A menu then waits for the caller, and a
  node that is no menu ends the call or leads back to the
  root.

  Main declarations:
    * `Node.instrs`
    * `Flow.Route`
    * `Flow.route`
    * `Flow.serve`
    * `Flow.course`
-/

namespace CallFlow

namespace Node

/- The location of the sound that a setting names. -/
def sound?
    (r : Resolver)
    (n : Node)
    (param : String) : Option String :=
  (n.settings.text? param).bind fun name => (r name).toOption

/- What a node does; nothing if its settings do not do. -/
def instrs
    (r : Resolver)
    (n : Node) : List Instr :=
  match Emitter.standard n.kind n (n.sound? r) with
  | .ok action => action
  | .error _ => []

end Node

namespace Flow

------------------------------------------------------------
-- Nodes on the Way
------------------------------------------------------------

/- What the node with an id does. -/
def instrs
    (t : Flow)
    (r : Resolver)
    (id : String) : List Instr :=
  match t.get? id with
  | some n => n.instrs r
  | none => []

/- Whether a node opens a menu of its own. -/
def opensMenu
    (t : Flow)
    (id : String) : Bool :=
  match t.get? id with
  | some n => n.opensMenu
  | none => false

/- Whether a node that opens no menu ends the call. -/
def endsCall
    (t : Flow)
    (id : String) : Bool :=
  match t.get? id with
  | some n => n.kind.endsCall n.settings
  | none => false

/- Whether a menu offers a way back to the root. -/
def offersReturn
    (t : Flow)
    (id : String) : Bool :=
  match t.get? id with
  | some n => n.kind.offersReturn n.settings
  | none => false

------------------------------------------------------------
-- Ways
------------------------------------------------------------

/- Where a menu leads: to a child, to the root, or nowhere. -/
inductive Route where
  | child (id : String)
  | root
  | again
deriving DecidableEq

/- Where a menu leads for a choice that it does not have. -/
def fallbackRoute
    (t : Flow)
    (menu : String) : Route :=
  match t.childByKey? menu none with
  | some c => .child c
  | none => .again

/-
  Where a menu leads.  A key selects the child that has it,
  then the way back to the root where the menu offers one on
  this key, then the child without a key.  Without input the
  menu starts again.
-/
def route
    (t : Flow)
    (o : Options)
    (menu : String) : CallEvent → Route
  | .key k =>
      match t.childByKey? menu (some k) with
      | some c => .child c
      | none =>
          if menu ≠ t.rootId ∧ t.offersReturn menu = true ∧
              k = o.returnKey then .root
          else t.fallbackRoute menu
  | .other => t.fallbackRoute menu
  | .silence => .again

/- The course of a call that waits at a menu. -/
def serve
    (t : Flow)
    (o : Options)
    (r : Resolver) : String → List CallEvent → Course
  | _, [] => ⟨[], .waiting⟩
  | menu, e :: events =>
      match t.route o menu e with
      | .again =>
          perform (t.instrs r menu) (serve t o r menu events)
      | .root =>
          perform (t.instrs r t.rootId)
            (serve t o r t.rootId events)
      | .child c =>
          perform (t.instrs r c)
            (if t.opensMenu c then serve t o r c events
            else if t.endsCall c then
              ⟨[.hangup none], .over⟩
            else
              perform (t.instrs r t.rootId)
                (serve t o r t.rootId events))

/-
  The course of a whole call: it is answered once, and comes
  to the root, which is a menu or ends the call.
-/
def course
    (t : Flow)
    (o : Options)
    (r : Resolver)
    (events : List CallEvent) : Course :=
  perform
    (.answer ::
      match o.answerWait with
      | some seconds => [.wait seconds]
      | none => [])
    (perform (t.instrs r t.rootId)
      (if t.opensMenu t.rootId then
        serve t o r t.rootId events
      else ⟨[.hangup none], .over⟩))

end Flow

end CallFlow
