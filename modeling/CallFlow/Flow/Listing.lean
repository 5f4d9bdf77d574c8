import CallFlow.Flow.Basic

/-
  This file defines the lists of nodes that a flow is looked
  through by.

  Every walk ends on every flow, also on one whose links run
  in circles: a node is expanded once, and a chain of
  parents is followed for at most as many steps as there are
  nodes.

  Main declarations:
    * `Flow.walk`
    * `Flow.descendants`
    * `Flow.preorder`
    * `Flow.pathTo`
-/

namespace CallFlow

namespace Flow

------------------------------------------------------------
-- Downward
------------------------------------------------------------

/- The number of links from a parent to a child. -/
def linkCount
    (t : Flow) : Nat :=
  (t.nodes.entries.flatMap fun e => e.2.children).length

/-
  List ids in pre-order, each once, with those that are
  still to do in front.  The first argument bounds the
  number of turns.
-/
def walk
    (t : Flow) :
    Nat → List String → List String → List String
  | 0, _, _ => []
  | _, _, [] => []
  | turns + 1, seen, id :: rest =>
      if seen.contains id then walk t turns seen rest
      else
        id :: walk t turns (id :: seen) (t.childIds id ++ rest)

/-
  Some ids and everything below them, in pre-order.  Every
  link is followed at most once, which bounds the turns.
-/
def listing
    (t : Flow)
    (ids : List String) : List String :=
  t.walk (t.linkCount + ids.length) [] ids

/- Every id below a node, in pre-order. -/
def descendants
    (t : Flow)
    (id : String) : List String :=
  t.listing (t.childIds id)

/- The nodes that the root leads to, in pre-order. -/
def preorder
    (t : Flow) : List String :=
  (t.listing [t.rootId]).filter t.contains

------------------------------------------------------------
-- Upward
------------------------------------------------------------

/- The chain of parents of a node, nearest first. -/
def ancestorsWithin
    (t : Flow) : Nat → String → List String
  | 0, _ => []
  | steps + 1, id =>
      match t.parentId? id with
      | none => []
      | some p => p :: ancestorsWithin t steps p

/- The ids from the root down to a node. -/
def pathTo
    (t : Flow)
    (id : String) : List String :=
  (id :: t.ancestorsWithin t.size id).reverse

end Flow

end CallFlow
