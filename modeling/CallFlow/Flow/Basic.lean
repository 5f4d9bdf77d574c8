import CallFlow.Catalog.Check
import CallFlow.Key

/-
  This file defines flows: named trees of the steps that a
  call can go through.

  A node is stored under its id.  The link between a node
  and its parent is kept on both sides, and the type does
  not say that the two sides agree: a flow may be read from
  damaged data, and is then checked.

  Main declarations:
    * `Node`
    * `Flow`
    * `Flow.new`
    * `Flow.childIds`
    * `Flow.parentId?`
    * `Flow.childByKey?`
-/

namespace CallFlow

------------------------------------------------------------
-- Nodes and flows
------------------------------------------------------------

/- One step of a flow. -/
structure Node where
  kind : StepKind
  label : String
  settings : Settings
  key : Option Key
  parent : Option String
  children : List String
deriving DecidableEq

/-
  A flow.  `nextId` is the number that ids of new nodes are
  counted from, and `version` counts the committed edits.
-/
structure Flow where
  name : String
  rootId : String
  nodes : NameMap Node
  nextId : UInt64
  version : UInt64
deriving DecidableEq

namespace Node

/- A node without children, with the settings of its kind. -/
def fresh
    (kind : StepKind)
    (label : String)
    (key : Option Key)
    (parent : Option String) : Node :=
  ⟨kind, label, kind.initialSettings, key, parent, []⟩

/- Whether a node opens a menu of its own. -/
def opensMenu
    (n : Node) : Bool :=
  n.kind.branching && !n.children.isEmpty

end Node

namespace Flow

/- The id of the root of a new flow. -/
def firstRootId : String :=
  "root"

/- The label of the root of a new flow. -/
def firstRootLabel : String :=
  "Welcome Message"

/- The name of a flow that was given none. -/
def unnamed : String :=
  "main"

/- A flow that holds only a root, which plays audio. -/
def new
    (name : String) : Flow where
  name := name
  rootId := firstRootId
  nodes :=
    NameMap.empty.insert firstRootId
      (Node.fresh .playback firstRootLabel none none)
  nextId := 1
  version := 0

/- The number of nodes. -/
def size
    (t : Flow) : Nat :=
  t.nodes.size

/- The node with an id. -/
def get?
    (t : Flow)
    (id : String) : Option Node :=
  t.nodes.get? id

/- Whether a node has an id. -/
def contains
    (t : Flow)
    (id : String) : Bool :=
  t.nodes.contains id

/- The ids of the children of a node, in display order. -/
def childIds
    (t : Flow)
    (id : String) : List String :=
  match t.get? id with
  | some n => n.children
  | none => []

/- The id of the parent that a node names. -/
def parentId?
    (t : Flow)
    (id : String) : Option String :=
  (t.get? id).bind Node.parent

/- The children of a node that exist, in display order. -/
def existingChildIds
    (t : Flow)
    (id : String) : List String :=
  (t.childIds id).filter t.contains

/- Whether a node exists and is selected by a key. -/
def hasKey
    (t : Flow)
    (key : Option Key)
    (id : String) : Bool :=
  match t.get? id with
  | some n => n.key == key
  | none => false

/-
  The first child of a node that a key selects, other than
  one that is left out of account.  No key selects the
  fallback.
-/
def childByKeyExcept?
    (t : Flow)
    (parent : String)
    (key : Option Key)
    (ignored : Option String) : Option String :=
  (t.childIds parent).find? fun c =>
    some c != ignored && t.hasKey key c

/- The first child of a node that a key selects. -/
def childByKey?
    (t : Flow)
    (parent : String)
    (key : Option Key) : Option String :=
  t.childByKeyExcept? parent key none

end Flow

end CallFlow
