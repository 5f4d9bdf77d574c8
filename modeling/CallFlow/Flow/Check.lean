import CallFlow.Flow.Listing
import CallFlow.Flow.Problem

/-
  This file defines the check of a flow.

  Every part of the check looks at the whole flow, whatever
  the other parts have found, and goes through the nodes in
  the order of their ids.

  Main declarations:
    * `Flow.rootProblems`
    * `Flow.linkProblems`
    * `Flow.cycleProblems`
    * `Flow.reachProblems`
    * `Flow.keyProblems`
    * `Flow.paramProblems`
    * `Flow.leafProblems`
    * `Flow.problems`
    * `Flow.findings`
-/

namespace CallFlow

/- Some names in order, each once. -/
def inNameOrder
    (names : List String) : List String :=
  (NameMap.ofList (names.map fun n => (n, ()))).names

namespace Flow

------------------------------------------------------------
-- Roots and links
------------------------------------------------------------

/- The designated root exists and is the only root. -/
def rootProblems
    (t : Flow) : List Problem :=
  let designated :=
    match t.get? t.rootId with
    | none => [.rootMissing t.rootId]
    | some root =>
        match root.parent with
        | some p => [.rootHasParent t.rootId p]
        | none => []
  let others :=
    t.nodes.names.filter fun id =>
      (t.parentId? id).isNone && id != t.rootId
  designated ++
    if others.isEmpty then [] else [.multipleRoots others]

/- The parent of a node exists and lists it. -/
def parentProblems
    (t : Flow)
    (id : String)
    (n : Node) : List Problem :=
  match n.parent with
  | none => []
  | some p =>
      match t.get? p with
      | none => [.danglingParent id p]
      | some parent =>
          if parent.children.contains id then []
          else [.notListed p id]

/- A child exists, names its parent, and is listed once. -/
def childProblems
    (t : Flow)
    (id : String)
    (n : Node)
    (child : String) : List Problem :=
  match t.get? child with
  | none => [.danglingChild id child]
  | some c =>
      if c.parent != some id then [.foreignChild id child]
      else if 1 < n.children.count child then
        [.repeatedChild id child (n.children.count child)]
      else []

/- Links between parents and children agree. -/
def linkProblems
    (t : Flow) : List Problem :=
  t.nodes.entries.flatMap fun e =>
    t.parentProblems e.1 e.2 ++
      (inNameOrder e.2.children).flatMap
        (t.childProblems e.1 e.2)

------------------------------------------------------------
-- Cycles and reach
------------------------------------------------------------

/-
  Follow the chain of parents until it ends or comes back to
  an id on the path, latest first, and give the ids between.
-/
def loopWithin?
    (t : Flow) :
    Nat → List String → String → Option (List String)
  | 0, _, _ => none
  | steps + 1, path, id =>
      if path.contains id then
        some (id :: path.takeWhile (· != id))
      else
        match t.parentId? id with
        | none => none
        | some p => loopWithin? t steps (id :: path) p

/-
  The ids of the cycle that a chain of parents runs into, in
  order.  All but the last id of a chain are nodes, so one
  comes back within two more steps than there are nodes.
-/
def loop?
    (t : Flow)
    (id : String) : Option (List String) :=
  (t.loopWithin? (t.size + 2) [] id).map inNameOrder

/- No node is its own ancestor; each cycle counts once. -/
def cycleProblems
    (t : Flow) : List Problem :=
  (t.nodes.names.filterMap t.loop?).eraseDups.map .cycle

/- The root, if it exists, leads to every node. -/
def reachProblems
    (t : Flow) : List Problem :=
  if t.contains t.rootId then
    let reached := t.preorder
    (t.nodes.names.filter fun id =>
      !reached.contains id).map .unreachable
  else []

------------------------------------------------------------
-- Keys
------------------------------------------------------------

/- The problem of children that share a key. -/
def sharedKey
    (parent : String)
    (children : List String) : Option Key → Problem
  | some k => .duplicateKey parent k children
  | none => .duplicateFallback parent children

/- No two children of a node share a key. -/
def siblingProblems
    (t : Flow)
    (parent : String) : List Problem :=
  (none :: Key.all.map some).flatMap fun key =>
    let sharing :=
      (t.childIds parent).filter (t.hasKey key)
    if 2 ≤ sharing.length then
      [sharedKey parent sharing key]
    else []

/- The root has no key, and siblings have distinct ones. -/
def keyProblems
    (t : Flow) : List Problem :=
  let root :=
    match (t.get? t.rootId).bind Node.key with
    | some key => [.rootKey t.rootId key]
    | none => []
  root ++ t.nodes.names.flatMap t.siblingProblems

------------------------------------------------------------
-- Parameters and leaves
------------------------------------------------------------

/- The settings of a node that could not be written. -/
def settingProblems
    (id : String)
    (n : Node) : List Problem :=
  n.settings.entries.filterMap fun e =>
    match n.kind.check e.1 e.2 with
    | .ok () => none
    | .error err => some (.param id err)

/- Settings fit the catalog, and required ones are given. -/
def paramProblems
    (t : Flow) : List Problem :=
  t.nodes.entries.flatMap fun e =>
    settingProblems e.1 e.2 ++
      (e.2.kind.missingParams e.2.settings).map
        (.missingParam e.1 e.2.kind e.2.label)

/- Steps that end the call have no children. -/
def leafProblems
    (t : Flow) : List Problem :=
  t.nodes.entries.filterMap fun e =>
    if !e.2.kind.branching && !e.2.children.isEmpty then
      some (.leafWithChildren e.1 e.2.kind
        e.2.children.length)
    else none

------------------------------------------------------------
-- The whole check
------------------------------------------------------------

/- Everything that is wrong with a flow. -/
def problems
    (t : Flow) : List Problem :=
  t.rootProblems ++ t.linkProblems ++ t.cycleProblems ++
    t.reachProblems ++ t.keyProblems ++ t.paramProblems ++
    t.leafProblems

/- The findings about a flow. -/
def findings
    (t : Flow) : List Finding :=
  t.problems.map Problem.finding

end Flow

end CallFlow
