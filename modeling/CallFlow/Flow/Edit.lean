import CallFlow.Flow.Listing

/-
  This file defines the edits of a flow.

  An edit is checked before anything changes, so a rejected
  one leaves the flow as it is.  One that passes the checks
  writes the nodes and then advances the version by one.
  After the last version there is none to advance to, and
  the edit stops there, with the nodes written.

  Main declarations:
    * `EditError`
    * `EditFailure`
    * `Patch`
    * `Flow.node`
    * `Flow.descendantsOf`
    * `Flow.freshId?`
    * `Flow.commit`
    * `Flow.add`
    * `Flow.update`
    * `Flow.move`
    * `Flow.delete`
-/

namespace CallFlow

------------------------------------------------------------
-- Rejected edits
------------------------------------------------------------

/- Why an edit is rejected. -/
inductive EditError where
  | nodeNotFound (id : String)
  | duplicateKey (parent : String) (key : Key)
  | duplicateFallback (parent : String)
  | wouldCycle (node newParent : String)
  | cannotDeleteRoot (id : String)
  | cannotMoveRoot (id : String)
  | rootKey (id : String)
  | param (e : ParamError)
  | idsExhausted (flow : String)
  | staleVersion (expected actual : UInt64)
deriving DecidableEq

namespace EditError

/- What is said of a rejected edit. -/
def message : EditError → String
  | nodeNotFound id =>
      "Node '" ++ id ++ "' does not exist in this flow"
  | duplicateKey parent key =>
      "Node '" ++ parent ++
        "' already has a child selected by key '" ++
        key.text ++ "'"
  | duplicateFallback parent =>
      "Node '" ++ parent ++
        "' already has a keyless fallback child"
  | wouldCycle node newParent =>
      "Moving node '" ++ node ++ "' under '" ++ newParent ++
        "' would make it its own ancestor"
  | cannotDeleteRoot id =>
      "The root node '" ++ id ++ "' cannot be deleted"
  | cannotMoveRoot id =>
      "The root node '" ++ id ++ "' cannot be reparented"
  | rootKey id =>
      "The root node '" ++ id ++ "' cannot carry a DTMF key"
  | param e => e.message
  | idsExhausted flow =>
      "Flow '" ++ flow ++ "' has no node ids left to allocate"
  | staleVersion expected actual =>
      "Flow was modified concurrently: expected version " ++
        toString expected.toNat ++ ", found " ++
        toString actual.toNat

end EditError

/-
  Why an edit fails.  One that is rejected has written
  nothing.  One that stops has written a flow that its
  version does not count.
-/
inductive EditFailure where
  | rejected (e : EditError)
  | stopped (written : Flow)
deriving DecidableEq

------------------------------------------------------------
-- Patches
------------------------------------------------------------

/-
  A partial change of a node.  A setting without a value is
  removed.  Changing the kind first resets the settings to
  those of a new node.
-/
structure Patch where
  label : Option String
  kind : Option StepKind
  settings : NameMap (Option Value)
  key : Option (Option Key)
deriving DecidableEq

namespace Patch

/- The patch that changes nothing. -/
def empty : Patch :=
  ⟨none, none, .empty, none⟩

/- Whether a patch says nothing at all. -/
def isEmpty
    (p : Patch) : Bool :=
  p.label.isNone && p.kind.isNone &&
    p.settings.entries.isEmpty && p.key.isNone

end Patch

/- Change one setting of a step of a kind. -/
def StepKind.change
    (k : StepKind)
    (s : Settings)
    (entry : String × Option Value) :
    Except ParamError Settings :=
  match entry.2 with
  | some v => do
      k.check entry.1 v
      return s.insert entry.1 v
  | none =>
      if (k.param? entry.1).isSome then
        return s.erase entry.1
      else .error (.unknown k entry.1)

/- Change settings of a step of a kind, in name order. -/
def StepKind.changeAll
    (k : StepKind)
    (s : Settings)
    (changes : NameMap (Option Value)) :
    Except ParamError Settings :=
  changes.entries.foldlM k.change s

namespace Flow

------------------------------------------------------------
-- Parts of edits
------------------------------------------------------------

/- The node with an id that has to exist. -/
def node
    (t : Flow)
    (id : String) : Except EditError Node :=
  match t.get? id with
  | some n => .ok n
  | none => .error (.nodeNotFound id)

/- A list of ids at a node that has to exist. -/
def listAt
    (t : Flow)
    (list : Flow → String → List String)
    (id : String) : Except EditError (List String) := do
  let _ ← t.node id
  return list t id

/- The children of a node that exist. -/
def childrenOf
    (t : Flow)
    (id : String) : Except EditError (List String) :=
  t.listAt existingChildIds id

/- The ids below a node. -/
def descendantsOf
    (t : Flow)
    (id : String) : Except EditError (List String) :=
  t.listAt descendants id

/- The ids from the root down to a node. -/
def pathOf
    (t : Flow)
    (id : String) : Except EditError (List String) :=
  t.listAt pathTo id

/-
  Check that a key is free among the children of a node,
  apart from one child.
-/
def checkKey
    (t : Flow)
    (parent : String)
    (key : Option Key)
    (ignored : Option String) : Except EditError Unit :=
  match t.childByKeyExcept? parent key ignored, key with
  | none, _ => .ok ()
  | some _, some k => .error (.duplicateKey parent k)
  | some _, none => .error (.duplicateFallback parent)

/- The id with a number. -/
def numberedId
    (n : UInt64) : String :=
  "n" ++ toString n.toNat

/-
  The first unused id from a number on, with the number
  after it.  The last number of all is not used.
-/
def freshIdFrom?
    (t : Flow) : Nat → UInt64 → Option (String × UInt64)
  | 0, _ => none
  | turns + 1, n =>
      if n.toNat + 1 < UInt64.size then
        if t.contains (numberedId n) then
          freshIdFrom? t turns (n + 1)
        else some (numberedId n, n + 1)
      else none

/-
  The id of the next new node.  One of the next ids is
  unused, as there is one more of them than nodes.
-/
def freshId?
    (t : Flow) : Option (String × UInt64) :=
  t.freshIdFrom? (t.size + 1) t.nextId

/- There is a version after the one of a flow. -/
def HasNext
    (t : Flow) : Prop :=
  t.version.toNat + 1 < UInt64.size

instance (t : Flow) : Decidable t.HasNext :=
  inferInstanceAs (Decidable (_ < _))

/-
  Advance the version of a flow that has been written.  It
  cannot be advanced from the last one.
-/
def commit
    (written : Flow) : Except EditFailure Flow :=
  if written.HasNext then
    .ok { written with version := written.version + 1 }
  else .error (.stopped written)

/- Append a child to the list of a node. -/
def linkChild
    (nodes : NameMap Node)
    (parent child : String) : NameMap Node :=
  nodes.modify parent fun n =>
    { n with children := n.children ++ [child] }

/- Remove a child from the list of a node. -/
def unlinkChild
    (nodes : NameMap Node)
    (parent child : String) : NameMap Node :=
  nodes.modify parent fun n =>
    { n with children := n.children.filter (· != child) }

/- Remove a child from the list of its parent, if any. -/
def unlinkFrom?
    (nodes : NameMap Node)
    (parent : Option String)
    (child : String) : NameMap Node :=
  match parent with
  | some p => unlinkChild nodes p child
  | none => nodes

------------------------------------------------------------
-- What Edits Write
------------------------------------------------------------

/- Append a new node to the children of a node. -/
def added
    (t : Flow)
    (parent : String)
    (kind : StepKind)
    (label : String)
    (key : Option Key) :
    Except EditError (Flow × String) := do
  let _ ← t.node parent
  t.checkKey parent key none
  match t.freshId? with
  | none => .error (.idsExhausted t.name)
  | some (id, next) =>
      let nodes :=
        t.nodes.insert id
          (Node.fresh kind label key (some parent))
      let t' := { t with nodes := linkChild nodes parent id }
      return ({ t' with nextId := next }, id)

/- The key of a node after a patch. -/
def patchedKey
    (t : Flow)
    (id : String)
    (n : Node)
    (change : Option (Option Key)) :
    Except EditError (Option Key) :=
  match change with
  | none => .ok n.key
  | some key =>
      if key = n.key then .ok n.key
      else
        match n.parent with
        | none =>
            if key.isSome then .error (.rootKey id)
            else .ok key
        | some parent => do
            t.checkKey parent key (some id)
            return key

/- The settings of a node after a patch. -/
def patchedSettings
    (n : Node)
    (p : Patch) : Except EditError Settings :=
  let kind := p.kind.getD n.kind
  let before :=
    if kind = n.kind then n.settings
    else kind.initialSettings
  (kind.changeAll before p.settings).mapError .param

/- Change a node. -/
def updated
    (t : Flow)
    (id : String)
    (p : Patch) : Except EditError Flow := do
  let n ← t.node id
  let settings ← patchedSettings n p
  let key ← t.patchedKey id n p.key
  let changed :=
    { n with
      kind := p.kind.getD n.kind
      label := p.label.getD n.label
      settings := settings
      key := key }
  return { t with nodes := t.nodes.insert id changed }

/-
  Move a node, with everything below it, to the end of the
  children of another.  Nothing is written if that is its
  parent already.
-/
def moved
    (t : Flow)
    (id newParent : String) :
    Except EditError (Option Flow) := do
  let n ← t.node id
  if id = t.rootId then .error (.cannotMoveRoot id)
  else
    let _ ← t.node newParent
    if id = newParent ∨ newParent ∈ t.descendants id then
      .error (.wouldCycle id newParent)
    else if n.parent = some newParent then return none
    else
      t.checkKey newParent n.key (some id)
      let linked :=
        linkChild (unlinkFrom? t.nodes n.parent id)
          newParent id
      return some
        { t with
          nodes :=
            linked.modify id fun n =>
              { n with parent := some newParent } }

/- Delete a node and everything below it. -/
def deleted
    (t : Flow)
    (id : String) :
    Except EditError (Flow × List String) := do
  let n ← t.node id
  if id = t.rootId then .error (.cannotDeleteRoot id)
  else
    let removed := id :: t.descendants id
    let left := unlinkFrom? t.nodes n.parent id
    return ({ t with nodes := left.eraseAll removed }, removed)

------------------------------------------------------------
-- Edits
------------------------------------------------------------

/- Append a new node to the children of a node. -/
def add
    (t : Flow)
    (parent : String)
    (kind : StepKind)
    (label : String)
    (key : Option Key) :
    Except EditFailure (Flow × String) := do
  let (written, id) ←
    (t.added parent kind label key).mapError .rejected
  return (← written.commit, id)

/- Change a node. -/
def update
    (t : Flow)
    (id : String)
    (p : Patch) : Except EditFailure Flow := do
  let written ← (t.updated id p).mapError .rejected
  written.commit

/-
  Move a node, with everything below it, to the end of the
  children of another.  Under its own parent it stays where
  it is.
-/
def move
    (t : Flow)
    (id newParent : String) : Except EditFailure Flow := do
  match ← (t.moved id newParent).mapError .rejected with
  | some written => written.commit
  | none => return t

/- Delete a node and everything below it. -/
def delete
    (t : Flow)
    (id : String) :
    Except EditFailure (Flow × List String) := do
  let (written, removed) ←
    (t.deleted id).mapError .rejected
  return (← written.commit, removed)

end Flow

end CallFlow
