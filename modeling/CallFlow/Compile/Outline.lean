import CallFlow.Flow.Check

/-
  This file defines the tree that a flow unfolds to, and the
  audio that its steps ask for.

  Main declarations:
    * `Outline`
    * `Outline.induct`
    * `Flow.outline?`
    * `Outline.emitted`
    * `Outline.requests`
-/

namespace CallFlow

------------------------------------------------------------
-- Outlines
------------------------------------------------------------

/- A node with its id and everything below it. -/
inductive Outline where
  | node
      (id : String)
      (step : Node)
      (children : List Outline)

namespace Outline

/- Induction over outlines, with every child at hand. -/
theorem induct
    {P : Outline → Prop}
    (node :
      ∀ id step children, (∀ c ∈ children, P c) →
        P (.node id step children))
    (o : Outline) : P o :=
  Outline.rec
    (motive_1 := P)
    (motive_2 := fun cs => ∀ c ∈ cs, P c)
    (fun id step cs h => node id step cs h)
    (fun _ h => absurd h List.not_mem_nil)
    (fun _ _ hHead hTail c h => by
      rcases List.mem_cons.mp h with h | h
      · exact h ▸ hHead
      · exact hTail c h)
    o

/- The key that selects a node among its siblings. -/
def key? : Outline → Option Key
  | node _ step _ => step.key

mutual

/-
  The nodes that a call can come to, in pre-order: nothing
  below a step that cannot branch.
-/
def emitted : Outline → List (String × Node)
  | node id step children =>
      (id, step) ::
        if step.kind.branching then emittedAll children
        else []

/- The nodes that a call can come to below a node. -/
def emittedAll : List Outline → List (String × Node)
  | [] => []
  | o :: os => emitted o ++ emittedAll os

end

end Outline

/- The outline of a node, down to some depth. -/
def Flow.outlineWithin?
    (t : Flow) : Nat → String → Option Outline
  | 0, _ => none
  | depth + 1, id =>
      (t.get? id).map fun n =>
        .node id n
          (n.children.filterMap (t.outlineWithin? depth))

/-
  The outline of a flow.  Without cycles no node lies deeper
  than there are nodes.
-/
def Flow.outline?
    (t : Flow) : Option Outline :=
  t.outlineWithin? t.size t.rootId

------------------------------------------------------------
-- Audio
------------------------------------------------------------

/- A parameter of a node that names audio. -/
structure AudioRequest where
  id : String
  step : Node
  param : String
  name : String

/- The audio that a node asks for. -/
def Node.requests
    (id : String)
    (n : Node) : List AudioRequest :=
  n.kind.audioParams.filterMap fun p =>
    (n.settings.text? p).map fun name => ⟨id, n, p, name⟩

/- The audio that all emitted nodes ask for. -/
def Outline.requests
    (o : Outline) : List AudioRequest :=
  o.emitted.flatMap fun e => e.2.requests e.1

/- The location of a sound, with what has asked for it. -/
structure Sound where
  id : String
  param : String
  location : String

/- The sounds of some requests that can be played. -/
def AudioRequest.sounds
    (r : Resolver)
    (asked : List AudioRequest) : List Sound :=
  asked.filterMap fun q =>
    match r q.name with
    | .ok location => some ⟨q.id, q.param, location⟩
    | .error _ => none

/- The problems with requests that cannot be played. -/
def AudioRequest.problems
    (r : Resolver)
    (asked : List AudioRequest) : List Problem :=
  asked.filterMap fun q =>
    match r q.name with
    | .ok _ => none
    | .error e =>
        some (.unresolvedAudio q.id q.step.kind q.step.label e)

/- The location of the sound for a parameter of a node. -/
def Sound.find?
    (sounds : List Sound)
    (id param : String) : Option String :=
  (sounds.find? fun s => s.id == id && s.param == param).map
    Sound.location

end CallFlow
