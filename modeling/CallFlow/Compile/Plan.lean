import CallFlow.Compile.Emitter
import CallFlow.Compile.Options
import CallFlow.Compile.Outline

/-
  This file defines plans: what a caller meets in a flow.

  A plan knows actions, and where each key leads, and no
  ids, labels or display order.

  Main declarations:
    * `Plan`
    * `Plan.induct`
    * `Plan.inKeyOrder`
    * `Node.choices`
    * `Outline.plan`
-/

namespace CallFlow

------------------------------------------------------------
-- Plans
------------------------------------------------------------

/-
  What a caller meets: the action of a step that leads to no
  menu and may end the call, the action of a menu and its
  choices, or the way back to the first menu.  The choice
  without a key is the fallback.
-/
inductive Plan where
  | leaf (action : List Instr) (endsCall : Bool)
  | menu
      (action : List Instr)
      (choices : List (Option Key × Plan))
  | back

namespace Plan

/- Induction over plans, with every choice at hand. -/
theorem induct
    {P : Plan → Prop}
    (leaf : ∀ action endsCall, P (.leaf action endsCall))
    (menu :
      ∀ action choices, (∀ c ∈ choices, P c.2) →
        P (.menu action choices))
    (back : P .back)
    (p : Plan) : P p :=
  Plan.rec
    (motive_1 := P)
    (motive_2 := fun cs => ∀ c ∈ cs, P c.2)
    (motive_3 := fun c => P c.2)
    leaf
    (fun action cs h => menu action cs h)
    back
    (fun _ h => absurd h List.not_mem_nil)
    (fun _ _ hHead hTail c h => by
      rcases List.mem_cons.mp h with h | h
      · exact h ▸ hHead
      · exact hTail c h)
    (fun _ _ h => h)
    p

/- The place of a choice: keys first, then the fallback. -/
def choiceRank : Option Key → Nat
  | some k => k.rank
  | none => 12

/- Put a choice before those of the same or a later place. -/
def insertChoice
    {α : Type}
    (c : Option Key × α) :
    List (Option Key × α) → List (Option Key × α)
  | [] => [c]
  | d :: rest =>
      if choiceRank c.1 ≤ choiceRank d.1 then c :: d :: rest
      else d :: insertChoice c rest

/- Choices in key order, with the fallback last. -/
def inKeyOrder
    {α : Type} :
    List (Option Key × α) → List (Option Key × α)
  | [] => []
  | c :: rest => insertChoice c (inKeyOrder rest)

/- The choice that a plan which may fail leaves. -/
def settled
    (c : Option Key × Except CompileError Plan) :
    Except CompileError (Option Key × Plan) := do
  let p ← c.2
  return (c.1, p)

end Plan

------------------------------------------------------------
-- The plan of a flow
------------------------------------------------------------

/-
  The instructions of a node.  There may be no emitter for
  its kind.
-/
def Node.action
    (emitters : Emitters)
    (sounds : List Sound)
    (id : String)
    (n : Node) : Except CompileError (List Instr) :=
  match emitters.lookup n.kind with
  | none => .error (.unknownType id n.kind)
  | some emit =>
      (emit n (Sound.find? sounds id)).mapError
        (.missingParam id)

/-
  The choices of a menu with the way back, where the menu
  asks for one and the key is free.
-/
def Node.withReturn
    {α : Type}
    (n : Node)
    (returnKey : Key)
    (back : α)
    (choices : List (Option Key × α)) :
    List (Option Key × α) :=
  if n.kind.offersReturn n.settings &&
      !choices.any fun c => c.1 == some returnKey then
    choices ++ [(some returnKey, back)]
  else choices

/-
  The choices of a menu in key order, from those that its
  children make.  The first menu has no way back to itself.
-/
def Node.choices
    {α : Type}
    (n : Node)
    (returnKey : Key)
    (first : Bool)
    (back : α)
    (children : List (Option Key × α)) :
    List (Option Key × α) :=
  Plan.inKeyOrder
    (if first then children
    else n.withReturn returnKey back children)

namespace Outline

mutual

/-
  The plan of an outline.  Of the choices that cannot be
  planned the first one in key order is reported.
-/
def plan
    (emitters : Emitters)
    (sounds : List Sound)
    (returnKey : Key)
    (first : Bool) : Outline → Except CompileError Plan
  | node id step children => do
      let action ← step.action emitters sounds id
      if step.opensMenu then
        let planned :=
          planAll emitters sounds returnKey children
        let choices ←
          (step.choices returnKey first (.ok .back)
            planned).mapM Plan.settled
        return .menu action choices
      else
        return .leaf action
          (step.kind.endsCall step.settings)

/- What the children of a menu come to, in display order. -/
def planAll
    (emitters : Emitters)
    (sounds : List Sound)
    (returnKey : Key) :
    List Outline →
      List (Option Key × Except CompileError Plan)
  | [] => []
  | o :: os =>
      (o.key?, plan emitters sounds returnKey false o) ::
        planAll emitters sounds returnKey os

end

end Outline

end CallFlow
