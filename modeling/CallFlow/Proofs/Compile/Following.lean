import CallFlow.Proofs.Compile.PlanWalk
import CallFlow.Proofs.Compile.Walking

/-
  A plan that follows a flow serves every call as the flow
  does.

  The plan of a node performs what the node does.  If the
  node opens a menu, the plan has a choice for every child
  that a key selects, which follows the flow from the child
  on, and the way back on the key that the menu offers it
  on.

  Main declarations:
    * `Flow.Follows`
    * `Flow.Follows.answers_route`
    * `Flow.Follows.serve_eq`
    * `Flow.Follows.course_eq`
-/

namespace CallFlow

namespace Flow

------------------------------------------------------------
-- Plans That Follow a Flow
------------------------------------------------------------

/- Whether a menu leads back to the root on a key. -/
def returnsOn
    (t : Flow)
    (o : Options)
    (menu : String)
    (key : Option Key) : Bool :=
  menu != t.rootId && t.offersReturn menu &&
    key == some o.returnKey

theorem returnsOn_iff
    {t : Flow}
    {o : Options}
    {menu : String}
    {key : Option Key} :
    t.returnsOn o menu key = true ↔
      menu ≠ t.rootId ∧ t.offersReturn menu = true ∧
        key = some o.returnKey := by
  simp [returnsOn, and_assoc]

/- A plan that follows a flow from a node on. -/
inductive Follows
    (t : Flow)
    (o : Options)
    (r : Resolver) : String → Plan → Prop where
  | leaf
      {id : String}
      (hLeaf : t.opensMenu id = false) :
      Follows t o r id
        (.leaf (t.instrs r id) (t.endsCall id))
  | menu
      {id : String}
      {choices : List (Option Key × Plan)}
      (hMenu : t.opensMenu id = true)
      (hFound :
        ∀ key c, t.childByKey? id key = some c →
          (Plan.choice? choices key).isSome = true)
      (hChild :
        ∀ key c p, t.childByKey? id key = some c →
          Plan.choice? choices key = some p →
            Follows t o r c p)
      (hFree :
        ∀ key, t.childByKey? id key = none →
          Plan.choice? choices key =
            if t.returnsOn o id key then some .back
            else none) :
      Follows t o r id (.menu (t.instrs r id) choices)

variable {t : Flow}
variable {o : Options}
variable {r : Resolver}

namespace Follows

/- A plan that follows a flow is never just the way back. -/
theorem ne_back
    {id : String}
    {p : Plan}
    (h : t.Follows o r id p) : p ≠ .back := by
  cases h <;> exact Plan.noConfusion

/- The action of the plan is what the node does. -/
theorem action_eq
    {id : String}
    {p : Plan}
    (h : t.Follows o r id p) : p.action = t.instrs r id := by
  cases h <;> rfl

/- A child that a key selects has the choice on this key. -/
theorem exists_choice?
    {id : String}
    {action : List Instr}
    {choices : List (Option Key × Plan)}
    (h : t.Follows o r id (.menu action choices))
    {key : Option Key}
    {c : String}
    (hSelects : t.childByKey? id key = some c) :
    ∃ p, Plan.choice? choices key = some p ∧
      t.Follows o r c p := by
  cases h with
  | menu hMenu hFound hChild hFree =>
      rcases Option.isSome_iff_exists.mp
        (hFound key c hSelects) with ⟨p, hPlan⟩
      exact ⟨p, hPlan, hChild key c p hSelects hPlan⟩

/- Without such a child there may be the way back. -/
theorem choice?_eq_of_free
    {id : String}
    {action : List Instr}
    {choices : List (Option Key × Plan)}
    (h : t.Follows o r id (.menu action choices))
    {key : Option Key}
    (hFree : t.childByKey? id key = none) :
    Plan.choice? choices key =
      if t.returnsOn o id key then some .back else none := by
  cases h with
  | menu hMenu hFound hChild hReturn => exact hReturn key hFree

------------------------------------------------------------
-- Answers
------------------------------------------------------------

/- What a plan leads to where the flow takes a way. -/
def Answers
    (t : Flow)
    (o : Options)
    (r : Resolver) : Route → Option Plan → Prop
  | .child c, answer =>
      ∃ p, answer = some p ∧ t.Follows o r c p
  | .root, answer => answer = some .back
  | .again, answer => answer = none

/- Without the key of a child, the fallback is taken. -/
private theorem answers_fallbackRoute
    {id : String}
    {action : List Instr}
    {choices : List (Option Key × Plan)}
    (h : t.Follows o r id (.menu action choices)) :
    Answers t o r (t.fallbackRoute id)
      (Plan.choice? choices none) := by
  unfold fallbackRoute
  cases hSelects : t.childByKey? id none with
  | some c => exact h.exists_choice? hSelects
  | none =>
      have hNoReturn : t.returnsOn o id none = false := by
        simp [returnsOn]
      have hChoice := h.choice?_eq_of_free hSelects
      rw [hNoReturn] at hChoice
      exact hChoice

/- The plan answers every event with the way of the flow. -/
theorem answers_route
    {id : String}
    {action : List Instr}
    {choices : List (Option Key × Plan)}
    (h : t.Follows o r id (.menu action choices))
    (e : CallEvent) :
    Answers t o r (t.route o id e)
      (Plan.answer? choices e) := by
  have hFallback := answers_fallbackRoute h
  cases e with
  | silence => exact rfl
  | other => exact hFallback
  | key k =>
      rw [Plan.answer?_key]
      cases hSelects : t.childByKey? id (some k) with
      | some c =>
          rcases h.exists_choice? hSelects with
            ⟨p, hPlan, hFollows⟩
          simp only [route, hSelects, hPlan]
          exact ⟨p, rfl, hFollows⟩
      | none =>
          rw [h.choice?_eq_of_free hSelects]
          simp only [route, hSelects]
          have hReturn :
              t.returnsOn o id (some k) = true ↔
                id ≠ t.rootId ∧ t.offersReturn id = true ∧
                  k = o.returnKey := by
            rw [returnsOn_iff, Option.some_inj]
          by_cases hOn : t.returnsOn o id (some k) = true
          · rw [if_pos hOn, if_pos (hReturn.mp hOn)]
            exact rfl
          · rw [if_neg hOn, if_neg (mt hReturn.mpr hOn)]
            exact hFallback

------------------------------------------------------------
-- Courses
------------------------------------------------------------

/-
  A plan is reached as its node is, as long as its menus
  serve the later events as theirs.
-/
private theorem reach_eq
    {top : Plan}
    {events : List CallEvent}
    (hTop : t.Follows o r t.rootId top)
    (hRoot :
      Plan.serve top top.action top.choices events =
        t.serve o r t.rootId events)
    (hServe :
      ∀ id action choices,
        t.Follows o r id (.menu action choices) →
          Plan.serve top action choices events =
            t.serve o r id events)
    {c : String}
    {p : Plan}
    (h : t.Follows o r c p) :
    Plan.reach top p events =
      perform (t.instrs r c)
        (if t.opensMenu c then t.serve o r c events
        else if t.endsCall c then ⟨[.hangup none], .over⟩
        else
          perform (t.instrs r t.rootId)
            (t.serve o r t.rootId events)) := by
  cases h with
  | leaf hLeaf =>
      unfold Plan.reach
      rw [hRoot, hTop.action_eq, hLeaf]
      simp only [Bool.false_eq_true, if_false]
  | @menu _ choices hMenu hFound hChild hFree =>
      have hSame := hServe c (t.instrs r c) choices
        (.menu hMenu hFound hChild hFree)
      rw [if_pos hMenu, ← hSame]
      rfl

/- A menu serves the caller as its node does. -/
theorem serve_eq
    {action : List Instr}
    {choices : List (Option Key × Plan)}
    (hTop : t.Follows o r t.rootId (.menu action choices))
    {id : String}
    {action' : List Instr}
    {choices' : List (Option Key × Plan)}
    (h : t.Follows o r id (.menu action' choices'))
    (events : List CallEvent) :
    Plan.serve (.menu action choices) action' choices'
        events =
      t.serve o r id events := by
  induction events generalizing id action' choices' with
  | nil => rfl
  | cons e events ih =>
      have hAnswers := h.answers_route e
      rw [Plan.serve_cons, Flow.serve]
      cases hRoute : t.route o id e with
      | again =>
          rw [hRoute] at hAnswers
          have hNone : Plan.answer? choices' e = none :=
            hAnswers
          have hAction : action' = t.instrs r id :=
            h.action_eq
          simp only [hNone]
          rw [ih h, hAction]
      | root =>
          rw [hRoute] at hAnswers
          have hBack :
              Plan.answer? choices' e = some .back :=
            hAnswers
          have hAction : action = t.instrs r t.rootId :=
            hTop.action_eq
          simp only [hBack]
          rw [← ih hTop, ← hAction]
          rfl
      | child c =>
          rw [hRoute] at hAnswers
          rcases hAnswers with ⟨p, hPlan, hFollows⟩
          simp only [hPlan]
          exact reach_eq hTop (ih hTop)
            (fun id action choices h => ih h) hFollows

/- A whole call takes the course that it takes in the flow. -/
theorem course_eq
    {p : Plan}
    (h : t.Follows o r t.rootId p)
    (events : List CallEvent) :
    p.course events =
      perform (t.instrs r t.rootId)
        (if t.opensMenu t.rootId then
          t.serve o r t.rootId events
        else ⟨[.hangup none], .over⟩) := by
  cases h with
  | leaf hLeaf =>
      rw [hLeaf]
      rfl
  | @menu _ choices hMenu hFound hChild hFree =>
      have hFollows : t.Follows o r t.rootId
          (.menu (t.instrs r t.rootId) choices) :=
        .menu hMenu hFound hChild hFree
      rw [if_pos hMenu, ← serve_eq hFollows hFollows events]
      rfl

end Follows

end Flow

end CallFlow
