import CallFlow.Compile.Plan
import CallFlow.Proofs.Script.Running

/-
  What a caller meets on the way through a plan, and the
  plans that can be laid out.

  Main declarations:
    * `Plan.Fit`
    * `Plan.Keyed`
    * `Plan.choice?`
    * `Plan.answer?`
    * `Plan.serve`
    * `Plan.reach`
    * `Plan.course`
-/

namespace CallFlow

namespace Plan

------------------------------------------------------------
-- Fit Plans
------------------------------------------------------------

/-
  A plan that can be laid out.  Actions only perform, menus
  perform something, and no two choices of a menu have the
  same key or both have none.
-/
inductive Fit : Plan → Prop where
  | leaf
      {action : List Instr}
      {endsCall : Bool}
      (hAction : ∀ i ∈ action, i.isAction = true) :
      Fit (.leaf action endsCall)
  | back : Fit .back
  | menu
      {action : List Instr}
      {choices : List (Option Key × Plan)}
      (hAction : ∀ i ∈ action, i.isAction = true)
      (hNe : action ≠ [])
      (hKeys : (choices.map (·.1)).Nodup)
      (hChoices : ∀ c ∈ choices, Fit c.2) :
      Fit (.menu action choices)

/- A plan in which a key has at most one choice anywhere. -/
inductive Keyed : Plan → Prop where
  | leaf
      {action : List Instr}
      {endsCall : Bool} :
      Keyed (.leaf action endsCall)
  | back : Keyed .back
  | menu
      {action : List Instr}
      {choices : List (Option Key × Plan)}
      (hKeys : (choices.map (·.1)).Nodup)
      (hChoices : ∀ c ∈ choices, Keyed c.2) :
      Keyed (.menu action choices)

/- A plan that can be laid out has distinct keys. -/
theorem Fit.keyed
    {p : Plan}
    (h : p.Fit) : p.Keyed := by
  induction h with
  | leaf hAction => exact .leaf
  | back => exact .back
  | menu hAction hNe hKeys hChoices ih =>
      exact .menu hKeys ih

------------------------------------------------------------
-- Choices
------------------------------------------------------------

/- The plan of the choice with a key, or without one. -/
def choice?
    (choices : List (Option Key × Plan))
    (key : Option Key) : Option Plan :=
  (choices.find? fun c => c.1 == key).map (·.2)

/- The plan that a menu leads to, if it leads anywhere. -/
def answer?
    (choices : List (Option Key × Plan)) :
    CallEvent → Option Plan
  | .key k =>
      (choice? choices (some k)).or (choice? choices none)
  | .other => choice? choices none
  | .silence => none

/- A key leads to its choice, or to the fallback. -/
theorem answer?_key
    (choices : List (Option Key × Plan))
    (k : Key) :
    answer? choices (.key k) =
      (choice? choices (some k)).or (choice? choices none) :=
  rfl

/- A plan that is found is that of a choice. -/
theorem mem_of_choice?
    {choices : List (Option Key × Plan)}
    {key : Option Key}
    {p : Plan}
    (h : choice? choices key = some p) :
    (key, p) ∈ choices := by
  rcases Option.map_eq_some_iff.mp h with ⟨c, hFind, hPlan⟩
  have hKey : c.1 = key := by
    simpa using List.find?_some hFind
  rw [← hKey, ← hPlan]
  exact List.mem_of_find?_eq_some hFind

/- With distinct keys every choice is found. -/
theorem choice?_of_mem
    {choices : List (Option Key × Plan)}
    {key : Option Key}
    {p : Plan}
    (hKeys : (choices.map (·.1)).Nodup)
    (h : (key, p) ∈ choices) :
    choice? choices key = some p := by
  induction choices with
  | nil => cases h
  | cons c rest ih =>
      rw [List.map_cons, List.nodup_cons] at hKeys
      unfold choice?
      rcases List.mem_cons.mp h with hHere | hLater
      · subst hHere
        rw [List.find?_cons_of_pos (by simp)]
        rfl
      · have hNe : c.1 ≠ key := by
          intro hSame
          apply hKeys.1
          rw [hSame]
          exact List.mem_map_of_mem hLater
        rw [List.find?_cons_of_neg (by simpa using hNe)]
        exact ih hKeys.2 hLater

------------------------------------------------------------
-- The Way Through a Plan
------------------------------------------------------------

/- The action of a plan and its choices, if it has any. -/
def action : Plan → List Instr
  | leaf action _ => action
  | menu action _ => action
  | back => []

def choices : Plan → List (Option Key × Plan)
  | menu _ choices => choices
  | _ => []

/-
  The course of a call that waits at a menu, in a plan that
  begins with the menu `top`.
-/
def serve
    (top : Plan) :
    List Instr → List (Option Key × Plan) →
      List CallEvent → Course
  | _, _, [] => ⟨[], .waiting⟩
  | here, choices, e :: events =>
      match answer? choices e with
      | none => perform here (serve top here choices events)
      | some (.menu action choices) =>
          perform action (serve top action choices events)
      | some .back =>
          perform top.action
            (serve top top.action top.choices events)
      | some (.leaf action endsCall) =>
          perform action
            (if endsCall then ⟨[.hangup none], .over⟩
            else
              perform top.action
                (serve top top.action top.choices events))

/- The course of a call that comes to a plan in another. -/
def reach
    (top : Plan)
    (p : Plan)
    (events : List CallEvent) : Course :=
  match p with
  | menu action choices =>
      perform action (serve top action choices events)
  | back =>
      perform top.action
        (serve top top.action top.choices events)
  | leaf action endsCall =>
      perform action
        (if endsCall then ⟨[.hangup none], .over⟩
        else
          perform top.action
            (serve top top.action top.choices events))

/- An event leads to another plan, or has a menu repeated. -/
theorem serve_cons
    (top : Plan)
    (here : List Instr)
    (choices : List (Option Key × Plan))
    (e : CallEvent)
    (events : List CallEvent) :
    serve top here choices (e :: events) =
      match answer? choices e with
      | none => perform here (serve top here choices events)
      | some p => reach top p events := by
  rw [serve]
  cases answer? choices e with
  | none => rfl
  | some p => cases p <;> rfl

/- The course of a call from where it comes to the plan. -/
def course
    (p : Plan)
    (events : List CallEvent) : Course :=
  perform p.action
    (match p with
    | menu action choices => serve p action choices events
    | _ => ⟨[.hangup none], .over⟩)

end Plan

end CallFlow
