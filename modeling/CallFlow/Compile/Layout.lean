import CallFlow.Compile.Plan

/-
  This file defines the blocks that a plan is laid out in.

  Every menu gets a block.  The block of a menu comes before
  those of its choices, which come in key order.  A root
  that is no menu gets a block too.

  Main declarations:
    * `Layout`
    * `Layout.choiceSteps`
    * `Layout.menuSteps`
    * `Layout.nested`
    * `Layout.blocks`
-/

namespace CallFlow

/- What the layout of a plan depends on. -/
structure Layout where
  options : Options
  top : String

namespace Layout

------------------------------------------------------------
-- Steps
------------------------------------------------------------

/- A step without a tag. -/
def plain
    (l : Label)
    (i : Instr) : Step :=
  ⟨l, none, i⟩

/- Whether some instructions end their label. -/
def ends
    (action : List Instr) : Bool :=
  match action.getLast? with
  | some i => i.endsLabel
  | none => false

/- The jump to the action of the first menu. -/
def gotoTop
    (y : Layout) : Instr :=
  .goto y.top .entry (some .start)

/- What happens when a call has been taken. -/
def opening
    (y : Layout) : List Instr :=
  .answer ::
    match y.options.answerWait with
    | some seconds => [.wait seconds]
    | none => []

/- The steps of an action, which can be entered again. -/
def actionSteps : List Instr → List Step
  | [] => []
  | i :: rest =>
      ⟨.entry, some .start, i⟩ :: rest.map (plain .entry)

/-
  The step that asks for a choice.  Digits that have been
  read by the action itself need only be looked at.
-/
def askStep
    (y : Layout)
    (action : List Instr) : Step :=
  match action.getLast? with
  | some (.readDigits channelVar _ _ _) =>
      plain .entry (.dispatch channelVar)
  | _ =>
      ⟨.entry, some .collect,
        .waitForDigit y.options.digitTimeout⟩

/- Where a menu is entered again after a bad choice. -/
def retryTag
    (action : List Instr) : Tag :=
  match action.getLast? with
  | some (.readDigits _ _ _ _) => .start
  | _ => .collect

/-
  The steps after a bad choice: the action is replayed, and
  the menu is entered where it asks.  Reading digits plays
  the action again by itself.
-/
def retrySteps
    (name : String)
    (l : Label)
    (action : List Instr) : List Step :=
  (if retryTag action = .collect then
    action.map (plain l)
  else []) ++
    [plain l
      (.goto name .entry (some (retryTag action)))]

------------------------------------------------------------
-- Choices
------------------------------------------------------------

/- The name of the block of a menu inside another. -/
def nestedName
    (name : String)
    (key : Option Key) : String :=
  name ++ "-" ++ (key.map Key.token).getD "invalid"

/- The label of a choice. -/
def choiceLabel : Option Key → Label
  | some k => .digit k
  | none => .invalid

/- The steps of a choice of a menu. -/
def choiceSteps
    (y : Layout)
    (name : String)
    (c : Option Key × Plan) : List Step :=
  let l := choiceLabel c.1
  match c.2 with
  | .menu _ _ =>
      [plain l (.goto (nestedName name c.1) .entry none)]
  | .back => [plain l y.gotoTop]
  | .leaf action endsCall =>
      action.map (plain l) ++
        if ends action then []
        else
          [plain l
            (if endsCall then .hangup none else y.gotoTop)]

/- The fallback among the choices of a menu. -/
def fallback?
    {α : Type}
    (choices : List (Option Key × α)) :
    Option (Option Key × α) :=
  (choices.filter fun c => c.1.isNone).getLast?

/- The steps of the block of a menu, after its opening. -/
def menuSteps
    (y : Layout)
    (name : String)
    (action : List Instr)
    (choices : List (Option Key × Plan)) : List Step :=
  actionSteps action ++ [y.askStep action] ++
    (choices.filter fun c => c.1.isSome).flatMap
      (y.choiceSteps name) ++
    (match fallback? choices with
    | some c => y.choiceSteps name c
    | none => retrySteps name .invalid action) ++
    retrySteps name .timeout action

/- The steps of the block of a root that is no menu. -/
def leafSteps
    (action : List Instr) : List Step :=
  actionSteps action ++
    if ends action then [] else [plain .entry (.hangup none)]

------------------------------------------------------------
-- Blocks
------------------------------------------------------------

mutual

/- The blocks of a plan inside a menu, with their names. -/
def nested
    (y : Layout)
    (name : String) : Plan → List (String × List Step)
  | .menu action choices =>
      (name, y.menuSteps name action choices) ::
        nestedAll y name choices
  | .leaf _ _ => []
  | .back => []

/- The blocks of the choices of a menu. -/
def nestedAll
    (y : Layout)
    (name : String) :
    List (Option Key × Plan) → List (String × List Step)
  | [] => []
  | (key, p) :: rest =>
      nested y (nestedName name key) p ++
        nestedAll y name rest

end

/- The blocks of a whole plan, with their names. -/
def named
    (y : Layout) : Plan → List (String × List Step)
  | .menu action choices =>
      (y.top,
        y.opening.map (plain .entry) ++
          y.menuSteps y.top action choices) ::
        y.nestedAll y.top choices
  | .leaf action _ =>
      [(y.top,
        y.opening.map (plain .entry) ++ leafSteps action)]
  | .back => []

/- The blocks of a whole plan, numbered in order. -/
def blocks
    (y : Layout)
    (p : Plan) : List Block :=
  (y.named p).zipIdx.map fun b =>
    ⟨b.2, b.1.1, b.1.2⟩

end Layout

end CallFlow
