import CallFlow.Proofs.Compile.LayoutSteps
import Mathlib.Data.List.Nodup

/-
  The tags of a block, at which it can be entered again.

  Just two steps of a menu can have a tag: the first step of
  its action, and the step that asks, if it waits for a key.
  Both stand under the entry label.  A menu without an action
  has no first step, so it cannot be entered there.

  Main declarations:
    * `Layout.tags`
    * `Layout.retryTag_mem_tags`
    * `Layout.tags_menuSteps`
    * `Layout.HoldsMenu.tags_steps`
    * `Layout.HoldsMenu.count_tag`
    * `Block.Carries`
    * `Block.carries_iff`
-/

namespace CallFlow

namespace Layout

variable {y : Layout}
variable {b : Block}
variable {name : String}
variable {action : List Instr}
variable {choices : List (Option Key × Plan)}

------------------------------------------------------------
-- Tags of Menus
------------------------------------------------------------

/-
  The tags that a menu can be entered at.  There is a first
  step only if the menu has an action, and a key is waited
  for only if the action reads no digits.
-/
def tags
    (action : List Instr) : List Tag :=
  (if action = [] then [] else [.start]) ++
    if retryTag action = .collect then [.collect] else []

/- There is a first step if there is an action. -/
theorem start_mem_tags_iff :
    .start ∈ tags action ↔ action ≠ [] := by
  unfold tags
  by_cases hNil : action = [] <;> simp [hNil]

/- A menu can be entered where a bad choice leads back to. -/
theorem retryTag_mem_tags
    (action : List Instr) : retryTag action ∈ tags action := by
  cases hRetry : retryTag action with
  | collect => simp [tags, hRetry]
  | start =>
      apply start_mem_tags_iff.mpr
      intro hNil
      rw [hNil] at hRetry
      cases hRetry

/- No tag comes twice. -/
theorem nodup_tags
    (action : List Instr) : (tags action).Nodup := by
  unfold tags
  split <;> split <;> decide

------------------------------------------------------------
-- Tags of Steps
------------------------------------------------------------

/- The steps with a tag are as many as it comes in all tags. -/
theorem countP_tag
    (steps : List Step)
    (g : Tag) :
    steps.countP (fun st => st.tag == some g) =
      (steps.filterMap Step.tag).count g := by
  induction steps with
  | nil => rfl
  | cons st rest ih =>
      rw [List.countP_cons, ih]
      cases hTag : st.tag with
      | none => simp [hTag]
      | some g' =>
          simp [hTag, List.count_cons]

/- Plain steps have no tag. -/
theorem tags_map_plain
    (l : Label)
    (instrs : List Instr) :
    (instrs.map (plain l)).filterMap Step.tag = [] := by
  rw [List.filterMap_eq_nil_iff]
  intro st hst
  rcases List.mem_map.mp hst with ⟨i, -, rfl⟩
  rfl

/- The first step of an action has one. -/
theorem tags_actionSteps
    (action : List Instr) :
    (actionSteps action).filterMap Step.tag =
      if action = [] then [] else [.start] := by
  cases action with
  | nil => rfl
  | cons i rest =>
      exact congrArg (Tag.start :: ·)
        (tags_map_plain .entry rest)

/- So has the step that asks, if it waits for a key. -/
theorem tags_asking
    (y : Layout)
    (action : List Instr) :
    (actionSteps action ++ [y.askStep action]).filterMap
        Step.tag =
      tags action := by
  have hAsk :
      [y.askStep action].filterMap Step.tag =
        if retryTag action = .collect then [.collect]
        else [] := by
    unfold askStep retryTag
    split <;> rfl
  rw [List.filterMap_append, tags_actionSteps, hAsk]
  rfl

/- Choices have none. -/
theorem tags_choiceSteps
    (y : Layout)
    (name : String)
    (c : Option Key × Plan) :
    (y.choiceSteps name c).filterMap Step.tag = [] := by
  rcases c with ⟨key, p⟩
  unfold choiceSteps
  cases p with
  | menu inner innerChoices => rfl
  | back => rfl
  | leaf action endsCall =>
      rw [List.filterMap_append, tags_map_plain,
        List.nil_append]
      split <;> rfl

/- Nor does what follows a bad choice. -/
theorem tags_retrySteps
    (name : String)
    (l : Label)
    (action : List Instr) :
    (retrySteps name l action).filterMap Step.tag = [] := by
  unfold retrySteps
  rw [List.filterMap_append]
  split
  · rw [tags_map_plain]
    rfl
  · rfl

/- A menu has the tags that it can be entered at. -/
theorem tags_menuSteps
    (y : Layout)
    (name : String)
    (action : List Instr)
    (choices : List (Option Key × Plan)) :
    (y.menuSteps name action choices).filterMap Step.tag =
      tags action := by
  have hKeyed :
      (y.keyedSteps name choices).filterMap Step.tag = [] := by
    unfold keyedSteps
    rw [List.filterMap_flatMap, List.flatMap_eq_nil_iff]
    exact fun c _ => tags_choiceSteps y name c
  have hFallback :
      (y.fallbackSteps name action choices).filterMap
        Step.tag = [] := by
    unfold fallbackSteps
    split
    · exact tags_choiceSteps y name _
    · exact tags_retrySteps name .invalid action
  rw [menuSteps_eq, List.filterMap_append,
    List.filterMap_append, List.filterMap_append,
    tags_asking, hKeyed, hFallback, tags_retrySteps]
  simp only [List.append_nil]

/- A root that is no menu has that of its first step. -/
theorem tags_leafSteps
    (action : List Instr) :
    (leafSteps action).filterMap Step.tag =
      if action = [] then [] else [.start] := by
  unfold leafSteps
  rw [List.filterMap_append, tags_actionSteps]
  split <;> split <;> rfl

namespace HoldsMenu

variable {opening : List Step}

/- What opens the block of a menu has no tag. -/
private theorem tags_opening
    (h : y.HoldsMenu b opening action choices) :
    opening.filterMap Step.tag = [] :=
  List.filterMap_eq_nil_iff.mpr fun st hst =>
    (h.opened st hst).2

/- A block that holds a menu has the tags of the menu. -/
theorem tags_steps
    (h : y.HoldsMenu b opening action choices) :
    b.steps.filterMap Step.tag = tags action := by
  rw [h.steps, List.filterMap_append, h.tags_opening,
    tags_menuSteps, List.nil_append]

/- All of them are under the entry label. -/
theorem tags_entry
    (h : y.HoldsMenu b opening action choices) :
    (b.stepsUnder .entry).filterMap Step.tag =
      tags action := by
  rw [h.stepsUnder_entry, List.filterMap_append,
    h.tags_opening, tags_asking, List.nil_append]

/- Each of them is there on one step. -/
theorem count_tag
    (h : y.HoldsMenu b opening action choices)
    {g : Tag}
    (hTag : g ∈ tags action) :
    (b.stepsUnder .entry).countP
      (fun st => st.tag == some g) = 1 := by
  rw [countP_tag, h.tags_entry]
  exact List.count_eq_one_of_mem (nodup_tags action) hTag

end HoldsMenu

end Layout

------------------------------------------------------------
-- Tags of Blocks
------------------------------------------------------------

/-
  A block carries a tag if it is on just one of its steps, and
  this one stands under the entry label.
-/
def Block.Carries
    (b : Block)
    (g : Tag) : Prop :=
  b.steps.countP (fun st => st.tag == some g) = 1 ∧
    (b.stepsUnder .entry).countP
      (fun st => st.tag == some g) = 1

instance
    (b : Block)
    (g : Tag) : Decidable (b.Carries g) :=
  inferInstanceAs (Decidable (_ ∧ _))

/- A block carries its tags if none of them comes twice. -/
theorem Block.carries_iff
    {b : Block}
    {tags : List Tag}
    (hSteps : b.steps.filterMap Step.tag = tags)
    (hEntry :
      (b.stepsUnder .entry).filterMap Step.tag = tags)
    (hNodup : tags.Nodup)
    (g : Tag) : b.Carries g ↔ g ∈ tags := by
  unfold Block.Carries
  rw [Layout.countP_tag, Layout.countP_tag, hSteps, hEntry,
    and_self]
  constructor
  · intro hOne
    rw [← List.count_pos_iff, hOne]
    exact Nat.one_pos
  · exact List.count_eq_one_of_mem hNodup

end CallFlow
