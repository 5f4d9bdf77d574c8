import CallFlow.Compile.Layout
import CallFlow.Proofs.Compile.PlanWalk

/-
  The steps that the block of a menu has under each label,
  and from each tag on.

  Main declarations:
    * `Layout.menuSteps_eq`
    * `Layout.HoldsMenu`
    * `Layout.HoldsMenu.stepsUnder_entry`
    * `Layout.HoldsMenu.stepsUnder_digit`
    * `Layout.HoldsMenu.stepsUnder_invalid`
    * `Layout.HoldsMenu.stepsUnder_timeout`
    * `Layout.HoldsMenu.stepsFrom_start`
    * `Layout.HoldsMenu.stepsFrom_collect`
-/

namespace CallFlow

namespace Layout

variable {y : Layout}
variable {name : String}
variable {action : List Instr}
variable {choices : List (Option Key × Plan)}

------------------------------------------------------------
-- Labels
------------------------------------------------------------

/- Steps under one label. -/
theorem filter_label_eq_self
    {steps : List Step}
    {l : Label}
    (h : ∀ st ∈ steps, st.label = l) :
    (steps.filter fun st => st.label == l) = steps := by
  rw [List.filter_eq_self]
  intro st hst
  simpa using h st hst

/- Steps under another label. -/
private theorem filter_label_eq_nil
    {steps : List Step}
    {l l' : Label}
    (h : ∀ st ∈ steps, st.label = l')
    (hNe : l' ≠ l) :
    (steps.filter fun st => st.label == l) = [] := by
  rw [List.filter_eq_nil_iff]
  intro st hst
  rw [h st hst]
  simpa using hNe

/- Steps that all have one label are there under it only. -/
private theorem filter_label_eq
    {steps : List Step}
    {l' : Label}
    (h : ∀ st ∈ steps, st.label = l')
    (l : Label) :
    (steps.filter fun st => st.label == l) =
      if l = l' then steps else [] := by
  by_cases hSame : l = l'
  · rw [if_pos hSame, hSame]
    exact filter_label_eq_self h
  · rw [if_neg hSame]
    exact filter_label_eq_nil h fun hBack =>
      hSame hBack.symm

/- A plain step has the label that it is made for. -/
theorem label_of_mem_map_plain
    {l : Label}
    {instrs : List Instr}
    {st : Step}
    (h : st ∈ instrs.map (plain l)) : st.label = l := by
  rcases List.mem_map.mp h with ⟨i, -, hStep⟩
  rw [← hStep]
  rfl

/- Actions stand under the entry label. -/
theorem label_of_mem_actionSteps
    {st : Step}
    (h : st ∈ actionSteps action) : st.label = .entry := by
  cases action with
  | nil => cases h
  | cons i rest =>
      rcases List.mem_cons.mp h with hHead | hRest
      · rw [hHead]
      · exact label_of_mem_map_plain hRest

/- So does the step that asks. -/
theorem label_askStep
    (y : Layout)
    (action : List Instr) :
    (y.askStep action).label = .entry := by
  unfold askStep
  split <;> rfl

/- The step that asks can ask. -/
theorem asks_askStep
    (y : Layout)
    (action : List Instr) :
    (y.askStep action).instr.asks = true := by
  unfold askStep
  split <;> rfl

/- A menu that is entered where it asks waits for a key. -/
theorem askStep_of_retryTag
    (hRetry : retryTag action = .collect) :
    y.askStep action =
      ⟨.entry, some .collect,
        .waitForDigit y.options.digitTimeout⟩ := by
  unfold retryTag at hRetry
  unfold askStep
  cases hLast : action.getLast? with
  | none => rfl
  | some i =>
      rw [hLast] at hRetry
      cases i with
      | readDigits channelVar prompt maxDigits timeout =>
          cases hRetry
      | _ => rfl

/- The steps of a choice stand under its label. -/
theorem label_of_mem_choiceSteps
    {c : Option Key × Plan}
    {st : Step}
    (h : st ∈ y.choiceSteps name c) :
    st.label = choiceLabel c.1 := by
  rcases c with ⟨key, p⟩
  unfold choiceSteps at h
  cases p with
  | menu action choices =>
      rw [List.mem_singleton.mp h]
      rfl
  | back =>
      rw [List.mem_singleton.mp h]
      rfl
  | leaf action endsCall =>
      rcases List.mem_append.mp h with hAction | hLast
      · exact label_of_mem_map_plain hAction
      · split at hLast
        · cases hLast
        · rw [List.mem_singleton.mp hLast]
          rfl

/- The steps after a bad choice stand under one label. -/
theorem label_of_mem_retrySteps
    {l : Label}
    {st : Step}
    (h : st ∈ retrySteps name l action) : st.label = l := by
  rcases List.mem_append.mp h with hAction | hLast
  · split at hAction
    · exact label_of_mem_map_plain hAction
    · cases hAction
  · rw [List.mem_singleton.mp hLast]
    rfl

/- Every choice has a step. -/
theorem choiceSteps_ne_nil
    (y : Layout)
    (name : String)
    (c : Option Key × Plan) : y.choiceSteps name c ≠ [] := by
  rcases c with ⟨key, p⟩
  unfold choiceSteps
  cases p with
  | menu action choices => exact List.cons_ne_nil _ _
  | back => exact List.cons_ne_nil _ _
  | leaf action endsCall =>
      simp only
      split
      · rename_i hEnds
        intro hNil
        rw [List.append_nil, List.map_eq_nil_iff] at hNil
        rw [hNil] at hEnds
        cases hEnds
      · simp

------------------------------------------------------------
-- Choices
------------------------------------------------------------

/- The steps of the choices of a menu that have a key. -/
def keyedSteps
    (y : Layout)
    (name : String)
    (choices : List (Option Key × Plan)) : List Step :=
  (choices.filter fun c => c.1.isSome).flatMap
    (y.choiceSteps name)

/- The steps after input that selects no choice by its key. -/
def fallbackSteps
    (y : Layout)
    (name : String)
    (action : List Instr)
    (choices : List (Option Key × Plan)) : List Step :=
  match fallback? choices with
  | some c => y.choiceSteps name c
  | none => retrySteps name .invalid action

/- The parts of a menu, in the order of their steps. -/
theorem menuSteps_eq
    (y : Layout)
    (name : String)
    (action : List Instr)
    (choices : List (Option Key × Plan)) :
    y.menuSteps name action choices =
      actionSteps action ++ [y.askStep action] ++
        y.keyedSteps name choices ++
        y.fallbackSteps name action choices ++
        retrySteps name .timeout action :=
  rfl

/- No choice has a key that the keys do not hold. -/
private theorem choice?_eq_none
    {key : Option Key}
    (h : key ∉ choices.map (·.1)) :
    Plan.choice? choices key = none := by
  cases hChoice : Plan.choice? choices key with
  | none => rfl
  | some p =>
      have hMem := Plan.mem_of_choice? hChoice
      exact absurd (List.mem_map_of_mem hMem) h

/- The first choice is the one with its key. -/
private theorem choice?_cons_self
    (key : Option Key)
    (p : Plan)
    (rest : List (Option Key × Plan)) :
    Plan.choice? ((key, p) :: rest) key = some p := by
  unfold Plan.choice?
  rw [List.find?_cons_of_pos (by simp)]
  rfl

/- It is not the one with another key. -/
private theorem choice?_cons_ne
    {key key' : Option Key}
    (hNe : key ≠ key')
    (p : Plan)
    (rest : List (Option Key × Plan)) :
    Plan.choice? ((key, p) :: rest) key' =
      Plan.choice? rest key' := by
  unfold Plan.choice?
  rw [List.find?_cons_of_neg (by simpa using hNe)]

/- The steps for a key are those of the choice that has it. -/
private theorem filter_keyedSteps
    (hKeys : (choices.map (·.1)).Nodup)
    (k : Key) :
    ((y.keyedSteps name choices).filter fun st =>
        st.label == .digit k) =
      match Plan.choice? choices (some k) with
      | some p => y.choiceSteps name (some k, p)
      | none => [] := by
  induction choices with
  | nil => rfl
  | cons c rest ih =>
      rcases c with ⟨key, p⟩
      rw [List.map_cons, List.nodup_cons] at hKeys
      have hRest := ih hKeys.2
      have hLabels : ∀ st ∈ y.choiceSteps name (key, p),
          st.label = choiceLabel key :=
        fun st hst => label_of_mem_choiceSteps hst
      unfold keyedSteps
      cases key with
      | none =>
          rw [List.filter_cons_of_neg (by simp),
            choice?_cons_ne (by simp)]
          exact hRest
      | some k' =>
          rw [List.filter_cons_of_pos (by simp),
            List.flatMap_cons, List.filter_append]
          unfold keyedSteps at hRest
          rw [hRest]
          by_cases hSame : k' = k
          · subst hSame
            have hOwn : ∀ st ∈ y.choiceSteps name (some k', p),
                st.label = .digit k' := hLabels
            rw [choice?_cons_self, choice?_eq_none hKeys.1,
              filter_label_eq_self hOwn]
            exact List.append_nil _
          · have hNe : choiceLabel (some k') ≠ .digit k := by
              simpa [choiceLabel] using hSame
            rw [choice?_cons_ne (by simpa using hSame),
              filter_label_eq_nil hLabels hNe]
            rfl

/- The fallback is the choice without a key. -/
theorem fallback?_eq
    (hKeys : (choices.map (·.1)).Nodup) :
    fallback? choices =
      (Plan.choice? choices none).map fun p => (none, p) := by
  unfold fallback?
  induction choices with
  | nil => rfl
  | cons c rest ih =>
      rcases c with ⟨key, p⟩
      rw [List.map_cons, List.nodup_cons] at hKeys
      cases key with
      | some k =>
          rw [List.filter_cons_of_neg (by simp),
            choice?_cons_ne (by simp)]
          exact ih hKeys.2
      | none =>
          -- No other choice is without a key.
          have hOthers :
              (rest.filter fun c => c.1.isNone) = [] := by
            rw [List.filter_eq_nil_iff]
            intro d hd hNone
            apply hKeys.1
            rw [Option.isNone_iff_eq_none] at hNone
            exact List.mem_map.mpr ⟨d, hd, hNone⟩
          rw [List.filter_cons_of_pos (by simp), hOthers,
            choice?_cons_self]
          rfl

------------------------------------------------------------
-- Blocks of Menus
------------------------------------------------------------

/-
  A block that holds a menu.  The block of the first menu
  has some steps before it, at which nothing enters.
-/
structure HoldsMenu
    (y : Layout)
    (b : Block)
    (opening : List Step)
    (action : List Instr)
    (choices : List (Option Key × Plan)) : Prop where
  steps :
    b.steps = opening ++ y.menuSteps b.name action choices
  opened :
    ∀ st ∈ opening, st.label = .entry ∧ st.tag = none

namespace HoldsMenu

variable {b : Block}
variable {opening : List Step}

/- The steps of the choices that have a key. -/
private theorem label_of_mem_keyedSteps
    {st : Step}
    (h : st ∈ y.keyedSteps name choices) :
    ∃ k, st.label = .digit k := by
  rcases List.mem_flatMap.mp h with ⟨c, hc, hst⟩
  have hLabel := label_of_mem_choiceSteps hst
  rcases Option.isSome_iff_exists.mp
    (List.mem_filter.mp hc).2 with ⟨k, hKey⟩
  refine ⟨k, ?_⟩
  rw [hLabel, hKey]
  rfl

/- The steps without a good choice. -/
theorem label_of_mem_fallbackSteps
    {st : Step}
    (h : st ∈ y.fallbackSteps name action choices) :
    st.label = .invalid := by
  unfold fallbackSteps at h
  split at h
  · rename_i c hFallback
    have hNone :=
      (List.mem_filter.mp
        (List.mem_of_getLast? hFallback)).2
    rw [Option.isNone_iff_eq_none] at hNone
    rw [label_of_mem_choiceSteps h, hNone]
    rfl
  · exact label_of_mem_retrySteps h

/-
  The steps of the block under a label, part by part: what
  the block does when it is entered, the choices with keys,
  and what follows other input and none.
-/
private theorem stepsUnder_eq
    (h : y.HoldsMenu b opening action choices)
    (l : Label) :
    b.stepsUnder l =
      (if l = .entry then
        opening ++ (actionSteps action ++ [y.askStep action])
      else []) ++
      ((y.keyedSteps b.name choices).filter fun st =>
        st.label == l) ++
      (if l = .invalid then
        y.fallbackSteps b.name action choices
      else []) ++
      (if l = .timeout then
        retrySteps b.name .timeout action
      else []) := by
  have hEntry :
      ∀ st ∈ opening ++
          (actionSteps action ++ [y.askStep action]),
        st.label = .entry := by
    intro st hst
    rcases List.mem_append.mp hst with hOpening | hRest
    · exact (h.opened st hOpening).1
    · rcases List.mem_append.mp hRest with hAction | hAsk
      · exact label_of_mem_actionSteps hAction
      · rw [List.mem_singleton.mp hAsk]
        exact label_askStep y action
  have hSplit :
      b.steps =
        (opening ++
          (actionSteps action ++ [y.askStep action])) ++
        y.keyedSteps b.name choices ++
        y.fallbackSteps b.name action choices ++
        retrySteps b.name .timeout action := by
    rw [h.steps, menuSteps_eq]
    simp only [List.append_assoc]
  unfold Block.stepsUnder
  rw [hSplit, List.filter_append, List.filter_append,
    List.filter_append, filter_label_eq hEntry,
    filter_label_eq fun _ hst =>
      label_of_mem_fallbackSteps hst,
    filter_label_eq fun _ hst => label_of_mem_retrySteps hst]

/- No choice with a key stands under another label. -/
private theorem filter_keyedSteps_eq_nil
    {l : Label}
    (hOther : ∀ k, l ≠ .digit k) :
    ((y.keyedSteps name choices).filter fun st =>
        st.label == l) = [] := by
  rw [List.filter_eq_nil_iff]
  intro st hst
  rcases label_of_mem_keyedSteps hst with ⟨k, hLabel⟩
  have hNe : st.label ≠ l := by
    rw [hLabel]
    exact (hOther k).symm
  simpa using hNe

/- Entering a menu performs its action and asks. -/
theorem stepsUnder_entry
    (h : y.HoldsMenu b opening action choices) :
    b.stepsUnder .entry =
      opening ++
        (actionSteps action ++ [y.askStep action]) := by
  rw [h.stepsUnder_eq, filter_keyedSteps_eq_nil (by simp)]
  simp

/- Under a key stands the choice that has it. -/
theorem stepsUnder_digit
    (h : y.HoldsMenu b opening action choices)
    (hKeys : (choices.map (·.1)).Nodup)
    (k : Key) :
    b.stepsUnder (.digit k) =
      match Plan.choice? choices (some k) with
      | some p => y.choiceSteps b.name (some k, p)
      | none => [] := by
  rw [h.stepsUnder_eq, filter_keyedSteps hKeys]
  simp

/- Other input leads to the fallback, or back to asking. -/
theorem stepsUnder_invalid
    (h : y.HoldsMenu b opening action choices)
    (hKeys : (choices.map (·.1)).Nodup) :
    b.stepsUnder .invalid =
      match Plan.choice? choices none with
      | some p => y.choiceSteps b.name (none, p)
      | none => retrySteps b.name .invalid action := by
  rw [h.stepsUnder_eq, filter_keyedSteps_eq_nil (by simp)]
  unfold fallbackSteps
  rw [fallback?_eq hKeys]
  cases Plan.choice? choices none <;> simp

/- Without input the menu asks again. -/
theorem stepsUnder_timeout
    (h : y.HoldsMenu b opening action choices) :
    b.stepsUnder .timeout =
      retrySteps b.name .timeout action := by
  rw [h.stepsUnder_eq, filter_keyedSteps_eq_nil (by simp)]
  simp

/- A key has a label of its own if a choice has the key. -/
theorem answerLabel_key
    (h : y.HoldsMenu b opening action choices)
    (hKeys : (choices.map (·.1)).Nodup)
    (k : Key) :
    b.answerLabel (.key k) =
      if (Plan.choice? choices (some k)).isSome then
        .digit k
      else .invalid := by
  have hLabels :
      b.labels.contains (.digit k) =
        !(b.stepsUnder (.digit k)).isEmpty := by
    unfold Block.labels Block.stepsUnder
    rw [Bool.eq_iff_iff]
    simp [List.filter_eq_nil_iff]
  show (if b.labels.contains (.digit k) = true then _
    else _) = _
  rw [hLabels, h.stepsUnder_digit hKeys]
  cases Plan.choice? choices (some k) with
  | none => rfl
  | some p =>
      have hNe := choiceSteps_ne_nil y b.name (some k, p)
      simp [hNe]

------------------------------------------------------------
-- Tags
------------------------------------------------------------

/- The opening has no tag to enter at. -/
private theorem dropWhile_opening
    (h : y.HoldsMenu b opening action choices)
    (tag : Tag)
    (rest : List Step) :
    (opening ++ rest).dropWhile
        (fun st => st.tag != some tag) =
      rest.dropWhile (fun st => st.tag != some tag) := by
  apply List.dropWhile_append_of_pos
  intro st hst
  rw [(h.opened st hst).2]
  rfl

/- A menu is entered again at its action. -/
theorem stepsFrom_start
    (h : y.HoldsMenu b opening action choices)
    (hNe : action ≠ []) :
    b.stepsFrom .entry (some .start) =
      actionSteps action ++ [y.askStep action] := by
  show (b.stepsUnder .entry).dropWhile _ = _
  rw [h.stepsUnder_entry, h.dropWhile_opening]
  cases action with
  | nil => exact absurd rfl hNe
  | cons i rest => rfl

/- A menu that waits for a key can be entered there, too. -/
theorem stepsFrom_collect
    (h : y.HoldsMenu b opening action choices)
    (hRetry : retryTag action = .collect) :
    b.stepsFrom .entry (some .collect) =
      [y.askStep action] := by
  have hAction :
      ∀ st ∈ actionSteps action,
        (st.tag != some .collect) = true := by
    intro st hst
    cases action with
    | nil => cases hst
    | cons i rest =>
        rcases List.mem_cons.mp hst with hHead | hRest
        · rw [hHead]
          rfl
        · rcases List.mem_map.mp hRest with ⟨j, -, hStep⟩
          rw [← hStep]
          rfl
  have hAsk :
      ((y.askStep action).tag != some .collect) = false := by
    rw [askStep_of_retryTag hRetry]
    rfl
  show (b.stepsUnder .entry).dropWhile _ = _
  rw [h.stepsUnder_entry, h.dropWhile_opening,
    List.dropWhile_append_of_pos hAction]
  simp [hAsk]

end HoldsMenu

end Layout

end CallFlow
