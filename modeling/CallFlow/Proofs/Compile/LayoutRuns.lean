import CallFlow.Proofs.Compile.LayoutNames
import CallFlow.Proofs.Compile.LayoutSteps

/-
  Running a layout is going through the plan.

  The plan and the layout take the same way from one event
  to the next: the induction is on the events.  At each menu
  the steps that follow an event perform what the plan
  performs, and jump to where the menu asks that the plan
  comes to.

  Main declarations:
    * `Layout.Laid`
    * `Layout.laid_named`
    * `Layout.performs_ask`
    * `Layout.plays_blocks`
-/

namespace CallFlow

namespace Layout

variable {y : Layout}
variable {s : Script}

------------------------------------------------------------
-- Plans in Scripts
------------------------------------------------------------

/-
  A plan that is laid out in a script under a name, with some
  steps before it.  Leaves are laid out where they are chosen
  and have no block.
-/
inductive Laid
    (y : Layout)
    (s : Script) : List Step → String → Plan → Prop where
  | leaf
      {opening : List Step}
      {name : String}
      {action : List Instr}
      {endsCall : Bool} :
      Laid y s opening name (.leaf action endsCall)
  | back
      {opening : List Step}
      {name : String} : Laid y s opening name .back
  | menu
      {opening : List Step}
      {name : String}
      {b : Block}
      {action : List Instr}
      {choices : List (Option Key × Plan)}
      (hBlock : s.block? name = some b)
      (hName : b.name = name)
      (hHolds : y.HoldsMenu b opening action choices)
      (hChoices :
        ∀ c ∈ choices, Laid y s [] (nestedName name c.1) c.2) :
      Laid y s opening name (.menu action choices)

/- Numbered groups of steps are found by their names. -/
private theorem exists_find?_zipIdx
    {entries : List (String × List Step)}
    {name : String}
    {steps : List Step}
    (hNames : (entries.map (·.1)).Nodup)
    (h : (name, steps) ∈ entries)
    (i : Nat) :
    ∃ b : Block,
      ((entries.zipIdx i).map fun b =>
          (⟨b.2, b.1.1, b.1.2⟩ : Block)).find?
          (fun b => b.name == name) = some b ∧
        b.name = name ∧ b.steps = steps := by
  induction entries generalizing i with
  | nil => cases h
  | cons e rest ih =>
      rw [List.map_cons, List.nodup_cons] at hNames
      rw [List.zipIdx_cons, List.map_cons]
      rcases List.mem_cons.mp h with hHere | hLater
      · subst hHere
        rw [List.find?_cons_of_pos (by simp)]
        exact ⟨⟨i, name, steps⟩, rfl, rfl, rfl⟩
      · have hNe : e.1 ≠ name := by
          intro hSame
          apply hNames.1
          rw [hSame]
          exact List.mem_map_of_mem hLater
        rw [List.find?_cons_of_neg (by simpa using hNe)]
        exact ih hNames.2 hLater (i + 1)

/- A named group of steps is a block of the script. -/
private theorem exists_block_of_mem
    {entries : List (String × List Step)}
    {name : String}
    {steps : List Step}
    (hBlocks :
      s.blocks =
        entries.zipIdx.map fun b => ⟨b.2, b.1.1, b.1.2⟩)
    (hNames : (entries.map (·.1)).Nodup)
    (h : (name, steps) ∈ entries) :
    ∃ b : Block, s.block? name = some b ∧ b.name = name ∧
      b.steps = steps := by
  unfold Script.block?
  rw [hBlocks]
  exact exists_find?_zipIdx hNames h 0

/- A nested plan is laid out if its blocks are there. -/
private theorem laid_nested
    {p : Plan}
    {name : String}
    (hBlocks :
      ∀ n steps, (n, steps) ∈ y.nested name p →
        ∃ b : Block, s.block? n = some b ∧ b.name = n ∧
          b.steps = steps) : y.Laid s [] name p := by
  induction p using Plan.induct generalizing name with
  | leaf action endsCall => exact .leaf
  | back => exact .back
  | menu action choices ih =>
      unfold nested at hBlocks
      rcases hBlocks name _ List.mem_cons_self with
        ⟨b, hBlock, hName, hSteps⟩
      subst hName
      refine .menu hBlock rfl ⟨hSteps, by simp⟩ ?_
      intro c hc
      apply ih c hc
      intro n steps hMem
      exact hBlocks n steps
        (List.mem_cons_of_mem _
          (mem_nestedAll_iff.mpr ⟨c, hc, hMem⟩))

/- The plan of a menu is laid out in its script. -/
theorem laid_named
    {action : List Instr}
    {choices : List (Option Key × Plan)}
    (hBlocks : s.blocks = y.blocks (.menu action choices))
    (hFit : (Plan.menu action choices).Fit) :
    y.Laid s (y.opening.map (plain .entry)) y.top
      (.menu action choices) := by
  have hMem : ∀ n steps,
      (n, steps) ∈ y.named (.menu action choices) →
        ∃ b : Block, s.block? n = some b ∧ b.name = n ∧
          b.steps = steps := fun n steps h =>
    exists_block_of_mem hBlocks
      (nodup_names_named hFit.keyed) h
  unfold named at hMem
  rcases hMem y.top _ List.mem_cons_self with
    ⟨b, hBlock, hName, hSteps⟩
  have hOpened :
      ∀ st ∈ y.opening.map (plain .entry),
        st.label = .entry ∧ st.tag = none := by
    intro st hst
    rcases List.mem_map.mp hst with ⟨i, -, hStep⟩
    rw [← hStep]
    exact ⟨rfl, rfl⟩
  rw [← hName] at hSteps
  refine .menu hBlock hName ⟨hSteps, hOpened⟩ ?_
  intro c hc
  apply laid_nested
  intro n steps hNested
  exact hMem n steps
    (List.mem_cons_of_mem _
      (mem_nestedAll_iff.mpr ⟨c, hc, hNested⟩))

------------------------------------------------------------
-- Entering Menus
------------------------------------------------------------

section Menu

variable {b : Block}
variable {name : String}
variable {opening : List Step}
variable {action : List Instr}
variable {choices : List (Option Key × Plan)}
variable {events : List CallEvent}
variable {c : Course}

/- The instructions of an action are those of its steps. -/
theorem map_instr_actionSteps
    (action : List Instr) :
    (actionSteps action).map Step.instr = action := by
  cases action with
  | nil => rfl
  | cons i rest =>
      unfold actionSteps
      rw [List.map_cons, List.map_map]
      exact congrArg (i :: ·) rest.map_id

/- So they are if all steps are plain. -/
theorem map_instr_plain
    (l : Label)
    (action : List Instr) :
    (action.map (plain l)).map Step.instr = action := by
  rw [List.map_map]
  exact action.map_id

/- The steps of an action perform it before the others. -/
private theorem performs_steps
    {steps rest : List Step}
    (hInstrs : steps.map Step.instr = action)
    (hAction : ∀ i ∈ action, i.isAction = true)
    (hRest : s.Performs b rest events c) :
    s.Performs b (steps ++ rest) events
      (perform action c) := by
  have hSteps : ∀ st ∈ steps, st.instr.isAction = true := by
    intro st hst
    apply hAction
    rw [← hInstrs]
    exact List.mem_map_of_mem hst
  rw [← hInstrs]
  exact Script.performs_append hSteps hRest

/- A menu performs its action before it asks. -/
private theorem performs_actionSteps
    (hAction : ∀ i ∈ action, i.isAction = true)
    (hAsk : s.Performs b [y.askStep action] events c) :
    s.Performs b (actionSteps action ++ [y.askStep action])
      events (perform action c) :=
  performs_steps (map_instr_actionSteps action) hAction hAsk

/- A jump to the start of a menu enters it at its action. -/
private theorem performs_gotoStart
    (hBlock : s.block? name = some b)
    (hHolds : y.HoldsMenu b opening action choices)
    (hAction : ∀ i ∈ action, i.isAction = true)
    (hNe : action ≠ [])
    (hAsk : s.Performs b [y.askStep action] events c)
    (l : Label)
    (here : Block) :
    s.Performs here
      [plain l (.goto name .entry (some .start))] events
      (perform action c) := by
  have hLands :=
    Script.landing?_eq_some hBlock
      (hHolds.stepsFrom_start hNe) (by simp)
  exact Script.performs_goto rfl hLands
    (performs_actionSteps hAction hAsk)

/- A jump to a nested menu does so, too. -/
private theorem performs_gotoEntry
    (hBlock : s.block? name = some b)
    (hHolds : y.HoldsMenu b [] action choices)
    (hAction : ∀ i ∈ action, i.isAction = true)
    (hAsk : s.Performs b [y.askStep action] events c)
    (l : Label)
    (here : Block) :
    s.Performs here [plain l (.goto name .entry none)]
      events (perform action c) := by
  have hEntry := hHolds.stepsUnder_entry
  rw [List.nil_append] at hEntry
  have hFrom :
      b.stepsFrom .entry none =
        actionSteps action ++ [y.askStep action] := hEntry
  have hLands :=
    Script.landing?_eq_some hBlock hFrom (by simp)
  exact Script.performs_goto rfl hLands
    (performs_actionSteps hAction hAsk)

/- After a bad choice the action is replayed. -/
private theorem performs_retrySteps
    (hBlock : s.block? name = some b)
    (hHolds : y.HoldsMenu b opening action choices)
    (hAction : ∀ i ∈ action, i.isAction = true)
    (hNe : action ≠ [])
    (hAsk : s.Performs b [y.askStep action] events c)
    (l : Label) :
    s.Performs b (retrySteps name l action) events
      (perform action c) := by
  unfold retrySteps
  cases hRetry : retryTag action with
  | start =>
      exact performs_gotoStart hBlock hHolds hAction hNe hAsk
        l b
  | collect =>
      have hLands :=
        Script.landing?_eq_some hBlock
          (hHolds.stepsFrom_collect hRetry) (by simp)
      have hJump :
          s.Performs b
            [plain l (.goto name .entry (some .collect))]
            events c :=
        Script.performs_goto rfl hLands hAsk
      exact performs_steps (map_instr_plain l action) hAction
        hJump

/- A leaf performs its action, and ends the call or leads on. -/
private theorem performs_leaf
    {steps last : List Step}
    {here : Block}
    (hInstrs : steps.map Step.instr = action)
    (hAction : ∀ i ∈ action, i.isAction = true)
    (hLast : s.Performs here last events c) :
    s.Performs here
      (steps ++ if ends action then [] else last)
      events (perform action c) := by
  by_cases hEnds : ends action = true
  · -- The last action ends the call, so nothing is missed.
    rw [if_pos hEnds]
    have hCourse :
        perform action ⟨[], .lost⟩ = perform action c := by
      unfold ends at hEnds
      split at hEnds
      · rename_i i hGet
        have hMem := List.mem_of_getLast? hGet
        rw [← Instr.endsCall_eq_endsLabel
          (hAction i hMem)] at hEnds
        exact perform_eq_of_getLast? hGet hEnds _ _
      · cases hEnds
    rw [← hCourse]
    exact performs_steps hInstrs hAction
      (Script.performs_nil s here events)
  · rw [if_neg hEnds]
    exact performs_steps hInstrs hAction hLast

/- A hang-up ends the call. -/
private theorem performs_hangup
    (l : Label)
    (here : Block) :
    s.Performs here [plain l (.hangup none)] events
      ⟨[.hangup none], .over⟩ :=
  ⟨1, rfl⟩

/-
  An event takes the run to the choice that the plan answers
  it with, or has the menu repeated.
-/
private theorem performs_answer
    (hHolds : y.HoldsMenu b opening action choices)
    (hKeys : (choices.map (·.1)).Nodup)
    {chosen : Plan → Course}
    (hRetry :
      ∀ l, s.Performs b (retrySteps b.name l action) events c)
    (hChoose :
      ∀ key p, Plan.choice? choices key = some p →
        s.Performs b (y.choiceSteps b.name (key, p)) events
          (chosen p))
    (e : CallEvent) :
    s.Performs b (b.stepsUnder (b.answerLabel e)) events
      (match Plan.answer? choices e with
      | none => c
      | some p => chosen p) := by
  have hInvalid :
      s.Performs b (b.stepsUnder .invalid) events
        (match Plan.choice? choices none with
        | none => c
        | some p => chosen p) := by
    rw [hHolds.stepsUnder_invalid hKeys]
    cases hChoice : Plan.choice? choices none with
    | none => exact hRetry .invalid
    | some p => exact hChoose none p hChoice
  cases e with
  | silence =>
      show s.Performs b (b.stepsUnder .timeout) events c
      rw [hHolds.stepsUnder_timeout]
      exact hRetry .timeout
  | other => exact hInvalid
  | key k =>
      rw [hHolds.answerLabel_key hKeys, Plan.answer?_key]
      cases hChoice : Plan.choice? choices (some k) with
      | none =>
          rw [Option.none_or]
          exact hInvalid
      | some p =>
          have hDigit := hHolds.stepsUnder_digit hKeys k
          rw [hChoice] at hDigit
          rw [Option.some_or]
          show s.Performs b (b.stepsUnder (.digit k)) events
            (chosen p)
          rw [hDigit]
          exact hChoose (some k) p hChoice

end Menu

------------------------------------------------------------
-- Runs
------------------------------------------------------------

section Runs

variable {opening : List Step}
variable {action : List Instr}
variable {choices : List (Option Key × Plan)}
variable {events : List CallEvent}

/-
  Choosing a plan takes the run to it, if every menu goes
  through the events that are left as its plan does.
-/
private theorem performs_choiceSteps
    {key : Option Key}
    {name : String}
    {p : Plan}
    (hTop : y.Laid s opening y.top (.menu action choices))
    (hTopFit : (Plan.menu action choices).Fit)
    (hServe :
      ∀ {opening' : List Step} {name' : String} {b : Block}
        {action' : List Instr}
        {choices' : List (Option Key × Plan)},
        y.Laid s opening' name' (.menu action' choices') →
          (Plan.menu action' choices').Fit →
            s.block? name' = some b →
              s.Performs b [y.askStep action'] events
                (Plan.serve (.menu action choices) action'
                  choices' events))
    (hLaid : y.Laid s [] (nestedName name key) p)
    (hFit : p.Fit)
    (here : Block) :
    s.Performs here (y.choiceSteps name (key, p)) events
      (Plan.reach (.menu action choices) p events) := by
  have hGotoTop : ∀ l,
      s.Performs here [plain l y.gotoTop] events
        (perform action
          (Plan.serve (.menu action choices) action choices
            events)) := by
    intro l
    have hAskTop := fun b => hServe (b := b) hTop hTopFit
    cases hTop with
    | menu hBlock hName hHolds hChoices =>
        cases hTopFit with
        | menu hAction hNe hKeys hFits =>
            exact performs_gotoStart hBlock hHolds hAction hNe
              (hAskTop _ hBlock) l here
  unfold choiceSteps Plan.reach
  cases hFit with
  | back => exact hGotoTop _
  | @leaf leafAction endsCall hAction =>
      cases endsCall with
      | true =>
          exact performs_leaf (map_instr_plain _ _) hAction
            (performs_hangup _ here)
      | false =>
          exact performs_leaf (map_instr_plain _ _) hAction
            (hGotoTop _)
  | menu hAction hNe hKeys hFits =>
      have hAskInner := fun b =>
        hServe (b := b) hLaid (.menu hAction hNe hKeys hFits)
      cases hLaid with
      | menu hBlock hName hHolds hChoices =>
          exact performs_gotoEntry hBlock hHolds hAction
            (hAskInner _ hBlock) _ here

/-
  Where a laid out menu asks, a run goes through the events
  as the plan does.
-/
theorem performs_ask
    (hTop : y.Laid s opening y.top (.menu action choices))
    (hTopFit : (Plan.menu action choices).Fit)
    (events : List CallEvent)
    {opening' : List Step}
    {name : String}
    {b : Block}
    {action' : List Instr}
    {choices' : List (Option Key × Plan)}
    (hLaid : y.Laid s opening' name (.menu action' choices'))
    (hFit : (Plan.menu action' choices').Fit)
    (hBlock : s.block? name = some b) :
    s.Performs b [y.askStep action'] events
      (Plan.serve (.menu action choices) action' choices'
        events) := by
  induction events generalizing
    opening' name b action' choices' with
  | nil =>
      exact Script.performs_asks_nil (asks_askStep y action')
  | cons e events ih =>
      apply Script.performs_asks_cons (asks_askStep y action')
      rw [Plan.serve_cons]
      have hAsk := ih hLaid hFit hBlock
      cases hLaid with
      | menu hBlock' hName hHolds hChoices =>
          cases hFit with
          | menu hAction hNe hKeys hFits =>
              rw [hBlock] at hBlock'
              cases hBlock'
              subst hName
              have hRetry := performs_retrySteps hBlock hHolds
                hAction hNe hAsk
              refine performs_answer hHolds hKeys hRetry ?_ e
              intro key p hChoice
              have hMem := Plan.mem_of_choice? hChoice
              exact performs_choiceSteps hTop hTopFit ih
                (hChoices _ hMem) (hFits _ hMem) b

/- What opens a call only performs. -/
theorem isAction_of_mem_opening
    {i : Instr}
    (h : i ∈ y.opening) : i.isAction = true := by
  unfold Layout.opening at h
  rcases List.mem_cons.mp h with hAnswer | hWait
  · rw [hAnswer]
    rfl
  · split at hWait
    · rw [List.mem_singleton.mp hWait]
      rfl
    · cases hWait

/- What opens a call is performed before the first action. -/
private theorem performs_opening
    {b : Block}
    {rest : List Step}
    {c : Course}
    (hRest : s.Performs b rest events c) :
    s.Performs b (y.opening.map (plain .entry) ++ rest) events
      (perform y.opening c) :=
  performs_steps (map_instr_plain .entry y.opening)
    (fun _ hi => isAction_of_mem_opening hi) hRest

/- The script of a menu starts in the block of the menu. -/
private theorem entryBlock?_eq
    (hBlocks : s.blocks = y.blocks (.menu action choices)) :
    s.entryBlock? = s.block? y.top := by
  unfold Script.entryBlock? Script.block?
  rw [hBlocks]
  unfold blocks named
  simp

/- The script of a leaf has one block. -/
private theorem plays_leaf
    {endsCall : Bool}
    (hBlocks : s.blocks = y.blocks (.leaf action endsCall))
    (hAction : ∀ i ∈ action, i.isAction = true) :
    s.Plays events
      (perform y.opening
        (perform action ⟨[.hangup none], .over⟩)) := by
  let b : Block :=
    ⟨0, y.top,
      y.opening.map (plain .entry) ++ leafSteps action⟩
  have hEntry : s.entryBlock? = some b := by
    unfold Script.entryBlock?
    rw [hBlocks]
    rfl
  have hLabels : ∀ st ∈ b.steps, st.label = .entry := by
    intro st hst
    rcases List.mem_append.mp hst with hOpening | hRest
    · exact label_of_mem_map_plain hOpening
    · rcases List.mem_append.mp hRest with hSteps | hLast
      · exact label_of_mem_actionSteps hSteps
      · split at hLast
        · cases hLast
        · rw [List.mem_singleton.mp hLast]
          rfl
  have hUnder : b.stepsUnder .entry = b.steps :=
    filter_label_eq_self hLabels
  refine ⟨b, hEntry, ?_⟩
  rw [hUnder]
  apply performs_opening
  exact performs_leaf (map_instr_actionSteps action) hAction
    (performs_hangup .entry b)

/- A run of a layout begins with what opens the call. -/
theorem plays_blocks
    {p : Plan}
    (hBlocks : s.blocks = y.blocks p)
    (hFit : p.Fit)
    (hNotBack : p ≠ .back)
    (events : List CallEvent) :
    s.Plays events (perform y.opening (p.course events)) := by
  cases p with
  | back => exact absurd rfl hNotBack
  | leaf action endsCall =>
      cases hFit with
      | leaf hAction => exact plays_leaf hBlocks hAction
  | menu action choices =>
      have hLaid := laid_named hBlocks hFit
      have hAsk := fun b =>
        performs_ask (b := b) hLaid hFit events hLaid hFit
      cases hLaid with
      | @menu _ _ b _ _ hBlock hName hHolds hChoices =>
          cases hFit with
          | menu hAction hNe hKeys hFits =>
              refine ⟨b, ?_, ?_⟩
              · rw [entryBlock?_eq hBlocks]
                exact hBlock
              · rw [hHolds.stepsUnder_entry]
                apply performs_opening
                exact performs_actionSteps hAction
                  (hAsk b hBlock)

end Runs

end Layout

end CallFlow
