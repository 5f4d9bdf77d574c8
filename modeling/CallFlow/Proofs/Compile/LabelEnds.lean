import CallFlow.Proofs.Compile.Jumps
import CallFlow.Proofs.Compile.LabelOrder
import CallFlow.Proofs.Script.Visiting

/-
  The steps of every label end where the call is led on.

  A step of a flow is emitted as one instruction, which ends
  its label unless the step can branch.  So what stands before
  the last step of a label lets the call go on, and the last
  one jumps, ends the call, or asks.  Every label of a block
  is that of something that the caller can do where the block
  asks, and every nested menu is jumped to from the one above
  it.  So a call comes to each step of a script, and never to
  the end of a label.

  Main declarations:
    * `Node.Closes`
    * `Layout.BlockOf.runsTo`
    * `Compiler.closed_script`
    * `Compiler.visits_stepsUnder`
    * `Compiler.labels_end`
-/

namespace CallFlow

/-
  Whether an instruction may be the last one under a label of
  the block of a node.  A menu that has read no digits waits
  for one, and everything else ends the label.
-/
def Node.Closes
    (n : Node)
    (o : Options)
    (l : Label)
    (i : Instr) : Prop :=
  if l = .entry ∧ n.opensMenu = true ∧ n.kind ≠ .collect then
    i = .waitForDigit o.digitTimeout
  else i.endsLabel = true

/- Such an instruction does not let the call just go on. -/
theorem Node.Closes.not_goesOn
    {n : Node}
    {o : Options}
    {l : Label}
    {i : Instr}
    (h : n.Closes o l i) : ¬ i.GoesOn := by
  intro hGoes
  unfold Node.Closes at h
  split at h
  · rw [h] at hGoes
    cases hGoes.isAction
  · rw [hGoes.endsLabel] at h
    cases h

/- A node opens a menu as its flow says. -/
theorem Flow.opensMenu_of_get?
    {t : Flow}
    {id : String}
    {n : Node}
    (h : t.get? id = some n) :
    t.opensMenu id = n.opensMenu := by
  unfold Flow.opensMenu
  rw [h]

/- A step that can branch lets the call go on. -/
theorem Emitter.Makes.goesOn
    {kind : StepKind}
    {i : Instr}
    (h : Makes kind i)
    (hBranching : kind.branching = true) : i.GoesOn := by
  refine ⟨h.isAction, ?_⟩
  rw [h.endsLabel_eq, hBranching]
  rfl

namespace Layout

variable {y : Layout}
variable {name : String}
variable {action : List Instr}
variable {choices : List (Option Key × Plan)}

------------------------------------------------------------
-- Steps
------------------------------------------------------------

/- Plain steps let the call go on if their actions do. -/
private theorem goesOn_of_mem_map_plain
    {l : Label}
    (hAction : ∀ i ∈ action, i.GoesOn) :
    ∀ st ∈ action.map (plain l), st.instr.GoesOn := by
  intro st hst
  rcases List.mem_map.mp hst with ⟨i, hi, rfl⟩
  exact hAction i hi

/- So does the opening of a call. -/
private theorem goesOn_of_mem_opening
    (y : Layout) :
    ∀ st ∈ y.opening.map (plain .entry),
      st.instr.GoesOn := by
  apply goesOn_of_mem_map_plain
  unfold opening
  refine List.forall_mem_cons.mpr ⟨⟨rfl, rfl⟩, ?_⟩
  cases y.options.answerWait with
  | none => exact List.forall_mem_nil _
  | some seconds =>
      rw [List.forall_mem_singleton]
      exact ⟨rfl, rfl⟩

/- What follows a bad choice ends with a jump. -/
private theorem runsTo_retrySteps
    {l : Label}
    (hAction : ∀ i ∈ action, i.GoesOn) :
    RunsTo (fun i => i.endsLabel = true)
      (retrySteps name l action) := by
  unfold retrySteps
  refine RunsTo.append ?_ (RunsTo.single rfl)
  split
  · exact goesOn_of_mem_map_plain hAction
  · exact List.forall_mem_nil _

/- An action of one instruction, with an end if it has none. -/
private theorem runsTo_ended
    {st last : Step}
    (hAction : st.instr.isAction = true)
    (hLast : last.instr.endsLabel = true) :
    RunsTo (fun i => i.endsLabel = true)
      ([st] ++ if st.instr.endsLabel then [] else [last]) := by
  by_cases hEnds : st.instr.endsLabel = true
  · rw [if_pos hEnds, List.append_nil]
    exact RunsTo.single hEnds
  · rw [if_neg hEnds]
    refine RunsTo.append ?_ (RunsTo.single hLast)
    rw [List.forall_mem_singleton]
    exact ⟨hAction, Bool.eq_false_iff.mpr hEnds⟩

/- A choice ends by itself, with the call, or with a jump. -/
private theorem runsTo_choiceSteps
    {c : Option Key × Plan}
    (hLeaf :
      ∀ action endsCall, c.2 = .leaf action endsCall →
        ∃ i, action = [i] ∧ i.isAction = true) :
    RunsTo (fun i => i.endsLabel = true)
      (y.choiceSteps name c) := by
  rcases c with ⟨key, p⟩
  cases p with
  | menu action choices => exact RunsTo.single rfl
  | back => exact RunsTo.single rfl
  | leaf action endsCall =>
      rcases hLeaf action endsCall rfl with ⟨i, rfl, hi⟩
      apply runsTo_ended hi
      cases endsCall <;> rfl

/- Entering a menu ends with the step that asks. -/
private theorem runsTo_asking
    {kind : StepKind}
    {i : Instr}
    {opening : List Step}
    (hMakes : Emitter.Makes kind i)
    (hBranching : kind.branching = true)
    (hOpening : ∀ st ∈ opening, st.instr.GoesOn) :
    RunsTo
      (fun j =>
        if kind = .collect then j.endsLabel = true
        else j = .waitForDigit y.options.digitTimeout)
      (opening ++ (actionSteps [i] ++ [y.askStep [i]])) := by
  refine RunsTo.append hOpening (RunsTo.append ?_ ?_)
  · intro st hst
    rw [List.mem_singleton.mp hst]
    exact hMakes.goesOn hBranching
  · apply RunsTo.single
    -- The other three kinds cannot branch.
    cases hMakes with
    | playback => rfl
    | background => rfl
    | collect => rfl
    | agent => cases hBranching
    | number => cases hBranching
    | hangup => cases hBranching

/- A root that is no menu ends the call. -/
private theorem runsTo_leafSteps
    {i : Instr}
    (hAction : i.isAction = true) :
    RunsTo (fun j => j.endsLabel = true)
      (y.opening.map (plain .entry) ++ leafSteps [i]) :=
  RunsTo.append (goesOn_of_mem_opening y)
    (runsTo_ended hAction rfl)

------------------------------------------------------------
-- Blocks
------------------------------------------------------------

variable {t : Flow}
variable {o : Options}
variable {r : Resolver}
variable {e : List (Option Key) × String}
variable {b : Block}

/- The action of a node is one instruction of its kind. -/
private theorem exists_makes_of_charts
    {id : String}
    {p : Plan}
    (h : t.Charts (.withOptions o) r id p) :
    ∃ n i, t.get? id = some n ∧ p.action = [i] ∧
      Emitter.Makes n.kind i := by
  rcases h.exists_node with ⟨n, hNode, hEmits⟩
  rw [Compiler.emitters_withOptions] at hEmits
  rcases Emitter.exists_makes hEmits with ⟨i, hOne, hMakes⟩
  exact ⟨n, i, hNode, hOne, hMakes⟩

/- So is that of a leaf among the choices of a menu. -/
private theorem exists_isAction_of_choice?
    {menu : String}
    (h : t.Charts (.withOptions o) r menu
      (.menu action choices))
    {key : Option Key}
    {p : Plan}
    (hChoice : Plan.choice? choices key = some p)
    {action' : List Instr}
    {endsCall : Bool}
    (hLeaf : p = .leaf action' endsCall) :
    ∃ i, action' = [i] ∧ i.isAction = true := by
  subst hLeaf
  rcases h.of_mem_choices (Plan.mem_of_choice? hChoice) with
    hBack | ⟨c, hBelow⟩
  · cases hBack
  · rcases exists_makes_of_charts hBelow with
      ⟨n, i, -, hOne, hMakes⟩
    exact ⟨i, hOne, hMakes.isAction⟩

/- Each label of a menu but the entry is left in the end. -/
private theorem HoldsMenu.runsTo_of_ne_entry
    {opening : List Step}
    (h : y.HoldsMenu b opening action choices)
    (hKeys : (choices.map (·.1)).Nodup)
    (hAction : ∀ i ∈ action, i.GoesOn)
    (hLeaf :
      ∀ key p, Plan.choice? choices key = some p →
        ∀ action endsCall, p = .leaf action endsCall →
          ∃ i, action = [i] ∧ i.isAction = true)
    {l : Label}
    (hLabel : l ∈ b.labels)
    (hNe : l ≠ .entry) :
    RunsTo (fun i => i.endsLabel = true)
      (b.stepsUnder l) := by
  cases l with
  | entry => exact absurd rfl hNe
  | digit k =>
      rw [Block.mem_labels_iff, h.stepsUnder_digit hKeys]
        at hLabel
      rw [h.stepsUnder_digit hKeys]
      cases hChoice : Plan.choice? choices (some k) with
      | none =>
          rw [hChoice] at hLabel
          exact absurd rfl hLabel
      | some p =>
          exact runsTo_choiceSteps (hLeaf (some k) p hChoice)
  | invalid =>
      rw [h.stepsUnder_invalid hKeys]
      cases hChoice : Plan.choice? choices none with
      | none => exact runsTo_retrySteps hAction
      | some p =>
          exact runsTo_choiceSteps (hLeaf none p hChoice)
  | timeout =>
      rw [h.stepsUnder_timeout]
      exact runsTo_retrySteps hAction

/- The steps of a root that is no menu stand at its entry. -/
private theorem stepsUnder_of_arranged_entry
    (h : b.Arranged [.entry]) :
    b.stepsUnder .entry = b.steps := by
  have hOne : b.groups = [b.stepsUnder .entry] := h.groups_eq
  rw [← b.flatten_groups, hOne]
  simp

/-
  The steps under each label of a block of a script run to a
  last one that closes the label.
-/
theorem BlockOf.runsTo
    (hSound : t.Sound)
    (hTour : e ∈ t.tour)
    (hOptions : y.options = o)
    (h : y.BlockOf t (.withOptions o) r e b) :
    ∃ n, t.get? e.2 = some n ∧
      ∀ l ∈ b.labels,
        RunsTo (n.Closes o l) (b.stepsUnder l) := by
  have hLabelled := h.labelsOf hSound hTour
  cases h with
  | @menu opening action choices hName hChart hOpening
      hHolds =>
      rcases exists_makes_of_charts hChart with
        ⟨n, i, hNode, hOne, hMakes⟩
      change action = [i] at hOne
      subst hOne
      have hMenu : n.opensMenu = true := by
        rw [← Flow.opensMenu_of_get? hNode]
        exact hChart.opensMenu_menu
      have hBranching := Outline.branching_of_opensMenu hMenu
      have hAction : ∀ j ∈ [i], j.GoesOn := by
        rw [List.forall_mem_singleton]
        exact hMakes.goesOn hBranching
      refine ⟨n, hNode, fun l hLabel => ?_⟩
      by_cases hEntry : l = .entry
      · subst hEntry
        have hOpens : ∀ st ∈ opening, st.instr.GoesOn := by
          rw [hOpening]
          split
          · exact goesOn_of_mem_opening y
          · exact List.forall_mem_nil _
        rw [hHolds.stepsUnder_entry]
        refine (runsTo_asking hMakes hBranching hOpens).imp
          fun j hj => ?_
        unfold Node.Closes
        rw [hOptions] at hj
        by_cases hCollect : n.kind = .collect
        · rw [if_pos hCollect] at hj
          rwa [if_neg fun hMust => hMust.2.2 hCollect]
        · rw [if_neg hCollect] at hj
          rwa [if_pos ⟨rfl, hMenu, hCollect⟩]
      · refine (hHolds.runsTo_of_ne_entry
          hChart.ordered.nodup_keys hAction
          (fun key p hChoice _ _ =>
            exists_isAction_of_choice? hChart hChoice)
          hLabel hEntry).imp fun j hj => ?_
        unfold Node.Closes
        rwa [if_neg fun hMust => hEntry hMust.1]
  | @leaf action endsCall hName hChart hFirst hSteps =>
      rcases exists_makes_of_charts hChart with
        ⟨n, i, hNode, hOne, hMakes⟩
      change action = [i] at hOne
      subst hOne
      have hLeaf : t.opensMenu e.2 = false :=
        hChart.opensMenu_leaf
      cases hLabelled with
      | menu hMenu =>
          rw [hLeaf] at hMenu
          cases hMenu
      | leaf _ hRoot hArranged =>
          refine ⟨n, hNode, fun l hLabel => ?_⟩
          rw [hArranged.labels_eq, List.mem_singleton]
            at hLabel
          subst hLabel
          rw [stepsUnder_of_arranged_entry hArranged, hSteps]
          refine (runsTo_leafSteps hMakes.isAction).imp
            fun j hj => ?_
          unfold Node.Closes
          rw [if_neg]
          · exact hj
          · rintro ⟨-, hMenu, -⟩
            rw [← Flow.opensMenu_of_get? hNode, hLeaf]
              at hMenu
            cases hMenu

/- The name for a longer way goes on from that for the way. -/
theorem blockName_concat
    (name : String)
    (way : List (Option Key))
    (key : Option Key) :
    blockName name (way ++ [key]) =
      nestedName (blockName name way) key := by
  induction way generalizing name with
  | nil => simp [blockName, nestedName, String.append_assoc]
  | cons key' way ih =>
      rw [List.cons_append, blockName_cons, blockName_cons, ih]

------------------------------------------------------------
-- Answers
------------------------------------------------------------

/- A menu has a label for all that a caller can do. -/
private theorem answerLabel_mem_labels
    {keys : List Key}
    (h :
      b.Arranged
        (.entry :: keys.map .digit ++ [.invalid, .timeout]))
    (a : CallEvent) : b.answerLabel a ∈ b.labels := by
  have hInvalid : Label.invalid ∈ b.labels := by
    rw [h.labels_eq]
    simp
  have hTimeout : Label.timeout ∈ b.labels := by
    rw [h.labels_eq]
    simp
  cases a with
  | key k =>
      show (if b.labels.contains (.digit k) then Label.digit k
        else Label.invalid) ∈ b.labels
      split
      · rename_i hKey
        exact List.contains_iff_mem.mp hKey
      · exact hInvalid
  | other => exact hInvalid
  | silence => exact hTimeout

/- Every label but the entry is that of something done. -/
private theorem exists_answerLabel_eq
    {l : Label}
    (hLabel : l ∈ b.labels)
    (hNe : l ≠ .entry) : ∃ a, b.answerLabel a = l := by
  cases l with
  | entry => exact absurd rfl hNe
  | digit k =>
      exact
        ⟨.key k, if_pos (List.contains_iff_mem.mpr hLabel)⟩
  | invalid => exact ⟨.other, rfl⟩
  | timeout => exact ⟨.silence, rfl⟩

/- A root that is no menu asks for nothing. -/
private theorem asks_of_mem_leafSteps
    {i : Instr}
    (hAction : i.isAction = true)
    {st : Step}
    (hst :
      st ∈ y.opening.map (plain .entry) ++ leafSteps [i]) :
    st.instr.asks = false := by
  rcases List.mem_append.mp hst with hOpening | hLeaf
  · exact Instr.asks_of_isAction
      (goesOn_of_mem_opening y st hOpening).isAction
  · rcases List.mem_append.mp hLeaf with hHere | hEnd
    · rw [List.mem_singleton.mp hHere]
      exact Instr.asks_of_isAction hAction
    · split at hEnd
      · cases hEnd
      · rw [List.mem_singleton.mp hEnd]
        rfl

/- A block that asks has a label for every answer. -/
theorem BlockOf.answers
    (hSound : t.Sound)
    (hTour : e ∈ t.tour)
    (h : y.BlockOf t (.withOptions o) r e b)
    {st : Step}
    (hst : st ∈ b.steps)
    (hAsks : st.instr.asks = true)
    (a : CallEvent) : b.answerLabel a ∈ b.labels := by
  have hLabelled := h.labelsOf hSound hTour
  cases h with
  | menu hName hChart =>
      cases hLabelled with
      | menu _ _ hArranged =>
          exact answerLabel_mem_labels hArranged a
      | leaf hLeaf =>
          rw [hChart.opensMenu_menu] at hLeaf
          cases hLeaf
  | @leaf action _ _ hChart _ hSteps =>
      rcases exists_makes_of_charts hChart with
        ⟨n, i, -, hOne, hMakes⟩
      change action = [i] at hOne
      subst hOne
      rw [hSteps] at hst
      rw [asks_of_mem_leafSteps hMakes.isAction hst] at hAsks
      cases hAsks

end Layout

namespace Compiler

variable {t : Flow}
variable {o : Options}
variable {r : Resolver}
variable {c : Compilation}

/- The labels of each block run to what closes them. -/
private theorem forall₂_runsTo
    (h : (withOptions o).compile t r = .ok c) :
    List.Forall₂
      (fun e b =>
        ∃ n, t.get? e.2 = some n ∧
          ∀ l ∈ b.labels,
            RunsTo (n.Closes o l) (b.stepsUnder l))
      t.tour c.script.blocks := by
  rcases exists_chart h with ⟨-, hSound, -⟩
  refine ((List.forall₂_and_left _ _).mpr
    ⟨fun e he => he, forall₂_blockOf h⟩).imp ?_
  rintro e b ⟨hTour, hOf⟩
  exact hOf.runsTo hSound hTour rfl

/- A jump that lands leads somewhere. -/
private theorem isSome_landing?_of_lands
    {s : Script}
    {b target : Block}
    {name : String}
    {l : Label}
    {tag : Option Tag}
    (h : s.Lands b name l tag target) :
    (s.landing? name l tag).isSome = true := by
  have hBlock : s.block? name = some target := by
    unfold Script.block?
    rw [← List.head?_filter, h.only]
    rfl
  have hSteps : target.stepsFrom l tag ≠ [] := by
    cases tag with
    | none => exact h.entered
    | some g =>
        have hCount := h.tagged g rfl
        have hSome : 0 < (target.stepsUnder l).countP
            fun st => st.tag == some g := by omega
        rcases List.countP_pos_iff.mp hSome with
          ⟨st, hst, hTag⟩
        intro hNil
        have hNone := List.dropWhile_eq_nil_iff.mp hNil st hst
        rw [beq_iff_eq.mp hTag] at hNone
        simp at hNone
  rw [Script.landing?_eq_some hBlock rfl hSteps]
  rfl

/- Every jump of a compiled script leads somewhere. -/
private theorem isSome_landing?
    (h : (withOptions o).compile t r = .ok c)
    {b : Block}
    (hb : b ∈ c.script.blocks)
    {st : Step}
    (hst : st ∈ b.steps)
    {name : String}
    {l : Label}
    {tag : Option Tag}
    (hGoto : st.instr = .goto name l tag) :
    (c.script.landing? name l tag).isSome = true := by
  have hSound := Flow.sound_of_clean (clean_of_compile h)
  rcases compile_eq_ok h with
    ⟨-, -, -, x, p, hOutline, -, hPlan, hScript⟩
  rcases hSound.exists_outline? with
    ⟨x', hOutline', -, hShows⟩
  rw [hOutline] at hOutline'
  cases hOutline'
  have hFit := Outline.fit_of_plan hSound hShows hPlan
  rcases Layout.exists_lands
    (congrArg Script.blocks hScript) hFit hb hst hGoto with
    ⟨target, hLands⟩
  exact isSome_landing?_of_lands hLands

/- A compiled script never leaves a call without a step. -/
theorem closed_script
    (h : (withOptions o).compile t r = .ok c) :
    c.script.Closed := by
  rcases exists_chart h with ⟨-, hSound, -⟩
  refine
    ⟨?_, ?_, ?_, fun b hb st hst name l tag hGoto =>
      isSome_landing? h hb hst hGoto⟩
  · intro b hb
    rcases exists_blockOf h hb with ⟨e, hOf⟩
    exact hOf.runs_eq_labels.2.2
  · intro b hb l hLabel
    rcases exists_of_forall₂ (forall₂_runsTo h) hb with
      ⟨e, -, n, -, hRuns⟩
    exact (hRuns l hLabel).imp fun i hi => hi.not_goesOn
  · intro b hb st hst hAsks a
    rcases exists_of_forall₂ (forall₂_blockOf h) hb with
      ⟨e, hTour, hOf⟩
    exact hOf.answers hSound hTour hst hAsks a

------------------------------------------------------------
-- Coming to Every Step
------------------------------------------------------------

/- Blocks with one name are one. -/
private theorem eq_of_name_eq
    {k : Compiler}
    (h : k.compile t r = .ok c)
    {b b' : Block}
    (hb : b ∈ c.script.blocks)
    (hb' : b' ∈ c.script.blocks)
    (hName : b.name = b'.name) : b = b' :=
  List.inj_on_of_nodup_map (nodup_block_names h) hb hb' hName

/- A block is found by its name. -/
private theorem block?_of_mem
    {k : Compiler}
    (h : k.compile t r = .ok c)
    {b : Block}
    (hb : b ∈ c.script.blocks) :
    c.script.block? b.name = some b := by
  cases hFind : c.script.block? b.name with
  | none =>
      have hNone := List.find?_eq_none.mp hFind b hb
      simp at hNone
  | some b' =>
      have hName : b'.name = b.name := by
        simpa using List.find?_some hFind
      rw [eq_of_name_eq h (List.mem_of_find?_eq_some hFind) hb
        hName]

/- A call that enters a block comes to all its labels. -/
private theorem visits_of_entry
    (h : (withOptions o).compile t r = .ok c)
    {y : Layout}
    {e : List (Option Key) × String}
    (hTour : e ∈ t.tour)
    {b : Block}
    (hb : b ∈ c.script.blocks)
    (hOf : y.BlockOf t (withOptions o) r e b)
    (hEntry : c.script.Visits b (b.stepsUnder .entry))
    {l : Label}
    (hLabel : l ∈ b.labels) :
    c.script.Visits b (b.stepsUnder l) := by
  by_cases hNe : l = .entry
  · rw [hNe]
    exact hEntry
  rcases exists_chart h with ⟨-, hSound, -⟩
  have hLabelled := hOf.labelsOf hSound hTour
  have hRuns := (closed_script h).runs b hb .entry
    ((closed_script h).entered b hb)
  cases hOf with
  | @menu opening action choices hName hChart hOpening
      hHolds =>
      -- The call comes to where the menu asks, and from there
      -- to the label of everything that can be done.
      have hAsk :
          b.stepsUnder .entry =
            (opening ++ Layout.actionSteps action) ++
              y.askStep action :: [] := by
        rw [hHolds.stepsUnder_entry]
        simp
      rw [hAsk] at hEntry hRuns
      rcases Layout.exists_answerLabel_eq hLabel hNe with
        ⟨a, rfl⟩
      exact (hEntry.of_runsTo hRuns).choose
        (Layout.asks_askStep y action) a
  | leaf hName hChart hFirst hSteps =>
      cases hLabelled with
      | menu hMenu =>
          rw [hChart.opensMenu_leaf] at hMenu
          cases hMenu
      | leaf _ _ hArranged =>
          rw [hArranged.labels_eq, List.mem_singleton]
            at hLabel
          exact absurd hLabel hNe

/- A way leads to a menu from the one before it. -/
private theorem follow?_concat
    (t : Flow)
    (menu : String)
    (way : List (Option Key))
    (key : Option Key) :
    t.follow? menu (way ++ [key]) =
      (t.follow? menu way).bind fun m => t.submenu? m key := by
  induction way generalizing menu with
  | nil =>
      show (t.submenu? menu key).bind some =
        t.submenu? menu key
      exact Option.bind_fun_some _
  | cons key' way ih =>
      show (t.submenu? menu key').bind _ =
        ((t.submenu? menu key').bind _).bind _
      rw [Option.bind_assoc]
      congr 1
      funext m
      exact ih m

/- A menu jumps to the block of a menu in it. -/
private theorem stepsUnder_choiceLabel
    {y : Layout}
    {way : List (Option Key)}
    {menu x : String}
    {key : Option Key}
    (hSub : t.submenu? menu key = some x)
    {b : Block}
    (hOf :
      y.BlockOf t (withOptions o) r (way, menu) b) :
    b.stepsUnder (Layout.choiceLabel key) =
      [Layout.plain (Layout.choiceLabel key)
        (.goto (Layout.nestedName b.name key) .entry none)]
    := by
  rcases Flow.submenu?_eq_some_iff.mp hSub with
    ⟨hMenu, hSelects, hInner⟩
  cases hOf with
  | leaf hName hChart hFirst hSteps =>
      rw [hChart.opensMenu_leaf] at hMenu
      cases hMenu
  | @menu opening action choices hName hChart hOpening
      hHolds =>
      rcases hChart.of_choice? key with
        ⟨x', p, hSelects', hChoice, hBelow⟩ | ⟨hNone, -⟩
      · rw [hSelects] at hSelects'
        cases hSelects'
        cases p with
        | back => cases hBelow
        | leaf action' endsCall =>
            rw [hBelow.opensMenu_leaf] at hInner
            cases hInner
        | menu action' choices' =>
            have hKeys := hChart.ordered.nodup_keys
            cases key with
            | none =>
                show b.stepsUnder .invalid = _
                rw [hHolds.stepsUnder_invalid hKeys, hChoice]
                rfl
            | some k =>
                show b.stepsUnder (.digit k) = _
                rw [hHolds.stepsUnder_digit hKeys, hChoice]
                rfl
      · rw [hSelects] at hNone
        cases hNone

/-
  A call comes to the entry of each block: of the first one
  when it starts, and of every other one from the block of the
  menu that the way to it comes from.  The induction is on
  the way, from its end.
-/
private theorem visits_entry
    (h : (withOptions o).compile t r = .ok c)
    {way : List (Option Key)}
    {x : String}
    (hTour : (way, x) ∈ t.tour)
    {b : Block}
    (hb : b ∈ c.script.blocks)
    (hOf :
      (Layout.mk o ((withOptions o).topName t)).BlockOf t
        (withOptions o) r (way, x) b) :
    c.script.Visits b (b.stepsUnder .entry) := by
  rcases exists_chart h with ⟨-, hSound, -⟩
  have hClosed := closed_script h
  induction way using List.reverseRecOn generalizing x b with
  | nil =>
      rcases exists_blocks h with
        ⟨first, rest, hBlocks, hFirst, -⟩
      have hMem : first ∈ c.script.blocks := by
        rw [hBlocks]
        exact List.mem_cons_self
      have hName : b.name = first.name :=
        hOf.name_eq.trans hFirst.name_eq.symm
      rw [eq_of_name_eq h hb hMem hName]
      apply Script.Visits.start
      unfold Script.entryBlock?
      rw [hBlocks]
      rfl
  | append_singleton way key ih =>
      have hWay := hSound.mem_tour_iff.mp hTour
      rw [follow?_concat] at hWay
      rcases Option.bind_eq_some_iff.mp hWay with
        ⟨menu, hMenu, hSub⟩
      have hBefore := hSound.mem_tour_iff.mpr hMenu
      rcases exists_of_forall₂ (forall₂_blockOf h).flip hBefore
        with ⟨b', hb', hOf'⟩
      have hGoto := stepsUnder_choiceLabel hSub hOf'
      have hLabel : Layout.choiceLabel key ∈ b'.labels := by
        rw [Block.mem_labels_iff, hGoto]
        exact List.cons_ne_nil _ _
      have hVisits := visits_of_entry h hBefore hb' hOf'
        (ih hBefore hb' hOf') hLabel
      rw [hGoto] at hVisits
      have hName :
          b.name = Layout.nestedName b'.name key := by
        rw [hOf.name_eq, hOf'.name_eq]
        exact Layout.blockName_concat _ way key
      refine hVisits.jump rfl ?_
      rw [← hName]
      exact Script.landing?_eq_some (block?_of_mem h hb) rfl
        (hClosed.runs b hb _ (hClosed.entered b hb)).ne_nil

/-
  A call comes to all steps of every label of a script.
-/
theorem visits_stepsUnder
    (h : (withOptions o).compile t r = .ok c)
    {b : Block}
    (hb : b ∈ c.script.blocks)
    {l : Label}
    (hLabel : l ∈ b.labels) :
    c.script.Visits b (b.stepsUnder l) := by
  rcases exists_of_forall₂ (forall₂_blockOf h) hb with
    ⟨⟨way, x⟩, hTour, hOf⟩
  exact visits_of_entry h hTour hb hOf
    (visits_entry h hTour hb hOf) hLabel

/-
  In every block of a script, the steps of a label run to a
  last one.  At the entry of a menu that has read no digits it
  waits for a digit, and elsewhere it ends the label.  No step
  before it does, so a call always has a step to go on with
  and no run is lost, and there is no step that no call comes
  to.
-/
theorem labels_end
    (h : (withOptions o).compile t r = .ok c) :
    List.Forall₂
        (fun e b =>
          ∃ n, t.get? e.2 = some n ∧
            ∀ l ∈ b.labels,
              ∃ before st,
                b.stepsUnder l = before ++ [st] ∧
                (∀ st' ∈ before,
                  st'.instr.endsLabel = false) ∧
                (if l = .entry ∧ n.opensMenu = true ∧
                    n.kind ≠ .collect then
                  st.instr = .waitForDigit o.digitTimeout
                else st.instr.endsLabel = true))
        t.tour c.script.blocks ∧
      (∀ b steps, c.script.Visits b steps → steps ≠ []) ∧
      (∀ events c', c.script.Plays events c' →
        c'.ending ≠ .lost) ∧
      ∀ b ∈ c.script.blocks, ∀ l ∈ b.labels,
        ∀ before st rest,
          b.stepsUnder l = before ++ st :: rest →
            c.script.Visits b (st :: rest) := by
  have hClosed := closed_script h
  refine
    ⟨?_, fun b steps hVisits => hVisits.ne_nil hClosed,
      fun events c' hPlays => hPlays.ending_ne_lost hClosed,
      ?_⟩
  · refine (forall₂_runsTo h).imp ?_
    rintro e b ⟨n, hNode, hRuns⟩
    refine ⟨n, hNode, fun l hLabel => ?_⟩
    rcases hRuns l hLabel with
      ⟨before, st, hSteps, hBefore, hLast⟩
    exact
      ⟨before, st, hSteps,
        fun st' hst' => (hBefore st' hst').endsLabel, hLast⟩
  · intro b hb l hLabel before st rest hSteps
    have hVisits := visits_stepsUnder h hb hLabel
    have hRuns := hClosed.runs b hb l hLabel
    rw [hSteps] at hVisits hRuns
    exact hVisits.of_runsTo hRuns

/-
  A menu that plays audio, with a menu that reads digits, a
  step that leads back to the root, and one that ends the call
  by itself as the fallback.
-/
theorem labels_end_collecting :
    let set (name : String) (v : Value) : Patch :=
      { Patch.empty with
        settings := NameMap.ofList [(name, some v)] }
    let t := (Flow.new "Hotline").run
      [.update Flow.firstRootId (set "audio" (.text "hello")),
        .add Flow.firstRootId .collect "Code"
          (some (.digit 1)),
        .update "n1" (set "maxDigits" (.integer 4)),
        .add "n1" .background "News" (some (.digit 5)),
        .update "n2" (set "audio" (.text "news")),
        .add "n1" .hangup "Bye" none]
    let k := withOptions .standard
    ∃ c, k.compile t .direct = .ok c ∧
      (c.script.blocks.map fun b =>
        b.labels.map fun l => (l, b.lastUnder? l)) =
        [[(.entry, some (.waitForDigit 10)),
          (.digit (.digit 1),
            some (.goto "ivr-hotline-1" .entry none)),
          (.invalid,
            some (.goto "ivr-hotline" .entry (some .collect))),
          (.timeout,
            some
              (.goto "ivr-hotline" .entry (some .collect)))],
        [(.entry, some (.dispatch "digits")),
          (.digit (.digit 5),
            some (.goto "ivr-hotline" .entry (some .start))),
          (.invalid, some (.hangup none)),
          (.timeout,
            some
              (.goto "ivr-hotline-1" .entry
                (some .start)))]] ∧
      (∀ b steps, c.script.Visits b steps → steps ≠ []) ∧
      ∀ b ∈ c.script.blocks, ∀ l ∈ b.labels,
        ∀ before st rest,
          b.stepsUnder l = before ++ st :: rest →
            c.script.Visits b (st :: rest) := by
  intro set t k
  have hLast :
      (k.compile t .direct).toOption.map (fun c =>
          c.script.blocks.map fun b =>
            b.labels.map fun l => (l, b.lastUnder? l)) =
        some
          [[(.entry, some (.waitForDigit 10)),
            (.digit (.digit 1),
              some (.goto "ivr-hotline-1" .entry none)),
            (.invalid,
              some
                (.goto "ivr-hotline" .entry (some .collect))),
            (.timeout,
              some
                (.goto "ivr-hotline" .entry
                  (some .collect)))],
          [(.entry, some (.dispatch "digits")),
            (.digit (.digit 5),
              some
                (.goto "ivr-hotline" .entry (some .start))),
            (.invalid, some (.hangup none)),
            (.timeout,
              some
                (.goto "ivr-hotline-1" .entry
                  (some .start)))]] := by
    decide +kernel
  rcases exists_ok_of_toOption_map hLast with
    ⟨c, hCompile, hSeen⟩
  rcases labels_end hCompile with ⟨-, hGoesOn, -, hAll⟩
  exact ⟨c, hCompile, hSeen, hGoesOn, hAll⟩

end Compiler

end CallFlow
