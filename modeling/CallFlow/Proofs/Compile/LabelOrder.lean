import CallFlow.Proofs.Compile.Grouping
import CallFlow.Proofs.Dialplan.StepLines
import CallFlow.Proofs.Script.Texts

/-
  The labels of a block are in order, and each has its steps
  in one place.

  A menu has the entry first, then the keys of its children
  and of the way back in key order, then other input, then
  none.  This is the order in which its groups of steps are
  put together, and no group is empty, whatever is emitted for
  the nodes.  So a text of a script begins each label of a
  block once.  A call is answered by the first step of the
  first block, and by no other step unless an emitter asks for
  it.

  Main declarations:
    * `Block.Arranged`
    * `Layout.Grouped.arranged`
    * `Flow.ListsKeys`
    * `Layout.LabelsOf`
    * `Compiler.AddsNoAnswer`
    * `Compiler.labels_in_order`
-/

namespace CallFlow

------------------------------------------------------------
-- Arranged Steps
------------------------------------------------------------

/-
  A block with some labels, in this order.  The steps of each
  label follow each other, and there are some.
-/
structure Block.Arranged
    (b : Block)
    (labels : List Label) : Prop where
  labels_eq : b.labels = labels
  distinct : labels.Nodup
  filled : ∀ l ∈ labels, b.stepsUnder l ≠ []
  groups_eq : b.groups = labels.map b.stepsUnder

namespace Layout

variable {y : Layout}
variable {b : Block}
variable {groups : List (Label × List Step)}

/- No group goes on with the one before it. -/
private theorem Grouped.apart
    (h : Grouped groups) :
    (groups.map (·.2)).IsChain fun steps steps' =>
      ∃ hs hs',
        ((steps.getLast hs).label ==
          (steps'.head hs').label) = false := by
  have hPairs := List.pairwise_map.mp h.distinct
  refine List.Pairwise.isChain
    (List.pairwise_map.mpr (hPairs.imp_of_mem ?_))
  intro g g' hg hg' hNe
  refine ⟨h.filled g hg, h.filled g' hg', ?_⟩
  rw [h.labelled g hg _ (List.getLast_mem _),
    h.labelled g' hg' _ (List.head_mem _)]
  exact beq_false_of_ne hNe

/- The groups are the longest runs of steps. -/
theorem Grouped.groups_eq
    (h : Grouped groups)
    (hSteps : b.steps = groups.flatMap (·.2)) :
    b.groups = groups.map (·.2) := by
  unfold Block.groups
  rw [hSteps, List.flatMap_def]
  refine List.splitBy_flatten ?_ ?_ h.apart
  · intro hEmpty
    rcases List.mem_map.mp hEmpty with ⟨g, hg, hNil⟩
    exact h.filled g hg hNil
  · intro steps hMem
    rcases List.mem_map.mp hMem with ⟨g, hg, rfl⟩
    refine List.Pairwise.isChain
      (List.pairwise_of_forall_mem_list ?_)
    intro st hst st' hst'
    rw [h.labelled g hg st hst, h.labelled g hg st' hst']
    exact beq_self_eq_true g.1

/- The steps under the label of a group are the group. -/
theorem Grouped.filter_label_eq
    (h : Grouped groups)
    {g : Label × List Step}
    (hg : g ∈ groups) :
    ((groups.flatMap (·.2)).filter fun st =>
      st.label == g.1) = g.2 := by
  induction groups with
  | nil => cases hg
  | cons d rest ih =>
      have hOthers : ∀ g' ∈ rest, g'.1 ≠ d.1 := by
        intro g' hg' hSame
        apply (List.nodup_cons.mp h.distinct).1
        exact List.mem_map.mpr ⟨g', hg', hSame⟩
      rw [List.flatMap_cons, List.filter_append]
      rcases List.mem_cons.mp hg with rfl | hLater
      · have hNone :
            ((rest.flatMap (·.2)).filter fun st =>
              st.label == g.1) = [] := by
          rw [List.filter_eq_nil_iff]
          intro st hst
          rcases List.mem_flatMap.mp hst with ⟨g', hg', hIn⟩
          rw [h.labelled g' (List.mem_cons_of_mem g hg') st
            hIn]
          simpa using hOthers g' hg'
        rw [hNone, List.append_nil]
        exact filter_label_eq_self
          (h.labelled g List.mem_cons_self)
      · have hNone :
            (d.2.filter fun st => st.label == g.1) = [] := by
          rw [List.filter_eq_nil_iff]
          intro st hst
          rw [h.labelled d List.mem_cons_self st hst]
          simpa using (hOthers g hLater).symm
        rw [hNone, List.nil_append]
        exact ih h.tail hLater

/- A block that is made of groups is arranged by them. -/
theorem Grouped.arranged
    (h : Grouped groups)
    (hSteps : b.steps = groups.flatMap (·.2)) :
    b.Arranged (groups.map (·.1)) := by
  have hUnder : ∀ g ∈ groups, b.stepsUnder g.1 = g.2 := by
    intro g hg
    unfold Block.stepsUnder
    rw [hSteps]
    exact h.filter_label_eq hg
  refine ⟨(h.runs_eq hSteps).2, h.distinct, ?_, ?_⟩
  · intro l hl
    rcases List.mem_map.mp hl with ⟨g, hg, rfl⟩
    rw [hUnder g hg]
    exact h.filled g hg
  · rw [h.groups_eq hSteps, List.map_map]
    exact List.map_congr_left fun g hg => (hUnder g hg).symm

------------------------------------------------------------
-- Keys of Menus
------------------------------------------------------------

variable {choices : List (Option Key × Plan)}

/- The labels of the choices that have a key. -/
private theorem map_choiceLabel
    (choices : List (Option Key × Plan)) :
    ((choices.filter fun c => c.1.isSome).map fun c =>
        choiceLabel c.1) =
      (choices.filterMap (·.1)).map .digit := by
  induction choices with
  | nil => rfl
  | cons c rest ih =>
      rcases c with ⟨key, p⟩
      cases key with
      | none => simpa using ih
      | some k => simpa [choiceLabel] using ih

/- The labels of the groups of a menu. -/
theorem map_fst_menuGroups
    (y : Layout)
    (opening : List Step)
    (name : String)
    (action : List Instr)
    (choices : List (Option Key × Plan)) :
    (y.menuGroups opening name action choices).map (·.1) =
      .entry :: (choices.filterMap (·.1)).map .digit ++
        [.invalid, .timeout] := by
  rw [← map_choiceLabel]
  simp [menuGroups]

end Layout

/-
  The keys that a menu is left with, in key order: those of
  its children, and that of the way back in a nested menu that
  offers one.
-/
structure Flow.ListsKeys
    (t : Flow)
    (o : Options)
    (menu : String)
    (keys : List Key) : Prop where
  ascending :
    keys.Pairwise fun key key' => key.rank < key'.rank
  mem_iff :
    ∀ key, key ∈ keys ↔
      (∃ c ∈ t.childIds menu,
        t.hasKey (some key) c = true) ∨
      (menu ≠ t.rootId ∧ t.offersReturn menu = true ∧
        key = o.returnKey)

namespace Layout

variable {y : Layout}
variable {t : Flow}
variable {k : Compiler}
variable {r : Resolver}
variable {b : Block}

/- A key of a choice is that of a child or leads back. -/
private theorem mem_keys_iff
    {menu : String}
    {action : List Instr}
    {choices : List (Option Key × Plan)}
    (h : t.Charts k r menu (.menu action choices))
    (key : Key) :
    key ∈ choices.filterMap (·.1) ↔
      (∃ c, t.childByKey? menu (some key) = some c) ∨
        t.returnsOn k.options menu (some key) = true := by
  have hMem :
      key ∈ choices.filterMap (·.1) ↔
        ∃ p, Plan.choice? choices (some key) = some p := by
    rw [List.mem_filterMap]
    constructor
    · rintro ⟨⟨_, p⟩, hc, rfl⟩
      exact ⟨p, Plan.choice?_of_mem h.ordered.nodup_keys hc⟩
    · rintro ⟨p, hChoice⟩
      exact ⟨(some key, p), Plan.mem_of_choice? hChoice, rfl⟩
  rw [hMem]
  rcases h.of_choice? (some key) with
    ⟨c, p, hSelects, hChoice, -⟩ | ⟨hNone, hChoice⟩
  · exact
      ⟨fun _ => Or.inl ⟨c, hSelects⟩, fun _ => ⟨p, hChoice⟩⟩
  · rw [hChoice, hNone]
    simp

/- The keys of the choices of a menu. -/
theorem listsKeys
    {menu : String}
    {action : List Instr}
    {choices : List (Option Key × Plan)}
    (hSound : t.Sound)
    (h : t.Charts k r menu (.menu action choices)) :
    t.ListsKeys k.options menu
      (choices.filterMap (·.1)) where
  ascending := by
    refine List.pairwise_filterMap.mpr (h.ordered.imp ?_)
    rintro ⟨_, p⟩ ⟨_, q⟩ hLess key rfl key' rfl
    exact hLess
  mem_iff := by
    intro key
    rw [mem_keys_iff h, Flow.returnsOn_iff, Option.some_inj]
    simp only [hSound.childByKey?_eq_some_iff]

/-
  How a block is labelled: as the menu at the end of the way,
  or with the entry alone if the root is no menu.
-/
inductive LabelsOf
    (t : Flow)
    (o : Options)
    (e : List (Option Key) × String)
    (b : Block) : Prop where
  | menu
      {keys : List Key}
      (hMenu : t.opensMenu e.2 = true)
      (hKeys : t.ListsKeys o e.2 keys)
      (hLabels :
        b.Arranged
          (.entry :: keys.map .digit ++ [.invalid, .timeout]))
  | leaf
      (hLeaf : t.opensMenu e.2 = false)
      (hRoot : e = ([], t.rootId))
      (hLabels : b.Arranged [.entry])

/- The labels of a block are those of its menu. -/
theorem BlockOf.labelsOf
    {e : List (Option Key) × String}
    (hSound : t.Sound)
    (hTour : e ∈ t.tour)
    (h : y.BlockOf t k r e b) :
    LabelsOf t k.options e b := by
  rcases e with ⟨way, id⟩
  cases h with
  | menu hName hChart hOpening hHolds =>
      have hArranged := Grouped.arranged
        (hHolds.grouped hChart.ordered.nodup_keys)
        hHolds.steps_eq
      rw [map_fst_menuGroups] at hArranged
      exact .menu hChart.opensMenu_menu
        (listsKeys hSound hChart) hArranged
  | @leaf action _ hName hChart hFirst hSteps =>
      have hWay : way = [] := hFirst
      subst hWay
      have hRoot : t.rootId = id :=
        Option.some.inj (hSound.mem_tour_iff.mp hTour)
      subst hRoot
      refine .leaf hChart.opensMenu_leaf rfl ?_
      apply (grouped_leaf y action).arranged
      rw [hSteps]
      simp

------------------------------------------------------------
-- Answering the Call
------------------------------------------------------------

/- Steps that do not answer the call. -/
def Unanswering
    (steps : List Step) : Prop :=
  ∀ st ∈ steps, st.instr ≠ .answer

variable {name : String}
variable {action : List Instr}
variable {choices : List (Option Key × Plan)}

/- Steps do not answer if neither of their parts does. -/
private theorem Unanswering.append
    {steps steps' : List Step}
    (h : Unanswering steps)
    (h' : Unanswering steps') :
    Unanswering (steps ++ steps') :=
  List.forall_mem_append.mpr ⟨h, h'⟩

/- An action that does not answer, under some label. -/
private theorem unanswering_map_plain
    (hAction : .answer ∉ action)
    (l : Label) : Unanswering (action.map (plain l)) := by
  intro st hst hAnswer
  rcases List.mem_map.mp hst with ⟨i, hi, rfl⟩
  exact hAction (hAnswer ▸ hi)

/- The same action where it can be entered again. -/
private theorem unanswering_actionSteps
    (hAction : .answer ∉ action) :
    Unanswering (actionSteps action) := by
  cases action with
  | nil => exact List.forall_mem_nil _
  | cons i rest =>
      rw [List.mem_cons, not_or] at hAction
      exact List.forall_mem_cons.mpr
        ⟨Ne.symm hAction.1,
          unanswering_map_plain hAction.2 .entry⟩

/- The action again, and the jump back to asking. -/
private theorem unanswering_retrySteps
    (hAction : .answer ∉ action)
    (l : Label) : Unanswering (retrySteps name l action) := by
  unfold retrySteps
  refine Unanswering.append ?_ (by simp [Unanswering, plain])
  split
  · exact unanswering_map_plain hAction l
  · exact List.forall_mem_nil _

/- A choice answers only if its own action does. -/
private theorem unanswering_choiceSteps
    {c : Option Key × Plan}
    (hLeaf :
      ∀ action endsCall, c.2 = .leaf action endsCall →
        .answer ∉ action) :
    Unanswering (y.choiceSteps name c) := by
  rcases c with ⟨key, p⟩
  unfold choiceSteps
  cases p with
  | menu action choices => simp [Unanswering, plain]
  | back => simp [Unanswering, plain, gotoTop]
  | leaf action endsCall =>
      refine Unanswering.append
        (unanswering_map_plain (hLeaf action endsCall rfl) _) ?_
      split
      · exact List.forall_mem_nil _
      · cases endsCall <;> simp [Unanswering, plain, gotoTop]

/- A menu answers only if one of its actions does. -/
private theorem unanswering_menuSteps
    (hAction : .answer ∉ action)
    (hLeaf :
      ∀ c ∈ choices, ∀ action endsCall,
        c.2 = .leaf action endsCall → .answer ∉ action) :
    Unanswering (y.menuSteps name action choices) := by
  have hChoice : ∀ c ∈ choices,
      Unanswering (y.choiceSteps name c) :=
    fun c hc => unanswering_choiceSteps (hLeaf c hc)
  have hAsk : Unanswering [y.askStep action] := by
    unfold askStep
    split <;> simp [Unanswering, plain]
  have hKeyed : Unanswering (y.keyedSteps name choices) := by
    intro st hst
    rcases List.mem_flatMap.mp hst with ⟨c, hc, hIn⟩
    exact hChoice c (List.mem_of_mem_filter hc) st hIn
  have hFallback :
      Unanswering
        (y.fallbackSteps name action choices) := by
    unfold fallbackSteps
    split
    · rename_i c hFound
      exact hChoice c
        (List.mem_of_mem_filter (List.mem_of_getLast? hFound))
    · exact unanswering_retrySteps hAction .invalid
  rw [menuSteps_eq]
  exact
    ((((unanswering_actionSteps hAction).append hAsk).append
      hKeyed).append hFallback).append
        (unanswering_retrySteps hAction .timeout)

/- A root that is no menu answers only if its action does. -/
private theorem unanswering_leafSteps
    (hAction : .answer ∉ action) :
    Unanswering (leafSteps action) := by
  refine (unanswering_actionSteps hAction).append ?_
  split
  · exact List.forall_mem_nil _
  · simp [Unanswering, plain]

end Layout

namespace Compiler

variable {t : Flow}
variable {k : Compiler}
variable {r : Resolver}
variable {c : Compilation}

/- No emitter answers the call for a node of the flow. -/
def AddsNoAnswer
    (k : Compiler)
    (t : Flow)
    (r : Resolver) : Prop :=
  ∀ id n action, t.get? id = some n →
    k.emitters n.kind n (n.heard r) = .ok action →
      .answer ∉ action

/- The usual emitters do not. -/
theorem addsNoAnswer_withOptions
    (o : Options)
    (t : Flow)
    (r : Resolver) : (withOptions o).AddsNoAnswer t r := by
  intro id n action hNode hEmits hAnswer
  rw [emitters_withOptions] at hEmits
  rcases Emitter.exists_makes hEmits with ⟨i, rfl, hMakes⟩
  exact hMakes.ne_answer (List.mem_singleton.mp hAnswer).symm

/- After the opening of the call a block does not answer. -/
private theorem AddsNoAnswer.exists_unanswering
    (h : k.AddsNoAnswer t r)
    {y : Layout}
    {e : List (Option Key) × String}
    {b : Block}
    (hOf : y.BlockOf t k r e b) :
    ∃ more, Layout.Unanswering more ∧
      b.steps =
        (if e.1 = [] then y.opening.map (Layout.plain .entry)
        else []) ++ more := by
  have hEmits {id : String} {p : Plan}
      (hChart : t.Charts k r id p) : .answer ∉ p.action := by
    rcases hChart.exists_node with ⟨n, hNode, hEmitted⟩
    exact h id n p.action hNode hEmitted
  cases hOf with
  | @menu _ action choices hName hChart hOpening hHolds =>
      refine ⟨_, Layout.unanswering_menuSteps
        (hEmits hChart) ?_, hOpening ▸ hHolds.steps⟩
      rintro ⟨key, p⟩ hd action' endsCall rfl
      rcases hChart.of_mem_choices hd with
        hBack | ⟨c', hBelow⟩
      · cases hBack
      · exact hEmits hBelow
  | @leaf action _ hName hChart hFirst hSteps =>
      refine ⟨_, Layout.unanswering_leafSteps
        (hEmits hChart), ?_⟩
      rw [if_pos hFirst]
      exact hSteps

/- The opening of a call begins with the answer. -/
private theorem head?_steps_of_blockOf
    {y : Layout}
    {id : String}
    {b : Block}
    (h : y.BlockOf t k r ([], id) b) :
    b.steps.head? = some ⟨.entry, none, .answer⟩ := by
  cases h with
  | menu hName hChart hOpening hHolds =>
      rw [hHolds.steps, hOpening]
      rfl
  | leaf hName hChart hFirst hSteps =>
      rw [hSteps]
      rfl

/- A block that opens no call does not answer one. -/
private theorem AddsNoAnswer.count_eq_zero
    (h : k.AddsNoAnswer t r)
    {y : Layout}
    {e : List (Option Key) × String}
    {b : Block}
    (hOf : y.BlockOf t k r e b)
    (hWay : e.1 ≠ []) :
    (b.steps.map Step.instr).count .answer = 0 := by
  rcases h.exists_unanswering hOf with ⟨more, hMore, hSteps⟩
  rw [hSteps, if_neg hWay, List.nil_append,
    List.count_eq_zero]
  intro hMem
  rcases List.mem_map.mp hMem with ⟨st, hst, hAnswer⟩
  exact hMore st hst hAnswer

/- The block that opens the call answers it once. -/
private theorem AddsNoAnswer.count_eq_one
    (h : k.AddsNoAnswer t r)
    {y : Layout}
    {id : String}
    {b : Block}
    (hOf : y.BlockOf t k r ([], id) b) :
    (b.steps.map Step.instr).count .answer = 1 := by
  rcases h.exists_unanswering hOf with ⟨more, hMore, hSteps⟩
  have hNone : (more.map Step.instr).count .answer = 0 := by
    rw [List.count_eq_zero]
    intro hMem
    rcases List.mem_map.mp hMem with ⟨st, hst, hAnswer⟩
    exact hMore st hst hAnswer
  have hOpening : y.opening.count .answer = 1 := by
    unfold Layout.opening
    cases y.options.answerWait <;> rfl
  rw [hSteps, if_pos rfl, List.map_append, List.count_append,
    Layout.map_instr_plain, hNone, hOpening]

/- The first block comes before those of nested menus. -/
theorem exists_blocks
    (h : k.compile t r = .ok c) :
    ∃ first rest, c.script.blocks = first :: rest ∧
      (Layout.mk k.options (k.topName t)).BlockOf t k r
        ([], t.rootId) first ∧
      ∀ b ∈ rest, ∃ e, e.1 ≠ [] ∧
        (Layout.mk k.options (k.topName t)).BlockOf t k r e
          b := by
  rcases exists_chart h with ⟨-, hSound, -⟩
  rcases hSound.tour_eq with ⟨depth, -, hTour⟩
  have hFollow := forall₂_blockOf h
  rw [hTour] at hFollow
  rcases List.forall₂_cons_left_iff.mp hFollow with
    ⟨first, rest, hFirst, hRest, hBlocks⟩
  refine ⟨first, rest, hBlocks, hFirst, ?_⟩
  intro b hb
  rcases exists_of_forall₂ hRest hb with ⟨e, he, hOf⟩
  exact ⟨e, Flow.way_ne_nil_of_mem_tourBelow he, hOf⟩

/- The groups of a block are the steps of its labels. -/
private theorem groups_of_labelsOf
    {o : Options}
    {e : List (Option Key) × String}
    {b : Block}
    (h : Layout.LabelsOf t o e b) :
    b.groups = b.labels.map b.stepsUnder := by
  cases h with
  | menu hMenu hKeys hLabels =>
      rw [hLabels.groups_eq, hLabels.labels_eq]
  | leaf hLeaf hRoot hLabels =>
      rw [hLabels.groups_eq, hLabels.labels_eq]

/-
  The labels of each block of a script are those of its menu,
  in their order, and the text of the script has one group of
  lines for each of them.  The first step of the first block
  answers the call, and no other step does unless an emitter
  asks for it.
-/
theorem labels_in_order
    (h : k.compile t r = .ok c) :
    List.Forall₂ (Layout.LabelsOf t k.options) t.tour
        c.script.blocks ∧
      Dialplan.readStepLines c.script.render =
        (c.script.blocks.flatMap fun b =>
          b.labels.flatMap fun l =>
            Dialplan.groupLines
              (Dialplan.escape c.script.entryExtension)
              (b.stepsUnder l)) ∧
      ((c.script.blocks.head?.bind fun b => b.steps.head?) =
        some ⟨.entry, none, .answer⟩) ∧
      (k.AddsNoAnswer t r →
        c.script.instrs.count .answer = 1) := by
  rcases exists_chart h with ⟨-, hSound, -⟩
  rcases exists_blocks h with
    ⟨first, rest, hBlocks, hFirst, hRest⟩
  have hLabels : List.Forall₂ (Layout.LabelsOf t k.options)
      t.tour c.script.blocks := by
    refine ((List.forall₂_and_left _ _).mpr
      ⟨fun e he => he, forall₂_blockOf h⟩).imp ?_
    rintro e b ⟨hTour, hOf⟩
    exact hOf.labelsOf hSound hTour
  refine ⟨hLabels, ?_, ?_, ?_⟩
  · rw [Dialplan.readStepLines_render]
    refine List.flatMap_congr fun b hb => ?_
    rcases exists_of_forall₂ hLabels hb with ⟨e, -, hOf⟩
    rw [groups_of_labelsOf hOf, List.flatMap_map]
  · rw [hBlocks]
    exact head?_steps_of_blockOf hFirst
  · intro hNone
    have hLater :
        (rest.flatMap fun b =>
          b.steps.map Step.instr).count .answer = 0 := by
      rw [List.count_flatMap, List.sum_eq_zero_iff_forall_eq_nat]
      intro n hn
      rcases List.mem_map.mp hn with ⟨b, hb, rfl⟩
      rcases hRest b hb with ⟨e, hWay, hOf⟩
      exact hNone.count_eq_zero hOf hWay
    unfold Script.instrs
    rw [hBlocks, List.flatMap_cons, List.count_append,
      hNone.count_eq_one hFirst, hLater]

/-
  A menu in a menu, which offers the way back on a key that
  none of its children has, and whose children are listed
  against key order.
-/
theorem labels_in_order_nested :
    let set (name : String) (v : Value) : Patch :=
      { Patch.empty with
        settings := NameMap.ofList [(name, some v)] }
    let t := (Flow.new "Hotline").run
      [.update Flow.firstRootId (set "audio" (.text "hello")),
        .add Flow.firstRootId .background "More"
          (some (.digit 2)),
        .update "n1" (set "audio" (.text "more")),
        .update "n1" (set "returnToRoot" (.flag true)),
        .add "n1" .hangup "Bye" (some .star),
        .add "n1" .collect "Code" (some (.digit 7)),
        .update "n3" (set "maxDigits" (.integer 4))]
    let k := withOptions .standard
    ∃ c, k.compile t .direct = .ok c ∧
      List.Forall₂ (Layout.LabelsOf t k.options)
        [([], Flow.firstRootId), ([some (.digit 2)], "n1")]
        c.script.blocks ∧
      c.script.blocks.map Block.labels =
        [[.entry, .digit (.digit 2), .invalid, .timeout],
          [.entry, .digit .zero, .digit (.digit 7),
            .digit .star, .invalid, .timeout]] ∧
      c.script.instrs.count .answer = 1 := by
  intro set t k
  have hLabels :
      (k.compile t .direct).toOption.map
          (fun c => c.script.blocks.map Block.labels) =
        some
          [[.entry, .digit (.digit 2), .invalid, .timeout],
            [.entry, .digit .zero, .digit (.digit 7),
              .digit .star, .invalid, .timeout]] := by
    decide +kernel
  rcases exists_ok_of_toOption_map hLabels with
    ⟨c, hCompile, hSeen⟩
  rcases labels_in_order hCompile with
    ⟨hOrder, -, -, hAnswers⟩
  have hTour :
      t.tour =
        [([], Flow.firstRootId),
          ([some (.digit 2)], "n1")] := by
    decide +kernel
  rw [hTour] at hOrder
  exact
    ⟨c, hCompile, hOrder, hSeen,
      hAnswers
        (addsNoAnswer_withOptions .standard t .direct)⟩

end Compiler

end CallFlow
