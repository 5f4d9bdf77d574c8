import CallFlow.Proofs.Compile.Touring

/-
  The steps of a block are grouped by their labels.

  A step that stands under another label than the one before
  it begins a run.  In the block of a menu the runs are those
  of the entry, of the keys in key order, of other input, and
  of none.  None of them is empty and no label comes back, so
  there is one run for each label of the block.

  Main declarations:
    * `Block.runs`
    * `Layout.Grouped`
    * `Layout.menuGroups`
    * `Layout.HoldsMenu.grouped`
    * `Layout.BlockOf.runs_eq_labels`
-/

namespace CallFlow

------------------------------------------------------------
-- Runs
------------------------------------------------------------

/- The labels of runs of steps, after a step with a label. -/
def runsAfter
    (before : Label) : List Step → List Label
  | [] => []
  | s :: rest =>
      if s.label = before then runsAfter s.label rest
      else s.label :: runsAfter s.label rest

/- The labels of the runs of steps of a block. -/
def Block.runs
    (b : Block) : List Label :=
  match b.steps with
  | [] => []
  | s :: rest => s.label :: runsAfter s.label rest

/- More steps under the same label go on with its run. -/
private theorem runsAfter_append
    {l : Label}
    {steps : List Step}
    (h : ∀ st ∈ steps, st.label = l)
    (rest : List Step) :
    runsAfter l (steps ++ rest) = runsAfter l rest := by
  induction steps with
  | nil => rfl
  | cons s steps ih =>
      have hHere := h s List.mem_cons_self
      rw [List.cons_append, runsAfter, if_pos hHere, hHere]
      exact ih fun st hst => h st (List.mem_cons_of_mem s hst)

namespace Layout

------------------------------------------------------------
-- Groups
------------------------------------------------------------

/-
  Groups of steps, each under a label of its own.  No group
  is empty.
-/
structure Grouped
    (groups : List (Label × List Step)) : Prop where
  filled : ∀ g ∈ groups, g.2 ≠ []
  labelled : ∀ g ∈ groups, ∀ st ∈ g.2, st.label = g.1
  distinct : (groups.map (·.1)).Nodup

/- The groups after the first one. -/
theorem Grouped.tail
    {g : Label × List Step}
    {groups : List (Label × List Step)}
    (h : Grouped (g :: groups)) : Grouped groups where
  filled d hd := h.filled d (List.mem_cons_of_mem g hd)
  labelled d hd := h.labelled d (List.mem_cons_of_mem g hd)
  distinct := (List.nodup_cons.mp h.distinct).2

/- A group begins a run under another label. -/
private theorem runsAfter_group
    {g : Label × List Step}
    {before : Label}
    (hFilled : g.2 ≠ [])
    (hLabelled : ∀ st ∈ g.2, st.label = g.1)
    (hOther : g.1 ≠ before)
    (rest : List Step) :
    runsAfter before (g.2 ++ rest) =
      g.1 :: runsAfter g.1 rest := by
  rcases g with ⟨l, steps⟩
  cases steps with
  | nil => exact absurd rfl hFilled
  | cons s steps =>
      rcases List.forall_mem_cons.mp hLabelled with
        ⟨hHere, hMore⟩
      have hBegins : ¬ s.label = before := by
        rw [hHere]
        exact hOther
      rw [List.cons_append, runsAfter, if_neg hBegins, hHere,
        runsAfter_append hMore]

/- Each group is a run. -/
private theorem Grouped.runsAfter_eq
    {groups : List (Label × List Step)}
    {before : Label}
    (h : Grouped groups)
    (hOther : before ∉ groups.map (·.1)) :
    runsAfter before (groups.flatMap (·.2)) =
      groups.map (·.1) := by
  induction groups generalizing before with
  | nil => rfl
  | cons g rest ih =>
      have hNe : g.1 ≠ before := by
        rintro rfl
        exact hOther List.mem_cons_self
      rw [List.flatMap_cons,
        runsAfter_group (h.filled g List.mem_cons_self)
          (h.labelled g List.mem_cons_self) hNe,
        ih h.tail (List.nodup_cons.mp h.distinct).1]
      rfl

/- Steps under one label have only this label. -/
private theorem eraseDups_map_label
    {l : Label}
    {steps : List Step}
    (hFilled : steps ≠ [])
    (hLabelled : ∀ st ∈ steps, st.label = l) :
    (steps.map Step.label).eraseDups = [l] := by
  cases steps with
  | nil => exact absurd rfl hFilled
  | cons s steps =>
      rcases List.forall_mem_cons.mp hLabelled with
        ⟨hHere, hMore⟩
      have hNone :
          ((steps.map Step.label).filter fun l' =>
            !l' == s.label) = [] := by
        rw [List.filter_eq_nil_iff]
        intro l' hMem
        rcases List.mem_map.mp hMem with ⟨st, hst, rfl⟩
        simp [hMore st hst, hHere]
      rw [List.map_cons, List.eraseDups_cons, hNone, hHere]
      rfl

/- Groups of steps have the labels that they are made for. -/
private theorem Grouped.eraseDups_eq
    {groups : List (Label × List Step)}
    (h : Grouped groups) :
    ((groups.flatMap (·.2)).map Step.label).eraseDups =
      groups.map (·.1) := by
  induction groups with
  | nil => rfl
  | cons g rest ih =>
      have hHere := h.labelled g List.mem_cons_self
      have hOthers :
          ((rest.flatMap (·.2)).map Step.label).removeAll
              (g.2.map Step.label) =
            (rest.flatMap (·.2)).map Step.label := by
        unfold List.removeAll
        rw [List.filter_eq_self]
        intro l hMem
        rcases List.mem_map.mp hMem with ⟨st, hst, rfl⟩
        rcases List.mem_flatMap.mp hst with ⟨d, hd, hIn⟩
        have hLabel := h.tail.labelled d hd st hIn
        have hNew : st.label ∉ g.2.map Step.label := by
          intro hBoth
          rcases List.mem_map.mp hBoth with ⟨st', hst', hSame⟩
          rw [hHere st' hst', hLabel] at hSame
          apply (List.nodup_cons.mp h.distinct).1
          exact List.mem_map.mpr ⟨d, hd, hSame.symm⟩
        simpa using hNew
      rw [List.flatMap_cons, List.map_append,
        List.eraseDups_append, hOthers,
        eraseDups_map_label (h.filled g List.mem_cons_self)
          hHere, ih h.tail]
      rfl

/-
  In a block that is made of groups there is one run for each
  label.
-/
theorem Grouped.runs_eq
    {b : Block}
    {groups : List (Label × List Step)}
    (h : Grouped groups)
    (hSteps : b.steps = groups.flatMap (·.2)) :
    b.runs = groups.map (·.1) ∧
      b.labels = groups.map (·.1) := by
  constructor
  · unfold Block.runs
    rw [hSteps]
    cases groups with
    | nil => rfl
    | cons g rest =>
        rcases g with ⟨l, steps⟩
        have hFilled : steps ≠ [] :=
          h.filled (l, steps) List.mem_cons_self
        have hHere : ∀ st ∈ steps, st.label = l :=
          h.labelled (l, steps) List.mem_cons_self
        cases steps with
        | nil => exact absurd rfl hFilled
        | cons s steps =>
            rcases List.forall_mem_cons.mp hHere with
              ⟨hFirst, hMore⟩
            simp only [List.flatMap_cons, List.cons_append]
            rw [hFirst, runsAfter_append hMore,
              h.tail.runsAfter_eq
                (List.nodup_cons.mp h.distinct).1]
            rfl
  · unfold Block.labels
    rw [hSteps]
    exact h.eraseDups_eq

------------------------------------------------------------
-- Groups of Blocks
------------------------------------------------------------

/- The groups of the block of a menu, in their order. -/
def menuGroups
    (y : Layout)
    (opening : List Step)
    (name : String)
    (action : List Instr)
    (choices : List (Option Key × Plan)) :
    List (Label × List Step) :=
  (.entry,
    opening ++ (actionSteps action ++ [y.askStep action])) ::
    ((choices.filter fun c => c.1.isSome).map fun c =>
      (choiceLabel c.1, y.choiceSteps name c)) ++
    [(.invalid, y.fallbackSteps name action choices),
      (.timeout, retrySteps name .timeout action)]

variable {y : Layout}
variable {b : Block}
variable {opening : List Step}
variable {action : List Instr}
variable {choices : List (Option Key × Plan)}

/- The steps of a menu are those of its groups. -/
theorem HoldsMenu.steps_eq
    (h : y.HoldsMenu b opening action choices) :
    b.steps =
      (y.menuGroups opening b.name action choices).flatMap
        (·.2) := by
  rw [h.steps, menuSteps_eq]
  simp [menuGroups, keyedSteps, List.flatMap_map]

/- There is always something to do after a bad choice. -/
private theorem retrySteps_ne_nil
    (name : String)
    (l : Label)
    (action : List Instr) : retrySteps name l action ≠ [] := by
  unfold retrySteps
  simp

/- The labels of the keys of choices are distinct. -/
private theorem nodup_choiceLabels
    (hKeys : (choices.map (·.1)).Nodup) :
    ((choices.filter fun c => c.1.isSome).map fun c =>
      choiceLabel c.1).Nodup := by
  have hSome :
      ((choices.filter fun c => c.1.isSome).map
        (·.1)).Nodup :=
    hKeys.sublist (List.filter_sublist.map _)
  refine List.pairwise_map.mpr
    ((List.pairwise_map.mp hSome).imp_of_mem ?_)
  rintro ⟨key, p⟩ ⟨key', p'⟩ hc hc' hNe hSame
  apply hNe
  have hKey := (List.mem_filter.mp hc).2
  have hKey' := (List.mem_filter.mp hc').2
  rcases Option.isSome_iff_exists.mp hKey with ⟨k, rfl⟩
  rcases Option.isSome_iff_exists.mp hKey' with ⟨k', rfl⟩
  cases hSame
  rfl

/- The block of a menu is grouped by its labels. -/
theorem HoldsMenu.grouped
    (h : y.HoldsMenu b opening action choices)
    (hKeys : (choices.map (·.1)).Nodup) :
    Grouped (y.menuGroups opening b.name action choices) where
  filled := by
    intro g hg
    unfold menuGroups at hg
    simp only [List.mem_append, List.mem_cons, List.mem_map,
      List.not_mem_nil, or_false] at hg
    rcases hg with (rfl | ⟨c, -, rfl⟩) | rfl | rfl
    · simp
    · exact choiceSteps_ne_nil y b.name c
    · show y.fallbackSteps b.name action choices ≠ []
      unfold fallbackSteps
      split
      · exact choiceSteps_ne_nil y b.name _
      · exact retrySteps_ne_nil b.name .invalid action
    · exact retrySteps_ne_nil b.name .timeout action
  labelled := by
    intro g hg st hst
    unfold menuGroups at hg
    simp only [List.mem_append, List.mem_cons, List.mem_map,
      List.not_mem_nil, or_false] at hg
    rcases hg with (rfl | ⟨c, -, rfl⟩) | rfl | rfl
    · rcases List.mem_append.mp hst with hOpening | hRest
      · exact (h.opened st hOpening).1
      · rcases List.mem_append.mp hRest with hAction | hAsk
        · exact label_of_mem_actionSteps hAction
        · rw [List.mem_singleton.mp hAsk]
          exact label_askStep y action
    · exact label_of_mem_choiceSteps hst
    · exact label_of_mem_fallbackSteps hst
    · exact label_of_mem_retrySteps hst
  distinct := by
    have hDigit :
        ∀ c ∈ choices.filter fun c => c.1.isSome,
          ∃ k, choiceLabel c.1 = .digit k := by
      intro c hc
      rcases Option.isSome_iff_exists.mp
        (List.mem_filter.mp hc).2 with ⟨k, hKey⟩
      refine ⟨k, ?_⟩
      rw [hKey]
      rfl
    unfold menuGroups
    simp only [List.map_append, List.map_cons, List.map_map,
      List.map_nil, List.cons_append, List.nodup_cons,
      List.nodup_append]
    refine ⟨?_, nodup_choiceLabels hKeys, by simp, ?_⟩
    -- The entry is none of the others, and no key is what
    -- stands for other input or for none.
    · intro hEntry
      simp only [List.mem_append, List.mem_map,
        Function.comp_apply, List.mem_cons, reduceCtorEq,
        List.not_mem_nil, or_false] at hEntry
      rcases hEntry with ⟨c, hc, hSame⟩
      rcases hDigit c hc with ⟨k, hLabel⟩
      rw [hLabel] at hSame
      cases hSame
    · intro l hl l' hl' hSame
      rcases List.mem_map.mp hl with ⟨c, hc, rfl⟩
      rcases hDigit c hc with ⟨k, hLabel⟩
      simp only [Function.comp_apply] at hSame
      rw [hLabel] at hSame
      subst hSame
      simp at hl'

/- The block of a root that is no menu is one group. -/
theorem grouped_leaf
    (y : Layout)
    (action : List Instr) :
    Grouped
      [(.entry,
        y.opening.map (plain .entry) ++ leafSteps action)]
    where
  filled := by
    intro g hg
    rw [List.mem_singleton.mp hg]
    simp [opening]
  labelled := by
    intro g hg st hst
    rw [List.mem_singleton.mp hg] at hst ⊢
    rcases List.mem_append.mp hst with hOpening | hLeaf
    · exact label_of_mem_map_plain hOpening
    · rcases List.mem_append.mp hLeaf with hAction | hEnd
      · exact label_of_mem_actionSteps hAction
      · split at hEnd
        · cases hEnd
        · rw [List.mem_singleton.mp hEnd]
          rfl
  distinct := List.nodup_singleton _

/-
  A block of a script has one run for each label, and one of
  them is the entry.
-/
theorem BlockOf.runs_eq_labels
    {t : Flow}
    {k : Compiler}
    {r : Resolver}
    {e : List (Option Key) × String}
    (h : y.BlockOf t k r e b) :
    b.runs = b.labels ∧ b.labels.Nodup ∧
      .entry ∈ b.labels := by
  have hGroups : ∃ groups, Grouped groups ∧
      b.steps = groups.flatMap (·.2) ∧
        .entry ∈ groups.map (·.1) := by
    cases h with
    | menu hName hChart hOpening hHolds =>
        exact
          ⟨_, hHolds.grouped hChart.ordered.nodup_keys,
            hHolds.steps_eq, List.mem_cons_self⟩
    | @leaf action _ hName hChart hFirst hSteps =>
        refine
          ⟨_, grouped_leaf y action, ?_, List.mem_cons_self⟩
        rw [hSteps]
        simp
  rcases hGroups with ⟨groups, hGrouped, hSteps, hEntry⟩
  rcases hGrouped.runs_eq hSteps with ⟨hRuns, hLabels⟩
  rw [hRuns, hLabels]
  exact ⟨rfl, hGrouped.distinct, hEntry⟩

end Layout

end CallFlow
