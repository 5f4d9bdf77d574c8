import CallFlow.Compile.Plan
import CallFlow.Proofs.Compile.Emitting
import CallFlow.Proofs.Compile.PlanWalk
import CallFlow.Proofs.Compile.Unfolding
import Mathlib.Data.List.Nodup
import Mathlib.Data.Set.List

/-
  The plans that outlines have.

  A plan is made from the action of a node and the plans of
  its children, in another order and with the way back where
  there is one.  In a sound flow no two of these choices have
  the same key.

  The order of choices and the way back depend on keys alone,
  so they can be told before a child is planned.

  Main declarations:
    * `Plan.inKeyOrder_perm`
    * `Plan.mapM_settled_eq_ok_iff`
    * `Node.mem_choices_iff`
    * `Node.map_choices`
    * `Node.action_eq_ok_iff`
    * `Outline.planAll_eq_ok`
    * `Outline.plan_eq_ok`
    * `Outline.fit_of_plan`
-/

namespace CallFlow

------------------------------------------------------------
-- Order of Choices
------------------------------------------------------------

namespace Plan

variable {α β : Type}

/- A choice is inserted, and nothing else changes. -/
theorem insertChoice_perm
    (c : Option Key × α)
    (choices : List (Option Key × α)) :
    (insertChoice c choices).Perm (c :: choices) := by
  induction choices with
  | nil => exact List.Perm.refl _
  | cons d rest ih =>
      unfold insertChoice
      split
      · exact List.Perm.refl _
      · exact (ih.cons d).trans (List.Perm.swap c d rest)

/- Ordering choices keeps them. -/
theorem inKeyOrder_perm
    (choices : List (Option Key × α)) :
    (inKeyOrder choices).Perm choices := by
  induction choices with
  | nil => exact List.Perm.refl _
  | cons c rest ih =>
      unfold inKeyOrder
      exact (insertChoice_perm c _).trans (ih.cons c)

/- The place of a choice is the place of its key. -/
private theorem map_insertChoice
    (f : α → β)
    (c : Option Key × α)
    (choices : List (Option Key × α)) :
    (insertChoice c choices).map (fun d => (d.1, f d.2)) =
      insertChoice (c.1, f c.2)
        (choices.map fun d => (d.1, f d.2)) := by
  induction choices with
  | nil => rfl
  | cons d rest ih =>
      rw [List.map_cons]
      unfold insertChoice
      show _ = if choiceRank c.1 ≤ choiceRank d.1 then _ else _
      split
      · rfl
      · rw [List.map_cons, ih]

/- So choices can be ordered before something is made of them. -/
theorem map_inKeyOrder
    (f : α → β)
    (choices : List (Option Key × α)) :
    (inKeyOrder choices).map (fun c => (c.1, f c.2)) =
      inKeyOrder (choices.map fun c => (c.1, f c.2)) := by
  induction choices with
  | nil => rfl
  | cons c rest ih =>
      unfold inKeyOrder
      rw [map_insertChoice, ih]
      rfl

/- A choice that could be planned. -/
def made
    (c : Option Key × Plan) :
    Option Key × Except CompileError Plan :=
  (c.1, .ok c.2)

/- Choices that could be planned differ as their plans do. -/
theorem made_injective : Function.Injective made := by
  rintro ⟨key, p⟩ ⟨key', p'⟩ hSame
  cases hSame
  rfl

/- A choice is settled if it could be planned. -/
private theorem settled_eq_ok_iff
    {c : Option Key × Except CompileError Plan}
    {d : Option Key × Plan} :
    settled c = .ok d ↔ c = made d := by
  rcases c with ⟨key, planned⟩
  rcases d with ⟨key', p⟩
  cases planned <;>
    simp [settled, made, bind, Except.bind, pure, Except.pure]

/- Choices are settled if all of them could be planned. -/
theorem mapM_settled_eq_ok_iff
    {planned : List (Option Key × Except CompileError Plan)}
    {choices : List (Option Key × Plan)} :
    planned.mapM settled = .ok choices ↔
      planned = choices.map made := by
  simp only [mapM_eq_ok_iff, settled_eq_ok_iff]
  rw [← List.forall₂_map_right_iff, List.forall₂_eq_eq_eq]

end Plan

------------------------------------------------------------
-- Ways Back
------------------------------------------------------------

namespace Node

variable {α β : Type}
variable {step : Node}
variable {returnKey : Key}
variable {first : Bool}
variable {back : α}
variable {children : List (Option Key × α)}

/-
  The choices of a menu are its children, and the way back
  where the menu offers one and no child has the key.
-/
theorem mem_choices_iff
    {c : Option Key × α} :
    c ∈ step.choices returnKey first back children ↔
      c ∈ children ∨
        (first = false ∧
          step.kind.offersReturn step.settings = true ∧
          some returnKey ∉ children.map (·.1) ∧
          c = (some returnKey, back)) := by
  unfold choices
  rw [(Plan.inKeyOrder_perm _).mem_iff]
  cases first with
  | true => simp
  | false =>
      have hAny :
          (children.any fun c => c.1 == some returnKey) =
              false ↔
            some returnKey ∉ children.map (·.1) := by
        rw [List.any_eq_false, List.mem_map]
        constructor
        · rintro hNone ⟨c, hc, hKey⟩
          exact hNone c hc (beq_iff_eq.mpr hKey)
        · intro hNone c hc hKey
          exact hNone ⟨c, hc, beq_iff_eq.mp hKey⟩
      unfold withReturn
      simp only [Bool.false_eq_true, if_false, true_and]
      by_cases hReturn :
          step.kind.offersReturn step.settings = true
      · by_cases hFree :
            some returnKey ∈ children.map (·.1)
        · have hTaken :
              (children.any fun c =>
                c.1 == some returnKey) = true := by
            rw [← Bool.not_eq_false]
            exact fun hNone => hAny.mp hNone hFree
          simp [hTaken, hFree]
        · simp [hReturn, hAny.mpr hFree, hFree]
      · simp [hReturn]

/- The way back has a key that no other choice has. -/
theorem nodup_keys_choices
    (hKeys : (children.map (·.1)).Nodup) :
    ((step.choices returnKey first back children).map
      (·.1)).Nodup := by
  unfold choices
  rw [((Plan.inKeyOrder_perm _).map _).nodup_iff]
  cases first with
  | true => exact hKeys
  | false =>
      unfold withReturn
      rw [if_neg (by simp)]
      split
      · rename_i hBack
        rw [Bool.and_eq_true, Bool.not_eq_true',
          List.any_eq_false] at hBack
        rw [List.map_append, List.nodup_append]
        refine ⟨hKeys, by simp, ?_⟩
        intro key hKey key' hKey' hSame
        rcases List.mem_map.mp hKey with ⟨c, hc, hc'⟩
        have hBackKey : key' = some returnKey := by
          simpa using hKey'
        apply hBack.2 c hc
        rw [hc', hSame, hBackKey]
        exact beq_self_eq_true _
      · exact hKeys

/- The choices are told by the keys of the children. -/
theorem map_choices
    (f : α → β) :
    (step.choices returnKey first back children).map
        (fun c => (c.1, f c.2)) =
      step.choices returnKey first (f back)
        (children.map fun c => (c.1, f c.2)) := by
  unfold choices
  rw [Plan.map_inKeyOrder]
  cases first with
  | true => rfl
  | false =>
      have hAny :
          (children.map fun c => (c.1, f c.2)).any
              (fun c => c.1 == some returnKey) =
            children.any fun c => c.1 == some returnKey := by
        rw [List.any_map]
        rfl
      unfold withReturn
      simp only [Bool.false_eq_true, if_false, hAny]
      split
      · rw [List.map_append]
        rfl
      · rfl

/- What the way back has no part in comes from the children. -/
theorem flatMap_choices_perm
    {f : Option Key × α → List β}
    (hBack : ∀ key, f (key, back) = []) :
    ((step.choices returnKey first back children).flatMap
      f).Perm (children.flatMap f) := by
  unfold choices
  refine ((Plan.inKeyOrder_perm _).flatMap_right f).trans ?_
  cases first with
  | true => exact List.Perm.refl _
  | false =>
      unfold withReturn
      rw [if_neg (by simp)]
      split
      · rw [List.flatMap_append, List.flatMap_singleton,
          hBack, List.append_nil]
      · exact List.Perm.refl _

/-
  The choices of a menu can all be planned only if all its
  children can.  The way back needs no plan.
-/
theorem exists_made_of_choices
    {planned : List (Option Key × Except CompileError Plan)}
    {choices : List (Option Key × Plan)}
    (h :
      step.choices returnKey first (.ok .back) planned =
        choices.map Plan.made) :
    ∃ children,
      planned = children.map Plan.made ∧
        choices =
          step.choices returnKey first .back children := by
  have hEach : ∀ c ∈ planned, c ∈ Set.range Plan.made := by
    intro c hc
    have hMem :
        c ∈ step.choices returnKey first (.ok .back)
          planned :=
      mem_choices_iff.mpr (.inl hc)
    rw [h] at hMem
    rcases List.mem_map.mp hMem with ⟨d, -, hMade⟩
    exact ⟨d, hMade⟩
  have hRange : planned ∈ Set.range (List.map Plan.made) := by
    rw [Set.range_list_map]
    exact hEach
  rcases hRange with ⟨children, rfl⟩
  refine ⟨children, rfl, ?_⟩
  apply List.map_injective_iff.mpr Plan.made_injective
  rw [← h]
  exact (map_choices Except.ok).symm

------------------------------------------------------------
-- Actions
------------------------------------------------------------

variable {emitters : Emitters}
variable {sounds : List Sound}
variable {id : String}
variable {emit : Emitter}
variable {action : List Instr}

/- A node with an emitter for its kind fails as that does. -/
theorem action_of_lookup
    (h : emitters.lookup step.kind = some emit) :
    step.action emitters sounds id =
      (emit step (Sound.find? sounds id)).mapError
        (.missingParam id) := by
  unfold Node.action
  rw [h]

/- A node has the action that is emitted for it. -/
theorem action_eq_ok_iff
    (h : emitters.lookup step.kind = some emit) :
    step.action emitters sounds id = .ok action ↔
      emit step (Sound.find? sounds id) = .ok action := by
  rw [action_of_lookup h, mapError_eq_ok_iff]

end Node

namespace Outline

variable {t : Flow}
variable {emitters : Emitters}
variable {sounds : List Sound}
variable {returnKey : Key}

------------------------------------------------------------
-- Plans of Outlines
------------------------------------------------------------

/- Only a step that can branch opens a menu. -/
theorem branching_of_opensMenu
    {n : Node}
    (h : n.opensMenu = true) : n.kind.branching = true := by
  unfold Node.opensMenu at h
  rw [Bool.and_eq_true] at h
  exact h.1

/- Outlines are planned one by one, with their keys. -/
theorem planAll_eq_map
    (outlines : List Outline) :
    planAll emitters sounds returnKey outlines =
      outlines.map fun x =>
        (x.key?,
          plan emitters sounds returnKey false x) := by
  induction outlines with
  | nil => rfl
  | cons x rest ih =>
      unfold planAll
      rw [ih, List.map_cons]

/- The plans of outlines come in order, with their keys. -/
theorem planAll_eq_ok
    {outlines : List Outline}
    {planned : List (Option Key × Plan)}
    (h :
      planAll emitters sounds returnKey outlines =
        planned.map Plan.made) :
    planned.map (·.1) = outlines.map key? ∧
      (∀ x ∈ outlines, ∃ p, (x.key?, p) ∈ planned ∧
        plan emitters sounds returnKey false x = .ok p) ∧
      ∀ c ∈ planned, ∃ x ∈ outlines, c.1 = x.key? ∧
        plan emitters sounds returnKey false x =
          .ok c.2 := by
  rw [planAll_eq_map] at h
  refine ⟨?_, ?_, ?_⟩
  · have hKeys := congrArg (List.map (·.1)) h
    rw [List.map_map, List.map_map] at hKeys
    exact hKeys.symm
  · intro x hx
    have hMem := List.mem_map_of_mem (f := fun x =>
      (x.key?, plan emitters sounds returnKey false x)) hx
    rw [h] at hMem
    rcases List.mem_map.mp hMem with ⟨⟨key, p⟩, hp, hSame⟩
    rcases Prod.mk.inj hSame with ⟨hKey, hPlan⟩
    exact ⟨p, hKey ▸ hp, hPlan.symm⟩
  · intro c hc
    have hMem := List.mem_map_of_mem (f := Plan.made) hc
    rw [← h] at hMem
    rcases List.mem_map.mp hMem with ⟨x, hx, hSame⟩
    rcases Prod.mk.inj hSame with ⟨hKey, hPlan⟩
    exact ⟨x, hx, hKey.symm, hPlan⟩

/- The plan of a step that opens no menu. -/
theorem plan_leaf
    {first : Bool}
    {id : String}
    {step : Node}
    {children : List Outline}
    (h : step.opensMenu = false) :
    plan emitters sounds returnKey first
        (.node id step children) =
      (step.action emitters sounds id).map fun action =>
        .leaf action (step.kind.endsCall step.settings) := by
  unfold plan
  rw [h]
  cases step.action emitters sounds id <;> rfl

/- The plan of a step that opens one. -/
theorem plan_menu
    {first : Bool}
    {id : String}
    {step : Node}
    {children : List Outline}
    (h : step.opensMenu = true) :
    plan emitters sounds returnKey first
        (.node id step children) =
      step.action emitters sounds id >>= fun action =>
        ((step.choices returnKey first (.ok .back)
            (planAll emitters sounds returnKey
              children)).mapM Plan.settled).map
          (.menu action) := by
  unfold plan
  rw [h]
  cases step.action emitters sounds id <;> rfl

/- What the plan of an outline is made from. -/
theorem plan_eq_ok
    {first : Bool}
    {id : String}
    {step : Node}
    {children : List Outline}
    {p : Plan}
    (h :
      plan emitters sounds returnKey first
          (.node id step children) = .ok p) :
    ∃ action, step.action emitters sounds id = .ok action ∧
      ((step.opensMenu = true ∧
        ∃ planned,
          planAll emitters sounds returnKey children =
              planned.map Plan.made ∧
            p =
              .menu action
                (step.choices returnKey first .back
                  planned)) ∨
        (step.opensMenu = false ∧
          p =
            .leaf action
              (step.kind.endsCall step.settings))) := by
  unfold plan at h
  rcases bind_eq_ok_iff.mp h with ⟨action, hAction, hRest⟩
  refine ⟨action, hAction, ?_⟩
  by_cases hMenu : step.opensMenu = true
  · rw [if_pos hMenu] at hRest
    rcases bind_eq_ok_iff.mp hRest with
      ⟨choices, hSettled, hDone⟩
    cases hDone
    rcases Node.exists_made_of_choices
      (Plan.mapM_settled_eq_ok_iff.mp hSettled) with
      ⟨planned, hPlanned, rfl⟩
    exact Or.inl ⟨hMenu, planned, hPlanned, rfl⟩
  · rw [if_neg hMenu] at hRest
    cases hRest
    exact Or.inr ⟨Bool.eq_false_iff.mpr hMenu, rfl⟩

------------------------------------------------------------
-- Fit Plans
------------------------------------------------------------

/- The key of an outline is that of its node. -/
theorem hasKey_key?
    {x : Outline}
    (hShows : x.Shows t) : t.hasKey x.key? x.id = true := by
  cases hShows with
  | node hNode hIds hChildren =>
      unfold Flow.hasKey Outline.id
      rw [hNode]
      exact beq_self_eq_true _

/- The outlines of the children of a node are listed. -/
theorem childIds_eq_map_id
    {id : String}
    {step : Node}
    {children : List Outline}
    (hNode : t.get? id = some step)
    (hIds : children.map Outline.id = step.children) :
    t.childIds id = children.map Outline.id := by
  rw [hIds]
  exact Flow.childIds_of_get? hNode

/- The outlines of children have distinct keys. -/
theorem nodup_keys
    (h : t.Sound)
    {id : String}
    {step : Node}
    {children : List Outline}
    (hNode : t.get? id = some step)
    (hIds : children.map Outline.id = step.children)
    (hChildren : ∀ x ∈ children, x.Shows t) :
    (children.map key?).Nodup := by
  have hListed := childIds_eq_map_id hNode hIds
  have hOnce : (children.map Outline.id).Nodup :=
    hListed ▸ h.once id
  apply List.Nodup.map_on ?_ hOnce.of_map
  intro x hx x' hx' hSame
  have hKey := hasKey_key? (hChildren x hx)
  have hKey' := hasKey_key? (hChildren x' hx')
  rw [← hSame] at hKey'
  have hMem : ∀ z ∈ children, z.id ∈ t.childIds id := by
    intro z hz
    rw [hListed]
    exact List.mem_map_of_mem hz
  apply List.inj_on_of_nodup_map hOnce hx hx'
  exact h.keys id x.key? x.id x'.id (hMem x hx) (hMem x' hx')
    hKey hKey'

/- The plan of a sound flow can be laid out. -/
theorem fit_of_plan
    (h : t.Sound)
    {x : Outline}
    (hShows : x.Shows t)
    {first : Bool}
    {p : Plan}
    (hPlan :
      plan Emitter.registered sounds returnKey first x =
        .ok p) : p.Fit := by
  induction hShows generalizing first p with
  | @node id step children hNode hIds hChildren ih =>
      rcases plan_eq_ok hPlan with ⟨action, hAction, hCases⟩
      rcases Emitter.standard_eq_ok
        ((Node.action_eq_ok_iff
          (Emitter.lookup_registered step.kind)).mp
          hAction) with ⟨i, hOne, hi⟩
      have hPerforms : ∀ j ∈ action, j.isAction = true := by
        intro j hj
        rw [hOne, List.mem_singleton] at hj
        rw [hj]
        exact hi
      rcases hCases with
        ⟨-, planned, hPlanned, hMenu⟩ | ⟨-, hLeaf⟩
      · rcases planAll_eq_ok hPlanned with
          ⟨hKeys, hOutlines, hEach⟩
        have hNodup : (planned.map (·.1)).Nodup := by
          rw [hKeys]
          exact nodup_keys h hNode hIds hChildren
        rw [hMenu]
        refine .menu hPerforms ?_
          (Node.nodup_keys_choices hNodup) ?_
        · rw [hOne]
          exact List.cons_ne_nil _ _
        · intro c hc
          rcases Node.mem_choices_iff.mp hc with
            hChild | ⟨-, -, -, hBack⟩
          · rcases hEach c hChild with ⟨x, hx, -, hPlan⟩
            exact ih x hx hPlan
          · rw [hBack]
            exact .back
      · rw [hLeaf]
        exact .leaf hPerforms

end Outline

end CallFlow
