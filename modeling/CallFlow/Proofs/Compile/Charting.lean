import CallFlow.Proofs.Compile.Correctness

/-
  A plan that charts a flow, whatever its emitters make of
  the nodes.

  The plan of a node has the action that is emitted for the
  node.  If the node opens a menu, the plan has the choices of
  the menu in key order: one for each key that selects a
  child, which charts the flow from the child on, and the way
  back on the key that the menu offers it on.

  Main declarations:
    * `Plan.choiceOrder`
    * `Plan.Ordered.eq_append_fallback`
    * `Plan.Ordered.eq_filterMap`
    * `Node.heard`
    * `Flow.Charts`
    * `Flow.Charts.keyed`
    * `Flow.Charts.of_choice?`
    * `Flow.Charts.of_mem_choices`
    * `Flow.Mirrors`
    * `Flow.Charts.mirrored`
    * `Outline.charts_of_plan`
    * `Compiler.exists_chart`
-/

namespace CallFlow

------------------------------------------------------------
-- Key Order
------------------------------------------------------------

namespace Plan

/- Every key that a choice can have, in key order. -/
def choiceOrder : List (Option Key) :=
  Key.all.map some ++ [none]

/- A choice has one of these keys. -/
theorem mem_choiceOrder
    (key : Option Key) : key ∈ choiceOrder := by
  cases key with
  | none => exact List.mem_append_right _ List.mem_cons_self
  | some k =>
      exact List.mem_append_left _
        (List.mem_map_of_mem k.mem_all)

/- The keys are in order, and none comes twice. -/
theorem pairwise_choiceOrder :
    choiceOrder.Pairwise fun key key' =>
      choiceRank key < choiceRank key' := by
  decide +kernel

/- A key comes before the fallback. -/
private theorem rank_lt_choiceRank_none
    (k : Key) : k.rank < choiceRank none := by
  cases k <;> simp only [Key.rank, choiceRank] <;> omega

/- Two keys of choices in the same place are equal. -/
private theorem choiceRank_injective
    {key key' : Option Key}
    (h : choiceRank key = choiceRank key') : key = key' := by
  cases key with
  | none =>
      cases key' with
      | none => rfl
      | some k' =>
          exact absurd h
            (Nat.ne_of_gt (rank_lt_choiceRank_none k'))
  | some k =>
      cases key' with
      | none =>
          exact absurd h
            (Nat.ne_of_lt (rank_lt_choiceRank_none k))
      | some k' =>
          exact congrArg some (Key.rank_injective k k' h)

variable {α : Type}

/- Choices in key order, among which no key comes twice. -/
def Ordered
    (choices : List (Option Key × α)) : Prop :=
  choices.Pairwise fun c d =>
    choiceRank c.1 < choiceRank d.1

/- A choice is inserted where it keeps the order. -/
private theorem pairwise_insertChoice
    {c : Option Key × α}
    {choices : List (Option Key × α)}
    (h :
      choices.Pairwise fun c d =>
        choiceRank c.1 ≤ choiceRank d.1) :
    (insertChoice c choices).Pairwise fun c d =>
      choiceRank c.1 ≤ choiceRank d.1 := by
  induction choices with
  | nil => exact List.pairwise_singleton _ _
  | cons d rest ih =>
      rcases List.pairwise_cons.mp h with ⟨hHead, hRest⟩
      unfold insertChoice
      split
      · rename_i hFirst
        refine List.pairwise_cons.mpr ⟨?_, h⟩
        intro e he
        rcases List.mem_cons.mp he with hHere | hLater
        · rw [hHere]
          exact hFirst
        · exact Nat.le_trans hFirst (hHead e hLater)
      · rename_i hNotFirst
        refine List.pairwise_cons.mpr ⟨?_, ih hRest⟩
        intro e he
        rcases List.mem_cons.mp
          ((insertChoice_perm c rest).mem_iff.mp he) with
          hHere | hLater
        · rw [hHere]
          exact Nat.le_of_not_le hNotFirst
        · exact hHead e hLater

/- Choices are put into key order. -/
theorem ordered_inKeyOrder
    {choices : List (Option Key × α)}
    (hKeys : ((inKeyOrder choices).map (·.1)).Nodup) :
    Ordered (inKeyOrder choices) := by
  have hOrder :
      (inKeyOrder choices).Pairwise fun c d =>
        choiceRank c.1 ≤ choiceRank d.1 := by
    clear hKeys
    induction choices with
    | nil => exact .nil
    | cons c rest ih => exact pairwise_insertChoice ih
  refine (hOrder.and (List.pairwise_map.mp hKeys)).imp ?_
  intro c d hBoth
  exact Nat.lt_of_le_of_ne hBoth.1
    (mt choiceRank_injective hBoth.2)

/- Choices in key order have distinct keys. -/
theorem Ordered.nodup_keys
    {choices : List (Option Key × α)}
    (h : Ordered choices) : (choices.map (·.1)).Nodup := by
  refine List.pairwise_map.mpr (h.imp ?_)
  intro c d hLess hSame
  rw [hSame] at hLess
  exact Nat.lt_irrefl _ hLess

/- The fallback comes last, if there is one. -/
theorem Ordered.eq_append_fallback
    {choices : List (Option Key × α)}
    (h : Ordered choices) :
    choices =
      (choices.filter fun c => c.1.isSome) ++
        (Layout.fallback? choices).toList := by
  unfold Layout.fallback?
  induction choices with
  | nil => rfl
  | cons c rest ih =>
      rcases List.pairwise_cons.mp h with ⟨hHead, hRest⟩
      rcases c with ⟨key, a⟩
      cases key with
      | some k =>
          rw [List.filter_cons_of_pos rfl,
            List.filter_cons_of_neg (by simp),
            List.cons_append, ← ih hRest]
      | none =>
          have hLast : rest = [] := by
            rw [List.eq_nil_iff_forall_not_mem]
            rintro ⟨key, b⟩ hMem
            have hLess := hHead (key, b) hMem
            cases key with
            | none => exact Nat.lt_irrefl _ hLess
            | some k =>
                exact Nat.lt_asymm hLess
                  (rank_lt_choiceRank_none k)
          subst hLast
          rfl

/-
  Choices in key order are those that are found for the keys,
  one key after the other.
-/
theorem Ordered.eq_filterMap
    {choices : List (Option Key × Plan)}
    (h : Ordered choices) :
    choices =
      choiceOrder.filterMap fun key =>
        (choice? choices key).map fun p => (key, p) := by
  have hOrdered :
      Ordered
        (choiceOrder.filterMap fun key =>
          (choice? choices key).map fun p => (key, p)) := by
    refine List.pairwise_filterMap.mpr
      (pairwise_choiceOrder.imp ?_)
    intro key key' hLess c hc d hd
    rcases Option.map_eq_some_iff.mp hc with ⟨p, -, rfl⟩
    rcases Option.map_eq_some_iff.mp hd with ⟨q, -, rfl⟩
    exact hLess
  refine List.Perm.eq_of_pairwise ?_ h hOrdered ?_
  · intro c d _ _ hLess hMore
    exact absurd hMore (Nat.lt_asymm hLess)
  · refine (List.perm_ext_iff_of_nodup ?_ ?_).mpr ?_
    · exact h.nodup_keys.of_map
    · exact hOrdered.nodup_keys.of_map
    · rintro ⟨key, p⟩
      rw [List.mem_filterMap]
      constructor
      · intro hMem
        refine ⟨key, mem_choiceOrder key, ?_⟩
        rw [choice?_of_mem h.nodup_keys hMem]
        rfl
      · rintro ⟨key', -, hFound⟩
        rcases Option.map_eq_some_iff.mp hFound with
          ⟨q, hChoice, hSame⟩
        cases hSame
        exact mem_of_choice? hChoice

end Plan

------------------------------------------------------------
-- Charts
------------------------------------------------------------

/- The sounds that are told to the emitter of a node. -/
def Node.heard
    (r : Resolver)
    (n : Node)
    (param : String) : Option String :=
  if param ∈ n.kind.audioParams then n.sound? r param
  else none

namespace Flow

/- A plan that charts a flow from a node on. -/
inductive Charts
    (t : Flow)
    (k : Compiler)
    (r : Resolver) : String → Plan → Prop where
  | leaf
      {id : String}
      {n : Node}
      {action : List Instr}
      (hNode : t.get? id = some n)
      (hEmits : k.emitters n.kind n (n.heard r) = .ok action)
      (hLeaf : n.opensMenu = false) :
      Charts t k r id
        (.leaf action (n.kind.endsCall n.settings))
  | menu
      {id : String}
      {n : Node}
      {action : List Instr}
      {choices : List (Option Key × Plan)}
      (hNode : t.get? id = some n)
      (hEmits : k.emitters n.kind n (n.heard r) = .ok action)
      (hMenu : n.opensMenu = true)
      (hOrder : Plan.Ordered choices)
      (hFound :
        ∀ key c, t.childByKey? id key = some c →
          (Plan.choice? choices key).isSome = true)
      (hChild :
        ∀ key c p, t.childByKey? id key = some c →
          Plan.choice? choices key = some p →
            Charts t k r c p)
      (hFree :
        ∀ key, t.childByKey? id key = none →
          Plan.choice? choices key =
            if t.returnsOn k.options id key then some .back
            else none) :
      Charts t k r id (.menu action choices)

namespace Charts

variable {t : Flow}
variable {k : Compiler}
variable {r : Resolver}
variable {id : String}

/- The node of a plan, with what is emitted for it. -/
theorem exists_node
    {p : Plan}
    (h : t.Charts k r id p) :
    ∃ n, t.get? id = some n ∧
      k.emitters n.kind n (n.heard r) = .ok p.action := by
  cases h with
  | leaf hNode hEmits hLeaf => exact ⟨_, hNode, hEmits⟩
  | menu hNode hEmits hMenu hOrder hFound hChild hFree =>
      exact ⟨_, hNode, hEmits⟩

/- The plan of a node that opens no menu. -/
theorem opensMenu_leaf
    {action : List Instr}
    {endsCall : Bool}
    (h : t.Charts k r id (.leaf action endsCall)) :
    t.opensMenu id = false := by
  cases h with
  | leaf hNode hEmits hLeaf =>
      unfold opensMenu
      rw [hNode]
      exact hLeaf

/- The plan of a node that opens one. -/
theorem opensMenu_menu
    {action : List Instr}
    {choices : List (Option Key × Plan)}
    (h : t.Charts k r id (.menu action choices)) :
    t.opensMenu id = true := by
  cases h with
  | menu hNode hEmits hMenu hOrder hFound hChild hFree =>
      unfold opensMenu
      rw [hNode]
      exact hMenu

/- The choices of a menu come in key order. -/
theorem ordered
    {action : List Instr}
    {choices : List (Option Key × Plan)}
    (h : t.Charts k r id (.menu action choices)) :
    Plan.Ordered choices := by
  cases h with
  | menu hNode hEmits hMenu hOrder hFound hChild hFree =>
      exact hOrder

/- What is found for a key charts the child, or leads back. -/
theorem of_choice?
    {action : List Instr}
    {choices : List (Option Key × Plan)}
    (h : t.Charts k r id (.menu action choices))
    (key : Option Key) :
    (∃ c p, t.childByKey? id key = some c ∧
        Plan.choice? choices key = some p ∧
        t.Charts k r c p) ∨
      (t.childByKey? id key = none ∧
        Plan.choice? choices key =
          if t.returnsOn k.options id key then some .back
          else none) := by
  cases h with
  | menu hNode hEmits hMenu hOrder hFound hChild hFree =>
      cases hSelects : t.childByKey? id key with
      | none => exact Or.inr ⟨rfl, hFree key hSelects⟩
      | some c =>
          rcases Option.isSome_iff_exists.mp
            (hFound key c hSelects) with ⟨p, hPlan⟩
          exact Or.inl
            ⟨c, p, rfl, hPlan, hChild key c p hSelects hPlan⟩

/- Every choice charts a child, or leads back. -/
theorem of_mem_choices
    {action : List Instr}
    {choices : List (Option Key × Plan)}
    (h : t.Charts k r id (.menu action choices))
    {key : Option Key}
    {p : Plan}
    (hMem : (key, p) ∈ choices) :
    p = .back ∨ ∃ c, t.Charts k r c p := by
  have hChoice :=
    Plan.choice?_of_mem h.ordered.nodup_keys hMem
  rcases h.of_choice? key with
    ⟨c, p', -, hFound, hBelow⟩ | ⟨-, hBack⟩
  · rw [hChoice] at hFound
    cases hFound
    exact Or.inr ⟨c, hBelow⟩
  · rw [hChoice] at hBack
    split at hBack <;> cases hBack
    exact Or.inl rfl

/- In a plan that charts a flow a key has one choice. -/
theorem keyed
    {p : Plan}
    (h : t.Charts k r id p) : p.Keyed := by
  induction h with
  | leaf hNode hEmits hLeaf => exact .leaf
  | @menu id n action choices hNode hEmits hMenu hOrder
      hFound hChild hFree ih =>
      refine .menu hOrder.nodup_keys ?_
      rintro ⟨key, p⟩ hMem
      have hChoice :=
        Plan.choice?_of_mem hOrder.nodup_keys hMem
      cases hSelects : t.childByKey? id key with
      | some c => exact ih key c p hSelects hChoice
      | none =>
          rw [hFree key hSelects] at hChoice
          split at hChoice
          · cases hChoice
            exact .back
          · cases hChoice

end Charts

/-
  A relation of ids that plans do not see: related nodes emit
  the same and end a call alike, and where they open menus,
  each key leads to related children, or back alike.
-/
structure Mirrors
    (k : Compiler)
    (r : Resolver)
    (t t' : Flow)
    (R : String → String → Prop) : Prop where
  node :
    ∀ a b n, R a b → t.get? a = some n →
      ∃ n', t'.get? b = some n' ∧
        k.emitters n'.kind n' (n'.heard r) =
          k.emitters n.kind n (n.heard r) ∧
        n'.kind.endsCall n'.settings =
          n.kind.endsCall n.settings ∧
        n'.opensMenu = n.opensMenu
  selects :
    ∀ a b n, R a b → t.get? a = some n →
      n.opensMenu = true → ∀ key,
        Option.Rel R (t.childByKey? a key)
          (t'.childByKey? b key)
  returnsOn :
    ∀ a b n, R a b → t.get? a = some n →
      n.opensMenu = true → ∀ key,
        t'.returnsOn k.options b key =
          t.returnsOn k.options a key

/- A plan that charts a flow charts what mirrors it. -/
theorem Charts.mirrored
    {t t' : Flow}
    {k : Compiler}
    {r : Resolver}
    {R : String → String → Prop}
    {a b : String}
    {p : Plan}
    (hMirrors : Mirrors k r t t' R)
    (h : t.Charts k r a p)
    (hR : R a b) : t'.Charts k r b p := by
  induction h generalizing b with
  | @leaf a n action hNode hEmits hLeaf =>
      rcases hMirrors.node a b n hR hNode with
        ⟨n', hNode', hSame, hEnds, hOpens⟩
      rw [← hEnds]
      exact .leaf hNode' (hSame.trans hEmits)
        (hOpens.trans hLeaf)
  | @menu a n action choices hNode hEmits hMenu hOrder
      hFound hChild hFree ih =>
      rcases hMirrors.node a b n hR hNode with
        ⟨n', hNode', hSame, -, hOpens⟩
      have hSelects := hMirrors.selects a b n hR hNode hMenu
      have hBelow : ∀ key c', t'.childByKey? b key = some c' →
          ∃ c, t.childByKey? a key = some c ∧ R c c' := by
        intro key c' hSelected
        have hRel := hSelects key
        rw [hSelected] at hRel
        generalize t.childByKey? a key = found at hRel
        cases hRel with
        | some hRelated => exact ⟨_, rfl, hRelated⟩
      refine .menu hNode' (hSame.trans hEmits)
        (hOpens.trans hMenu) hOrder ?_ ?_ ?_
      · intro key c' hSelected
        rcases hBelow key c' hSelected with ⟨c, hHere, -⟩
        exact hFound key c hHere
      · intro key c' p hSelected hChoice
        rcases hBelow key c' hSelected with
          ⟨c, hHere, hRelated⟩
        exact ih key c p hHere hChoice hRelated
      · intro key hNone
        have hFreeHere : t.childByKey? a key = none := by
          have hRel := hSelects key
          rw [hNone] at hRel
          generalize t.childByKey? a key = found at hRel
          cases hRel
          rfl
        rw [hMirrors.returnsOn a b n hR hNode hMenu key]
        exact hFree key hFreeHere

end Flow

------------------------------------------------------------
-- Plans of Sound Flows
------------------------------------------------------------

namespace Outline

variable {t : Flow}
variable {k : Compiler}
variable {r : Resolver}

/- An emitter is told the sounds that the settings name. -/
theorem find?_sounds_eq_heard
    {whole : Outline}
    (hWhole : whole.Shows t)
    {id : String}
    {n : Node}
    (hMem : (id, n) ∈ whole.emitted) :
    Sound.find? (AudioRequest.sounds r whole.requests) id =
      n.heard r := by
  funext param
  unfold Node.heard
  split
  · rename_i hParam
    exact find?_sounds hWhole r hMem hParam
  · rename_i hParam
    exact find?_sounds_eq_none hWhole r
      (get?_of_mem_emitted hWhole hMem) hParam

/-
  The plan of a sound flow charts it.  The induction is on
  the outline, and the sounds are always those of the whole.
-/
theorem charts_of_plan
    (h : t.Sound)
    {whole : Outline}
    (hWhole : whole.Shows t)
    {x : Outline}
    (hShows : x.Shows t)
    (hEmitted : ∀ e ∈ x.emitted, e ∈ whole.emitted)
    {p : Plan}
    (hPlan :
      plan k.table (AudioRequest.sounds r whole.requests)
          k.options.returnKey (x.id == t.rootId) x =
        .ok p) : t.Charts k r x.id p := by
  induction hShows generalizing p with
  | @node id step children hNode hIds hChildren ih =>
      rcases plan_eq_ok hPlan with ⟨action, hAction, hCases⟩
      have hHere : (id, step) ∈ whole.emitted := by
        apply hEmitted
        unfold emitted
        exact List.mem_cons_self
      have hEmits :=
        (Node.action_eq_ok_iff
          (k.lookup_table step.kind)).mp hAction
      rw [find?_sounds_eq_heard hWhole hHere] at hEmits
      rcases hCases with
        ⟨hMenu, planned, hPlanned, hChoices⟩ | ⟨hLeaf, hEnd⟩
      · have hKeys :
            ((step.choices k.options.returnKey
              (id == t.rootId) .back planned).map
                (·.1)).Nodup := by
          apply Node.nodup_keys_choices
          rw [(planAll_eq_ok hPlanned).1]
          exact nodup_keys h hNode hIds hChildren
        -- No child is the root, so the plans of children are
        -- all made as those of inner nodes.
        have hBelow :
            ∀ y ∈ children, ∀ q,
              plan k.table
                  (AudioRequest.sounds r whole.requests)
                  k.options.returnKey false y = .ok q →
                t.Charts k r y.id q := by
          intro y hy q hq
          have hNotRoot : (y.id == t.rootId) = false := by
            apply beq_false_of_ne
            intro hRoot
            apply h.root_not_mem_childIds id
            rw [← hRoot, childIds_eq_map_id hNode hIds]
            exact List.mem_map_of_mem hy
          refine ih y hy ?_ (hNotRoot.symm ▸ hq)
          intro e he
          apply hEmitted
          unfold emitted
          rw [if_pos (branching_of_opensMenu hMenu)]
          exact List.mem_cons_of_mem _
            (mem_emittedAll_iff.mpr ⟨y, hy, he⟩)
        rw [hChoices]
        refine .menu hNode hEmits hMenu
          (Plan.ordered_inKeyOrder hKeys) ?_ ?_ ?_
        · intro key c hSelects
          rcases exists_choice?_of_child h hNode hIds
            hChildren hPlanned _ hSelects with
            ⟨y, hy, hId, q, hq, hChoice⟩
          rw [hChoice]
          rfl
        · intro key c p' hSelects hChoice'
          rcases exists_choice?_of_child h hNode hIds
            hChildren hPlanned _ hSelects with
            ⟨y, hy, hId, q, hq, hChoice⟩
          rw [hChoice] at hChoice'
          cases hChoice'
          rw [← hId]
          exact hBelow y hy p' hq
        · intro key hFree
          exact choice?_of_free h hNode hIds hChildren
            hPlanned hFree
      · rw [hEnd]
        exact .leaf hNode hEmits hLeaf

end Outline

/-
  A flow that compiles is sound and charted by a plan, which
  its script is laid out from.
-/
theorem Compiler.exists_chart
    {t : Flow}
    {k : Compiler}
    {r : Resolver}
    {c : Compilation}
    (h : k.compile t r = .ok c) :
    k.options.check = .ok () ∧ t.Sound ∧
      ∃ p, t.Charts k r t.rootId p ∧
        c.script =
          { flowName := t.name
            entryExtension := k.options.entryExtension
            blocks :=
              (Layout.mk k.options (k.topName t)).blocks
                p } := by
  have hSound := Flow.sound_of_clean (clean_of_compile h)
  rcases compile_eq_ok h with
    ⟨hOptions, -, -, x, p, hOutline, -, hPlan, hScript⟩
  rcases hSound.exists_outline? with
    ⟨x', hOutline', hId, hShows⟩
  rw [hOutline] at hOutline'
  cases hOutline'
  have hFirst : (x.id == t.rootId) = true := by
    rw [hId]
    exact beq_self_eq_true _
  refine ⟨hOptions, hSound, p, ?_, hScript⟩
  rw [← hId]
  apply Outline.charts_of_plan hSound hShows hShows
  · exact fun e he => he
  · rw [hFirst]
    exact hPlan

end CallFlow
