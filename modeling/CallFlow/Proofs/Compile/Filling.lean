import CallFlow.Proofs.Compile.Charting
import CallFlow.Proofs.Compile.Traversals

/-
  The blocks of a script, made in place.

  A block gets its slot before anything is known of it, and
  its steps only after the blocks of the menus inside it have
  got their slots.  The number of a block is the number of
  slots before its own.

  What is emitted for a node puts blocks behind those that
  are there, whatever these are.  This is what the induction
  is on.  Where nothing blocks a flow, the blocks come to the
  same as those that its plan is laid out in, or the same
  failure is met.

  Main declarations:
    * `Filling`
    * `Filling.inSlot`
    * `Layout.emitRoute`
    * `Layout.emitBlock`
    * `Filling.Lays`
    * `Filling.Lays.inSlot`
    * `Layout.lays_emitBlock`
    * `Compiler.emittedBlocks?_eq`
-/

namespace CallFlow

------------------------------------------------------------
-- Slots
------------------------------------------------------------

/-
  What is done with the blocks that there are so far.  It may
  come to no end, or else may fail, and no blocks are left.
-/
abbrev Filling : Type → Type :=
  StateT (List Block) (ExceptT CompileError Option)

namespace Filling

variable {α β : Type}

/- There is no end. -/
def endless : Filling α :=
  fun _ => ExceptT.mk none

/- What has a result, or fails, apart from the blocks. -/
def settle
    (x : Except CompileError α) : Filling α :=
  fun blocks => ExceptT.mk (some (x.map fun a => (a, blocks)))

/- A slot for a block with no steps yet, and its number. -/
def reserve
    (name : String) : Filling Nat := do
  let blocks ← get
  set (blocks ++ [⟨blocks.length, name, []⟩])
  return blocks.length

/- Put the steps of a block in its slot. -/
def fill
    (index : Nat)
    (steps : List Step) : Filling Unit :=
  modify fun blocks =>
    blocks.modify index fun b => { b with steps := steps }

/- A block whose slot comes before all that its steps take. -/
def inSlot
    (name : String)
    (steps : Filling (List Step)) : Filling Unit := do
  let index ← reserve name
  let made ← steps
  fill index made

end Filling

------------------------------------------------------------
-- Emission in Place
------------------------------------------------------------

namespace Layout

/-
  The steps for what a choice leads to: the way back, a menu,
  which gets a block, or a step that is no menu.
-/
def emitRoute
    (y : Layout)
    (emitters : Emitters)
    (sounds : List Sound)
    (emitMenu : String → String × Node → Filling Unit)
    (name : String)
    (route : Option Key × Option (String × Node)) :
    Filling (List Step) :=
  match route.2 with
  | none => return y.choiceSteps name (route.1, .back)
  | some e =>
      if e.2.opensMenu then do
        emitMenu (nestedName name route.1) e
        return [plain (choiceLabel route.1)
          (.goto (nestedName name route.1) .entry none)]
      else do
        let instrs ←
          Filling.settle (e.2.action emitters sounds e.1)
        return y.choiceSteps name
          (route.1,
            .leaf instrs (e.2.kind.endsCall e.2.settings))

/- The steps of the block of a menu, after its opening. -/
def emitMenuSteps
    (y : Layout)
    (emitters : Emitters)
    (sounds : List Sound)
    (emitMenu : String → String × Node → Filling Unit)
    (name : String)
    (instrs : List Instr)
    (routes : List (Option Key × Option (String × Node))) :
    Filling (List Step) := do
  let emit := y.emitRoute emitters sounds emitMenu name
  let keyed ← (routes.filter fun c => c.1.isSome).mapM emit
  let other ← (fallback? routes).elim
    (pure (retrySteps name .invalid instrs)) emit
  return actionSteps instrs ++ [y.askStep instrs] ++
    keyed.flatten ++ other ++ retrySteps name .timeout instrs

/- The steps of the block of a node, after its opening. -/
def emitSteps
    (y : Layout)
    (t : Flow)
    (emitters : Emitters)
    (sounds : List Sound)
    (emitMenu : String → String × Node → Filling Unit)
    (first : Bool)
    (name : String)
    (e : String × Node) : Filling (List Step) := do
  let instrs ← Filling.settle (e.2.action emitters sounds e.1)
  if e.2.opensMenu then
    y.emitMenuSteps emitters sounds emitMenu name instrs
      (e.2.choices y.options.returnKey first none
        ((t.childNodes e.2).map fun c => (c.2.key, some c)))
  else return leafSteps instrs

/- The steps of a block that come before its action. -/
def openingSteps
    (y : Layout)
    (first : Bool) : List Step :=
  if first then y.opening.map (plain .entry) else []

/-
  Emit the block of a node, and those of the menus inside it,
  if they are not too deep.
-/
def emitBlock
    (y : Layout)
    (t : Flow)
    (emitters : Emitters)
    (sounds : List Sound) :
    Nat → Bool → String → String × Node → Filling Unit
  | 0, _, _, _ => Filling.endless
  | depth + 1, first, name, e =>
      Filling.inSlot name do
        let steps ←
          y.emitSteps t emitters sounds
            (y.emitBlock t emitters sounds depth false) first
            name e
        return y.openingSteps first ++ steps

/- Blocks with their names, numbered from some number on. -/
def numbered
    (start : Nat)
    (named : List (String × List Step)) : List Block :=
  (named.zipIdx start).map fun b => ⟨b.2, b.1.1, b.1.2⟩

/- Blocks that come later have later numbers. -/
theorem numbered_append
    (start : Nat)
    (named named' : List (String × List Step)) :
    numbered start (named ++ named') =
      numbered start named ++
        numbered (start + named.length) named' := by
  unfold numbered
  rw [List.zipIdx_append, List.map_append]

/- Every one of them gets a number. -/
theorem length_numbered
    (start : Nat)
    (named : List (String × List Step)) :
    (numbered start named).length = named.length := by
  unfold numbered
  rw [List.length_map, List.length_zipIdx]

end Layout

------------------------------------------------------------
-- Blocks Laid
------------------------------------------------------------

namespace Filling

open Layout

variable {α β : Type}

/-
  There is an end, with a result, which comes with the blocks
  that were put behind those there were.
-/
def Lays
    (b : Filling α)
    (result :
      Except CompileError
        (α × List (String × List Step))) : Prop :=
  ∀ before,
    (b.run before).run =
      some (result.map fun r =>
        (r.1, before ++ numbered before.length r.2))

/- What is laid may be said in another way. -/
theorem Lays.congr
    {b : Filling α}
    {result result' :
      Except CompileError (α × List (String × List Step))}
    (h : b.Lays result)
    (hSame : result = result') : b.Lays result' :=
  hSame ▸ h

/- A result that is there takes no block. -/
theorem Lays.pure
    (a : α) : Lays (Pure.pure a) (.ok (a, [])) := by
  intro before
  show some (Except.ok (a, before)) =
    some (.ok (a, before ++ []))
  rw [List.append_nil]

/- Nor does one that may not be there. -/
theorem Lays.settle
    (x : Except CompileError α) :
    Lays (settle x) (x.map fun a => (a, [])) := by
  intro before
  cases x with
  | error e => rfl
  | ok a =>
      show some (Except.ok (a, before)) =
        some (.ok (a, before ++ []))
      rw [List.append_nil]

/- What is done next puts its blocks behind, or is not done. -/
theorem Lays.bind
    {b : Filling α}
    {f : α → Filling β}
    {result :
      Except CompileError (α × List (String × List Step))}
    {next :
      α → Except CompileError
        (β × List (String × List Step))}
    (h : b.Lays result)
    (hNext : ∀ a, (f a).Lays (next a)) :
    Lays (b >>= f)
      (result >>= fun r =>
        (next r.1).map fun s => (s.1, r.2 ++ s.2)) := by
  intro before
  show ((b.run before >>= fun r => (f r.1).run r.2) :
    ExceptT CompileError Option _).run = _
  rw [ExceptT.run_bind, h before]
  rcases result with e | ⟨a, laid⟩
  · rfl
  · show ((f a).run
      (before ++ numbered before.length laid)).run = _
    rw [hNext a]
    show _ = some (Except.map _ (Except.map _ (next a)))
    cases next a with
    | error e => rfl
    | ok r =>
        simp [Except.map, numbered_append, length_numbered]

/- Nothing more is put where a result is only looked at. -/
theorem Lays.map
    {b : Filling α}
    {result :
      Except CompileError (α × List (String × List Step))}
    (h : b.Lays result)
    (f : α → β) :
    Lays (b >>= fun a => Pure.pure (f a))
      (result.map fun r => (f r.1, r.2)) := by
  have hBoth := h.bind fun a => Lays.pure (f a)
  rcases result with e | ⟨a, laid⟩
  · exact hBoth
  · simpa [Except.map, Bind.bind, Except.bind] using hBoth

/- A slot is found by the number of those before it. -/
private theorem modify_length_append
    {γ : Type}
    (before after : List γ)
    (a : γ)
    (f : γ → γ) :
    (before ++ a :: after).modify before.length f =
      before ++ f a :: after := by
  simp [List.modify_eq_take_drop]

/- The block in a slot comes before those of its steps. -/
theorem Lays.inSlot
    {b : Filling (List Step)}
    {result :
      Except CompileError
        (List Step × List (String × List Step))}
    (h : b.Lays result)
    (name : String) :
    Lays (inSlot name b)
      (result.map fun r => ((), (name, r.1) :: r.2)) := by
  intro before
  have hInside := h (before ++ [⟨before.length, name, []⟩])
  show ((b.run (before ++ [⟨before.length, name, []⟩]) >>=
      fun r => (fill before.length r.1).run r.2) :
    ExceptT CompileError Option _).run = _
  rw [ExceptT.run_bind, hInside]
  cases result with
  | error e => rfl
  | ok r =>
      rcases r with ⟨steps, laid⟩
      show some (Except.ok ((), List.modify (_ ++ _) _ _)) = _
      rw [List.append_assoc, List.singleton_append,
        modify_length_append, List.length_append]
      rfl

end Filling

------------------------------------------------------------
-- Blocks of Plans
------------------------------------------------------------

namespace Layout

variable {y : Layout}
variable {t : Flow}
variable {emitters : Emitters}
variable {sounds : List Sound}
variable {emitMenu : String → String × Node → Filling Unit}

/-
  A way to emit the menus inside a menu: it puts there what
  their plans are laid out in.
-/
def EmitsMenu
    (y : Layout)
    (emitters : Emitters)
    (sounds : List Sound)
    (emitMenu : String → String × Node → Filling Unit)
    (o : Outline) : Prop :=
  o.top.2.opensMenu = true →
    ∀ name,
      (emitMenu name o.top).Lays
        ((o.plan emitters sounds y.options.returnKey
            false).map fun p => ((), y.nested name p))

/- The plan of a step that opens a menu is one. -/
private theorem exists_menu_of_plan
    {returnKey : Key}
    {first : Bool}
    {o : Outline}
    {p : Plan}
    (hMenu : o.top.2.opensMenu = true)
    (h :
      o.plan emitters sounds returnKey first = .ok p) :
    ∃ action choices, p = .menu action choices := by
  rcases o with ⟨id, step, children⟩
  rcases Outline.plan_eq_ok h with
    ⟨action, -, ⟨-, planned, -, rfl⟩ | ⟨hLeaf, -⟩⟩
  · exact ⟨action, _, rfl⟩
  · rw [show step.opensMenu = true from hMenu] at hLeaf
    cases hLeaf

/- A choice is emitted as its plan is laid out. -/
private theorem lays_emitRoute
    {c : Option Key × Option Outline}
    (h :
      ∀ o, c.2 = some o →
        y.EmitsMenu emitters sounds emitMenu o)
    (name : String) :
    (y.emitRoute emitters sounds emitMenu name
        (c.1, c.2.map Outline.top)).Lays
      ((Outline.planRoute emitters sounds y.options.returnKey
          c.2).map fun p =>
        (y.choiceSteps name (c.1, p),
          y.nested (nestedName name c.1) p)) := by
  rcases c with ⟨key, _ | ⟨id, step, children⟩⟩
  · exact .pure _
  · show Filling.Lays (if step.opensMenu then _ else _)
      (Except.map _ (Outline.plan _ _ _ _ _))
    by_cases hMenu : step.opensMenu = true
    · rw [if_pos hMenu]
      have hNested := (h _ rfl hMenu (nestedName name key)).map
        fun _ => [plain (choiceLabel key)
          (.goto (nestedName name key) .entry none)]
      refine hNested.congr ?_
      cases hPlan : Outline.plan emitters sounds
          y.options.returnKey false (.node id step children) with
      | error e => rfl
      | ok p =>
          rcases exists_menu_of_plan
              (o := .node id step children) hMenu hPlan with
            ⟨action, choices, rfl⟩
          rfl
    · rw [if_neg hMenu]
      have hAction :=
        (Filling.Lays.settle
          (step.action emitters sounds id)).map fun instrs =>
            y.choiceSteps name
              (key,
                .leaf instrs
                  (step.kind.endsCall step.settings))
      rw [Outline.plan_leaf (Bool.eq_false_iff.mpr hMenu)]
      refine hAction.congr ?_
      cases step.action emitters sounds id <;> rfl

/- Choices are emitted one after the other. -/
private theorem lays_mapM_emitRoute
    {routes : List (Option Key × Option Outline)}
    (h :
      ∀ c ∈ routes, ∀ o, c.2 = some o →
        y.EmitsMenu emitters sounds emitMenu o)
    (name : String) :
    ((routes.map fun c => (c.1, c.2.map Outline.top)).mapM
        (y.emitRoute emitters sounds emitMenu name)).Lays
      ((Outline.planRoutes emitters sounds y.options.returnKey
          routes).map fun choices =>
        (choices.map (y.choiceSteps name),
          y.nestedAll name choices)) := by
  induction routes with
  | nil => exact .pure _
  | cons c rest ih =>
      have hHead := lays_emitRoute (h c List.mem_cons_self) name
      have hRest := ih fun d hd =>
        h d (List.mem_cons_of_mem c hd)
      rw [List.map_cons, List.mapM_cons,
        Outline.planRoutes_cons]
      refine (hHead.bind fun steps =>
        hRest.map (steps :: ·)).congr ?_
      cases Outline.planRoute emitters sounds
          y.options.returnKey c.2 with
      | error e => rfl
      | ok p =>
          show Except.map _ (Except.map _ (Except.map _ _)) =
            Except.map _ (Outline.planRoutes _ _ _ _ >>= _)
          cases Outline.planRoutes emitters sounds
            y.options.returnKey rest <;> rfl

/- Choices that are planned have the keys of their routes. -/
private theorem forall_key_of_planRoutes
    {returnKey : Key}
    {routes : List (Option Key × Option Outline)}
    {choices : List (Option Key × Plan)}
    (h :
      Outline.planRoutes emitters sounds returnKey routes =
        .ok choices)
    {P : Option Key → Prop}
    (hKeys : ∀ c ∈ routes, P c.1) : ∀ d ∈ choices, P d.1 := by
  intro d hd
  have hMade : Plan.made d ∈ choices.map Plan.made :=
    List.mem_map_of_mem hd
  rw [← Plan.mapM_settled_eq_ok_iff.mp h] at hMade
  rcases List.mem_map.mp hMade with ⟨c, hc, hSame⟩
  have hKey : c.1 = d.1 := congrArg Prod.fst hSame
  exact hKey ▸ hKeys c hc

/- Steps of a menu whose choices end with the fallback. -/
private theorem menuSteps_append
    {keyed other : List (Option Key × Plan)}
    (hKeyed : ∀ c ∈ keyed, c.1.isSome = true)
    (hOther : ∀ c ∈ other, c.1.isNone = true)
    (name : String)
    (action : List Instr) :
    y.menuSteps name action (keyed ++ other) =
      actionSteps action ++ [y.askStep action] ++
        (keyed.map (y.choiceSteps name)).flatten ++
        y.fallbackSteps name action other ++
        retrySteps name .timeout action := by
  have hSome :
      (keyed ++ other).filter (fun c => c.1.isSome) =
        keyed := by
    rw [List.filter_append, List.filter_eq_self.mpr hKeyed,
      List.filter_eq_nil_iff.mpr, List.append_nil]
    intro c hc
    simpa using hOther c hc
  have hNone : fallback? (keyed ++ other) = fallback? other := by
    unfold fallback?
    rw [List.filter_append, List.filter_eq_nil_iff.mpr,
      List.nil_append]
    intro c hc
    have hKey := hKeyed c hc
    simp [Option.isSome_iff_ne_none.mp hKey]
  rw [menuSteps_eq]
  unfold keyedSteps fallbackSteps
  rw [hSome, hNone, List.flatMap_def]

/- Blocks of later choices come later. -/
private theorem nestedAll_append
    (name : String)
    (choices choices' : List (Option Key × Plan)) :
    y.nestedAll name (choices ++ choices') =
      y.nestedAll name choices ++
        y.nestedAll name choices' := by
  simp only [nestedAll_eq_flatMap, List.flatMap_append]

/- The fallback is emitted, or else the menu asks again. -/
private theorem lays_fallback
    {route? : Option (Option Key × Option Outline)}
    (h :
      ∀ c ∈ route?, c.1 = none ∧
        ∀ o, c.2 = some o →
          y.EmitsMenu emitters sounds emitMenu o)
    (name : String)
    (action : List Instr) :
    ((route?.map fun c => (c.1, c.2.map Outline.top)).elim
        (pure (retrySteps name .invalid action))
        (y.emitRoute emitters sounds emitMenu name)).Lays
      ((Outline.planRoutes emitters sounds y.options.returnKey
          route?.toList).map fun choices =>
        (y.fallbackSteps name action choices,
          y.nestedAll name choices)) := by
  rcases route? with _ | ⟨key, child⟩
  · exact .pure _
  · rcases h _ rfl with ⟨hKey, hEmits⟩
    rcases (hKey : key = none) with rfl
    refine (lays_emitRoute hEmits name).congr ?_
    rw [Option.toList_some, Outline.planRoutes_cons]
    cases Outline.planRoute emitters sounds
        y.options.returnKey child with
    | error e => rfl
    | ok p =>
        show Except.ok _ = Except.ok (_, _ ++ [])
        rw [List.append_nil]
        rfl

/- The fallback is told by the keys alone. -/
private theorem fallback?_map
    {α β : Type}
    (f : α → β)
    (routes : List (Option Key × α)) :
    fallback? (routes.map fun c => (c.1, f c.2)) =
      (fallback? routes).map fun c => (c.1, f c.2) := by
  unfold fallback?
  rw [List.filter_map, List.getLast?_map]
  rfl

/- The steps of a menu are emitted as they are laid out. -/
private theorem lays_emitMenuSteps
    {routes : List (Option Key × Option Outline)}
    (hOrder : Plan.Ordered routes)
    (h :
      ∀ c ∈ routes, ∀ o, c.2 = some o →
        y.EmitsMenu emitters sounds emitMenu o)
    (name : String)
    (action : List Instr) :
    (y.emitMenuSteps emitters sounds emitMenu name action
        (routes.map fun c => (c.1, c.2.map Outline.top))).Lays
      ((Outline.planRoutes emitters sounds y.options.returnKey
          routes).map fun choices =>
        (y.menuSteps name action choices,
          y.nestedAll name choices)) := by
  have hKeyed :
      ∀ c ∈ routes.filter fun c => c.1.isSome,
        c.1.isSome = true ∧ c ∈ routes := by
    intro c hc
    rcases List.mem_filter.mp hc with ⟨hMem, hKey⟩
    exact ⟨hKey, hMem⟩
  have hOther :
      ∀ c ∈ fallback? routes,
        c.1.isNone = true ∧ c ∈ routes := by
    intro c hc
    rcases List.mem_filter.mp (List.mem_of_getLast? hc) with
      ⟨hMem, hKey⟩
    exact ⟨hKey, hMem⟩
  have hFirst := lays_mapM_emitRoute
    (fun c hc => h c (hKeyed c hc).2) name
  have hNext := lays_fallback
    (fun c hc =>
      ⟨Option.isNone_iff_eq_none.mp (hOther c hc).1,
        h c (hOther c hc).2⟩) name action
  unfold emitMenuSteps
  rw [List.filter_map, fallback?_map]
  refine (hFirst.bind fun keyed => hNext.map fun other =>
    actionSteps action ++ [y.askStep action] ++
      keyed.flatten ++ other ++
      retrySteps name .timeout action).congr ?_
  conv =>
    rhs
    rw [hOrder.eq_append_fallback, Outline.planRoutes_append]
  cases hPlanned : Outline.planRoutes emitters sounds
      y.options.returnKey
      (routes.filter fun c => c.1.isSome) with
  | error e => rfl
  | ok keyed =>
      cases hLast : Outline.planRoutes emitters sounds
          y.options.returnKey (fallback? routes).toList with
      | error e => rfl
      | ok other =>
          have hSome : ∀ c ∈ keyed, c.1.isSome = true :=
            forall_key_of_planRoutes hPlanned
              (P := fun key => key.isSome = true)
              fun c hc => (hKeyed c hc).1
          have hNone : ∀ c ∈ other, c.1.isNone = true :=
            forall_key_of_planRoutes hLast
              (P := fun key => key.isNone = true)
              fun c hc =>
                (hOther c (Option.mem_toList.mp hc)).1
          show _ = Except.ok (y.menuSteps name action (_ ++ _),
            y.nestedAll name (_ ++ _))
          rw [menuSteps_append hSome hNone, nestedAll_append]
          rfl

/- The steps of the block of a plan, and the blocks inside. -/
def content
    (y : Layout)
    (name : String) :
    Plan → List Step × List (String × List Step)
  | .menu action choices =>
      (y.menuSteps name action choices,
        y.nestedAll name choices)
  | .leaf action _ => (leafSteps action, [])
  | .back => ([], [])

/- The steps of a node are emitted as its plan is laid out. -/
private theorem lays_emitSteps
    (hSound : t.Sound)
    {id : String}
    {step : Node}
    {children : List Outline}
    (hNode : t.get? id = some step)
    (hIds : children.map Outline.id = step.children)
    (hChildren : ∀ o ∈ children, o.Shows t)
    (h :
      ∀ o ∈ children, y.EmitsMenu emitters sounds emitMenu o)
    (first : Bool)
    (name : String) :
    (y.emitSteps t emitters sounds emitMenu first name
        (id, step)).Lays
      ((Outline.plan emitters sounds y.options.returnKey first
          (.node id step children)).map (y.content name)) := by
  have hAction :=
    Filling.Lays.settle (step.action emitters sounds id)
  by_cases hMenu : step.opensMenu = true
  · have hOrder :
        Plan.Ordered
          (Outline.routes y.options.returnKey first step
            children) := by
      apply Plan.ordered_inKeyOrder
      apply Node.nodup_keys_choices
      rw [List.map_map]
      exact Outline.nodup_keys hSound hNode hIds hChildren
    have hRoutes := lays_emitMenuSteps (y := y) hOrder
      (fun c hc o ho => h o (Outline.of_mem_routes hc ho)) name
    show Filling.Lays (_ >>= fun instrs =>
      if step.opensMenu then _ else _) _
    simp only [if_pos hMenu]
    rw [Outline.childNodes_eq hIds hChildren,
      Outline.choices_top_eq_map, Outline.plan_menu hMenu,
      Outline.mapM_settled_choices]
    refine (hAction.bind hRoutes).congr ?_
    cases step.action emitters sounds id with
    | error e => rfl
    | ok action =>
        show Except.map _ (Except.map _ _) =
          Except.map _ (Except.map _ _)
        cases Outline.planRoutes emitters sounds
          y.options.returnKey _ <;> rfl
  · show Filling.Lays (_ >>= fun instrs =>
      if step.opensMenu then _ else _) _
    simp only [if_neg hMenu]
    rw [Outline.plan_leaf (Bool.eq_false_iff.mpr hMenu)]
    refine (hAction.map leafSteps).congr ?_
    cases step.action emitters sounds id <;> rfl

/- The block of a node is emitted as its plan is laid out. -/
theorem lays_emitBlock
    (hSound : t.Sound)
    {depth : Nat}
    {o : Outline}
    (hShows : o.Shows t)
    (hOutline : t.outlineWithin? depth o.id = some o)
    (first : Bool)
    (name : String) :
    (y.emitBlock t emitters sounds depth first name
        o.top).Lays
      ((o.plan emitters sounds y.options.returnKey
          first).map fun p =>
        ((),
          (name, y.openingSteps first ++ (y.content name p).1) ::
            (y.content name p).2)) := by
  induction depth generalizing o first name with
  | zero => cases hOutline
  | succ depth ih =>
      cases hShows with
      | @node id step children hNode hIds hChildren =>
          have hMenus :
              ∀ c ∈ children,
                y.EmitsMenu emitters sounds
                  (y.emitBlock t emitters sounds depth false)
                  c := by
            intro c hc hMenu name
            refine (ih (hChildren c hc)
              (Outline.outlineWithin?_child hOutline hc) false
              name).congr ?_
            cases hPlan : c.plan emitters sounds
                y.options.returnKey false with
            | error e => rfl
            | ok p =>
                rcases exists_menu_of_plan hMenu hPlan with
                  ⟨action, choices, rfl⟩
                rfl
          have hSteps := lays_emitSteps hSound hNode hIds
            hChildren hMenus first name
          refine ((hSteps.map (y.openingSteps first ++ ·)).inSlot
            name).congr ?_
          cases Outline.plan emitters sounds y.options.returnKey
            first (.node id step children) <;> rfl

end Layout

------------------------------------------------------------
-- Scripts
------------------------------------------------------------

namespace Compiler

/- The blocks that are emitted from a node on, in place. -/
def emittedBlocks?
    (k : Compiler)
    (t : Flow)
    (sounds : List Sound)
    (depth : Nat)
    (e : String × Node) :
    Option (Except CompileError (List Block)) :=
  let y : Layout := ⟨k.options, k.topName t⟩
  ((y.emitBlock t k.table sounds depth true y.top
    e).run []).run.map fun result => result.map Prod.snd

/-
  Nothing blocks a flow.  Then emitting its blocks in place
  comes to an end, with the blocks of its script in their
  order, or with the failure that there is no script for.
-/
theorem emittedBlocks?_eq
    {t : Flow}
    {x : Outline}
    (hFree : ¬ t.Blocked)
    (hOutline : t.outline? = some x)
    (k : Compiler)
    (sounds : List Sound)
    {depth : Nat}
    (hDepth : t.size ≤ depth) :
    k.emittedBlocks? t sounds depth x.top =
      some ((k.script t x sounds).map Script.blocks) := by
  have hSound := Flow.sound_of_not_blocked hFree
  rcases hSound.exists_outline? with
    ⟨x', hOutline', hId, hShows⟩
  rw [hOutline] at hOutline'
  cases hOutline'
  let y : Layout := ⟨k.options, k.topName t⟩
  have hLays :
      (y.emitBlock t k.table sounds depth true y.top
        x.top).Lays _ :=
    Layout.lays_emitBlock hSound hShows
      (hSound.outlineWithin?_of_size_le hShows hId hDepth) true
      y.top
  show Option.map _ ((y.emitBlock t k.table sounds depth true
    y.top x.top).run []).run = _
  rw [hLays []]
  unfold script
  cases hPlan : x.plan k.table sounds k.options.returnKey
      true with
  | error e => rfl
  | ok p =>
      rcases x with ⟨id, step, children⟩
      rcases Outline.plan_eq_ok hPlan with
        ⟨action, -, ⟨-, planned, -, rfl⟩ | ⟨-, rfl⟩⟩ <;>
        rfl

/-
  The blocks of a compiled script have been emitted in place,
  from the root of the flow on.
-/
theorem emittedBlocks?_of_compile
    {t : Flow}
    {k : Compiler}
    {r : Resolver}
    {c : Compilation}
    (h : k.compile t r = .ok c) :
    ∃ x, t.outline? = some x ∧
      k.emittedBlocks? t (AudioRequest.sounds r x.requests)
          t.size x.top =
        some (.ok c.script.blocks) := by
  rcases compile_eq_ok h with
    ⟨-, hFree, -, x, p, hOutline, -, hPlan, hScript⟩
  have hNotBlocked : ¬ t.Blocked := by
    rintro ⟨f, hf, hBlocks⟩
    exact List.any_eq_false.mp hFree f hf hBlocks
  refine ⟨x, hOutline, ?_⟩
  rw [emittedBlocks?_eq hNotBlocked hOutline k _
    (Nat.le_refl t.size)]
  unfold script
  rw [hPlan, hScript]
  rfl

end Compiler

end CallFlow
