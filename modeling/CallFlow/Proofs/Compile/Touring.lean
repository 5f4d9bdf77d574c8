import CallFlow.Proofs.Compile.Charting
import Mathlib.Data.List.Forall2

/-
  The tour of the menus of a flow, which its blocks follow.

  The tour starts at the root, and goes on from each menu with
  the menus that its keys select, in key order.  Each menu is
  told by the way to it from the root.  In a sound flow no way
  is as long as there are nodes, so the tour comes to the end
  of every way.

  Main declarations:
    * `Flow.submenu?`
    * `Flow.follow?`
    * `Flow.tour`
    * `Flow.Sound.mem_tour_iff`
    * `Layout.blockName`
    * `Layout.LaysOut`
    * `Layout.BlockOf`
    * `Layout.blockOf_blocks`
    * `Compiler.forall₂_blockOf`
    * `Compiler.exists_blockOf`
-/

namespace CallFlow

------------------------------------------------------------
-- Tours
------------------------------------------------------------

namespace Flow

/- The menu that a key selects in a menu, if there is one. -/
def submenu?
    (t : Flow)
    (menu : String)
    (key : Option Key) : Option String :=
  if t.opensMenu menu then
    (t.childByKey? menu key).filter t.opensMenu
  else none

/- The menu that a way leads to. -/
def follow?
    (t : Flow) : String → List (Option Key) → Option String
  | menu, [] => some menu
  | menu, key :: way =>
      (t.submenu? menu key).bind fun c => follow? t c way

/- What lies below a menu, by the tours of its menus. -/
def tourBelow
    (t : Flow)
    (tours : String → List (List (Option Key) × String))
    (menu : String) : List (List (Option Key) × String) :=
  Plan.choiceOrder.flatMap fun key =>
    match t.submenu? menu key with
    | none => []
    | some c => (tours c).map fun e => (key :: e.1, e.2)

/-
  The menus from one on, down to some depth, with the ways to
  them.  Each comes before those that lie below it, which
  come in key order.
-/
def tourWithin
    (t : Flow) :
    Nat → String → List (List (Option Key) × String)
  | 0, _ => []
  | depth + 1, menu =>
      ([], menu) :: t.tourBelow (t.tourWithin depth) menu

/- The root, and the menus that a call comes to from it. -/
def tour
    (t : Flow) : List (List (Option Key) × String) :=
  t.tourWithin t.size t.rootId

variable {t : Flow}

/- A menu in a menu is the child that the key selects. -/
theorem submenu?_eq_some_iff
    {menu c : String}
    {key : Option Key} :
    t.submenu? menu key = some c ↔
      t.opensMenu menu = true ∧
        t.childByKey? menu key = some c ∧
        t.opensMenu c = true := by
  unfold submenu?
  by_cases hMenu : t.opensMenu menu = true
  · rw [if_pos hMenu, Option.filter_eq_some_iff]
    simp [hMenu]
  · rw [if_neg hMenu]
    simp [hMenu]

/- Nothing is selected unless a child that is a menu is. -/
theorem submenu?_eq_none
    {menu : String}
    {key : Option Key}
    (h :
      ∀ c, t.childByKey? menu key = some c →
        t.opensMenu c = false) :
    t.submenu? menu key = none := by
  rw [Option.eq_none_iff_forall_ne_some]
  intro c hSelects
  rcases submenu?_eq_some_iff.mp hSelects with
    ⟨-, hChild, hMenu⟩
  rw [h c hChild] at hMenu
  cases hMenu

/- A child that a key selects names its parent. -/
theorem Sound.parentId?_of_childByKey?
    (h : t.Sound)
    {parent c : String}
    {key : Option Key}
    (hSelects : t.childByKey? parent key = some c) :
    t.parentId? c = some parent :=
  (h.links parent c).mp (of_childByKey?_eq_some hSelects).1

/- What lies below a menu begins with one of its keys. -/
private theorem mem_tourBelow_iff
    {tours : String → List (List (Option Key) × String)}
    {menu x : String}
    {way : List (Option Key)} :
    (way, x) ∈ t.tourBelow tours menu ↔
      ∃ key rest c, way = key :: rest ∧
        t.submenu? menu key = some c ∧
        (rest, x) ∈ tours c := by
  unfold tourBelow
  rw [List.mem_flatMap]
  constructor
  · rintro ⟨key, -, hMem⟩
    split at hMem
    · cases hMem
    · rename_i c hSub
      rcases List.mem_map.mp hMem with
        ⟨⟨rest, x'⟩, hRest, hSame⟩
      cases hSame
      exact ⟨key, rest, c, rfl, hSub, hRest⟩
  · rintro ⟨key, rest, c, hWay, hSub, hRest⟩
    refine ⟨key, Plan.mem_choiceOrder key, ?_⟩
    rw [hSub, hWay]
    exact List.mem_map.mpr ⟨(rest, x), hRest, rfl⟩

/- Nothing below a menu is the menu itself. -/
theorem way_ne_nil_of_mem_tourBelow
    {tours : String → List (List (Option Key) × String)}
    {menu : String}
    {e : List (Option Key) × String}
    (h : e ∈ t.tourBelow tours menu) : e.1 ≠ [] := by
  rcases e with ⟨way, x⟩
  rcases mem_tourBelow_iff.mp h with ⟨key, rest, c, rfl, -⟩
  exact List.cons_ne_nil key rest

/- A tour that goes deep enough comes to the end of a way. -/
private theorem Sound.mem_tourWithin_iff
    (h : t.Sound)
    {depth j : Nat}
    {menu : String}
    (hj : t.ancestor? j menu = some t.rootId)
    (hDepth : t.size ≤ depth + j)
    {way : List (Option Key)}
    {x : String} :
    (way, x) ∈ t.tourWithin depth menu ↔
      t.follow? menu way = some x := by
  induction depth generalizing menu j way with
  | zero =>
      have hSteps := h.steps_lt_size hj
      omega
  | succ depth ih =>
      have hBelow : ∀ {key c rest},
          t.submenu? menu key = some c →
            ((rest, x) ∈ t.tourWithin depth c ↔
              t.follow? c rest = some x) := by
        intro key c rest hSub
        have hParent := h.parentId?_of_childByKey?
          (submenu?_eq_some_iff.mp hSub).2.1
        apply ih (j := j + 1)
        · rw [ancestor?_succ hParent]
          exact hj
        · omega
      unfold tourWithin
      rw [List.mem_cons, mem_tourBelow_iff]
      cases way with
      | nil =>
          unfold follow?
          simp [eq_comm]
      | cons key way =>
          unfold follow?
          rw [Option.bind_eq_some_iff]
          constructor
          · rintro (hHere | ⟨key', rest, c, hWay, hSub, hMem⟩)
            · cases hHere
            · cases hWay
              exact ⟨c, hSub, (hBelow hSub).mp hMem⟩
          · rintro ⟨c, hSub, hFollows⟩
            exact
              Or.inr
                ⟨key, way, c, rfl, hSub,
                  (hBelow hSub).mpr hFollows⟩

/- The tour of a sound flow is of the ends of all ways. -/
theorem Sound.mem_tour_iff
    (h : t.Sound)
    {way : List (Option Key)}
    {x : String} :
    (way, x) ∈ t.tour ↔ t.follow? t.rootId way = some x :=
  h.mem_tourWithin_iff (j := 0) rfl (Nat.le_refl t.size)

/- The root is on the tour. -/
theorem Sound.root_mem_tour
    (h : t.Sound) : ([], t.rootId) ∈ t.tour :=
  h.mem_tour_iff.mpr rfl

/- The tour is the root, and what lies below it. -/
theorem Sound.tour_eq
    (h : t.Sound) :
    ∃ depth, t.size = depth + 1 ∧
      t.tour =
        ([], t.rootId) ::
          t.tourBelow (t.tourWithin depth) t.rootId := by
  have hSome : t.size ≠ 0 := by
    have hSteps := h.steps_lt_size (k := 0) rfl
    omega
  rcases Nat.exists_eq_add_one_of_ne_zero hSome with
    ⟨depth, hSize⟩
  refine ⟨depth, hSize, ?_⟩
  unfold tour
  rw [hSize, tourWithin]

/- A root that is no menu is the whole tour. -/
theorem Sound.tour_of_leaf
    (h : t.Sound)
    (hLeaf : t.opensMenu t.rootId = false) :
    t.tour = [([], t.rootId)] := by
  rcases h.tour_eq with ⟨depth, -, hTour⟩
  rw [hTour]
  unfold tourBelow submenu?
  simp [hLeaf]

end Flow

------------------------------------------------------------
-- Blocks of Tours
------------------------------------------------------------

namespace Layout

/- The name of the block at the end of a way. -/
def blockName
    (name : String)
    (way : List (Option Key)) : String :=
  name ++
    String.join
      (way.map fun key =>
        "-" ++ (key.map Key.token).getD "invalid")

/- A name goes on from that of the block on the way. -/
theorem blockName_cons
    (name : String)
    (key : Option Key)
    (way : List (Option Key)) :
    blockName name (key :: way) =
      blockName (nestedName name key) way := by
  simp [blockName, nestedName, String.append_assoc]

/- Choices in key order are laid out key after key. -/
private theorem nestedAll_of_ordered
    (y : Layout)
    (name : String)
    {choices : List (Option Key × Plan)}
    (h : Plan.Ordered choices) :
    y.nestedAll name choices =
      Plan.choiceOrder.flatMap fun key =>
        match Plan.choice? choices key with
        | none => []
        | some p => y.nested (nestedName name key) p := by
  have hFlat : ∀ cs : List (Option Key × Plan),
      y.nestedAll name cs =
        cs.flatMap fun c =>
          y.nested (nestedName name c.1) c.2 := by
    intro cs
    induction cs with
    | nil => rfl
    | cons c rest ih =>
        unfold nestedAll
        rw [ih, List.flatMap_cons]
  calc y.nestedAll name choices
      = y.nestedAll name
          (Plan.choiceOrder.filterMap fun key =>
            (Plan.choice? choices key).map fun p =>
              (key, p)) := by rw [← h.eq_filterMap]
    _ = _ := by
        rw [hFlat, List.filterMap_eq_flatMap_toList,
          List.flatMap_assoc]
        congr 1
        funext key
        cases Plan.choice? choices key <;> simp

/-
  What is laid out for a menu on a tour: a block that is named
  for the way to it, and charts the flow from the menu on.
-/
def LaysOut
    (y : Layout)
    (t : Flow)
    (k : Compiler)
    (r : Resolver)
    (name : String)
    (e : List (Option Key) × String)
    (b : String × List Step) : Prop :=
  b.1 = blockName name e.1 ∧
    ∃ action choices,
      t.Charts k r e.2 (.menu action choices) ∧
        b.2 = y.menuSteps b.1 action choices

variable {y : Layout}
variable {t : Flow}
variable {k : Compiler}
variable {r : Resolver}

/- The blocks in a menu follow the tour below it. -/
private theorem laysOut_nestedAll
    {tours : String → List (List (Option Key) × String)}
    {menu : String}
    {action : List Instr}
    {choices : List (Option Key × Plan)}
    (hChart : t.Charts k r menu (.menu action choices))
    {name : String}
    (hInner :
      ∀ key c inner innerChoices,
        t.childByKey? menu key = some c →
          t.Charts k r c (.menu inner innerChoices) →
            List.Forall₂
              (y.LaysOut t k r (nestedName name key))
              (tours c)
              (y.nested (nestedName name key)
                (.menu inner innerChoices))) :
    List.Forall₂
      (fun e b => e.1 ≠ [] ∧ y.LaysOut t k r name e b)
      (t.tourBelow tours menu)
      (y.nestedAll name choices) := by
  have hKeys : List.Forall₂ Eq
      Plan.choiceOrder Plan.choiceOrder :=
    List.forall₂_refl _
  rw [nestedAll_of_ordered y name hChart.ordered]
  refine List.rel_flatMap hKeys ?_
  rintro key _ rfl
  dsimp only
  rcases hChart.of_choice? key with
    ⟨c, p, hSelects, hChoice, hBelow⟩ | ⟨hNone, hChoice⟩
  · rw [hChoice]
    cases p with
    | back => cases hBelow
    | leaf leafAction endsCall =>
        have hSub : t.submenu? menu key = none := by
          apply Flow.submenu?_eq_none
          intro c' hSelects'
          rw [hSelects] at hSelects'
          cases hSelects'
          exact hBelow.opensMenu_leaf
        rw [hSub]
        exact .nil
    | menu inner innerChoices =>
        have hSub : t.submenu? menu key = some c :=
          Flow.submenu?_eq_some_iff.mpr
            ⟨hChart.opensMenu_menu, hSelects,
              hBelow.opensMenu_menu⟩
        rw [hSub]
        refine List.forall₂_map_left_iff.mpr
          ((hInner key c _ _ hSelects hBelow).imp ?_)
        rintro e b ⟨hName, hRest⟩
        refine ⟨List.cons_ne_nil _ _, ?_, hRest⟩
        rw [blockName_cons]
        exact hName
  · -- The way back is all that there may be.
    have hSub : t.submenu? menu key = none := by
      apply Flow.submenu?_eq_none
      intro c hSelects
      rw [hNone] at hSelects
      cases hSelects
    rw [hSub, hChoice]
    cases t.returnsOn k.options menu key <;> exact .nil

/- The blocks of a plan follow a tour that is deep enough. -/
private theorem laysOut_nested
    (h : t.Sound)
    {depth j : Nat}
    {menu : String}
    {action : List Instr}
    {choices : List (Option Key × Plan)}
    (hj : t.ancestor? j menu = some t.rootId)
    (hDepth : t.size ≤ depth + j)
    (hChart : t.Charts k r menu (.menu action choices))
    (name : String) :
    List.Forall₂ (y.LaysOut t k r name)
      (t.tourWithin depth menu)
      (y.nested name (.menu action choices)) := by
  induction depth generalizing menu j action choices name with
  | zero =>
      have hSteps := h.steps_lt_size hj
      omega
  | succ depth ih =>
      unfold Flow.tourWithin nested
      refine .cons ⟨?_, action, choices, hChart, rfl⟩ ?_
      · simp [blockName]
      · refine (laysOut_nestedAll hChart ?_).imp
          fun e b h => h.2
        intro key c inner innerChoices hSelects hBelow
        refine ih (j := j + 1) ?_ (by omega) hBelow _
        rw [Flow.ancestor?_succ
          (h.parentId?_of_childByKey? hSelects)]
        exact hj

------------------------------------------------------------
-- Blocks of Scripts
------------------------------------------------------------

/-
  The block of a menu on the tour, or of a root that is no
  menu.  The first block begins with what opens the call.
-/
inductive BlockOf
    (y : Layout)
    (t : Flow)
    (k : Compiler)
    (r : Resolver)
    (e : List (Option Key) × String)
    (b : Block) : Prop where
  | menu
      {opening : List Step}
      {action : List Instr}
      {choices : List (Option Key × Plan)}
      (hName : b.name = blockName y.top e.1)
      (hChart : t.Charts k r e.2 (.menu action choices))
      (hOpening :
        opening =
          if e.1 = [] then y.opening.map (plain .entry)
          else [])
      (hHolds : y.HoldsMenu b opening action choices)
  | leaf
      {action : List Instr}
      {endsCall : Bool}
      (hName : b.name = blockName y.top e.1)
      (hChart : t.Charts k r e.2 (.leaf action endsCall))
      (hFirst : e.1 = [])
      (hSteps :
        b.steps =
          y.opening.map (plain .entry) ++ leafSteps action)

/- The block of a menu is named for the way to it. -/
theorem BlockOf.name_eq
    {e : List (Option Key) × String}
    {b : Block}
    (h : y.BlockOf t k r e b) :
    b.name = blockName y.top e.1 := by
  cases h with
  | menu hName => exact hName
  | leaf hName => exact hName

/- Numbering what is laid out makes it blocks. -/
private theorem forall₂_numbered
    {α : Type}
    {R : α → String × List Step → Prop}
    {S : α → Block → Prop}
    (hBlock : ∀ a b i, R a b → S a ⟨i, b.1, b.2⟩)
    {l : List α}
    {laid : List (String × List Step)}
    (h : List.Forall₂ R l laid)
    (i : Nat) :
    List.Forall₂ S l
      ((laid.zipIdx i).map fun b => ⟨b.2, b.1.1, b.1.2⟩) := by
  induction h generalizing i with
  | nil => exact .nil
  | cons hHead hRest ih =>
      rw [List.zipIdx_cons, List.map_cons]
      exact .cons (hBlock _ _ i hHead) (ih (i + 1))

/- The blocks of a plan that charts a flow follow its tour. -/
theorem blockOf_blocks
    (h : t.Sound)
    {p : Plan}
    (hChart : t.Charts k r t.rootId p) :
    List.Forall₂ (y.BlockOf t k r) t.tour (y.blocks p) := by
  cases p with
  | back => cases hChart
  | leaf action endsCall =>
      rw [h.tour_of_leaf hChart.opensMenu_leaf]
      refine .cons (.leaf ?_ hChart rfl rfl) .nil
      simp [blockName]
  | menu action choices =>
      rcases h.tour_eq with ⟨depth, hSize, hTour⟩
      have hBelow :
          List.Forall₂
            (fun e b =>
              e.1 ≠ [] ∧ y.LaysOut t k r y.top e b)
            (t.tourBelow (t.tourWithin depth) t.rootId)
            (y.nestedAll y.top choices) := by
        refine laysOut_nestedAll hChart ?_
        intro key c inner innerChoices hSelects hInner
        refine laysOut_nested h (j := 1) ?_ (by omega) hInner _
        rw [Flow.ancestor?_succ
          (h.parentId?_of_childByKey? hSelects)]
        rfl
      unfold blocks named
      rw [hTour, List.zipIdx_cons, List.map_cons]
      refine .cons (.menu ?_ hChart rfl ⟨rfl, ?_⟩) ?_
      · simp [blockName]
      · intro st hst
        rcases List.mem_map.mp hst with ⟨i, -, rfl⟩
        exact ⟨rfl, rfl⟩
      · refine forall₂_numbered ?_ hBelow 1
        rintro e b i ⟨hWay, hName, action', choices', hInner,
          hSteps⟩
        refine .menu hName hInner rfl ⟨?_, ?_⟩
        · rw [if_neg hWay]
          exact hSteps
        · rw [if_neg hWay]
          simp

end Layout

/- The blocks of a script follow the tour of the flow. -/
theorem Compiler.forall₂_blockOf
    {t : Flow}
    {k : Compiler}
    {r : Resolver}
    {c : Compilation}
    (h : k.compile t r = .ok c) :
    List.Forall₂
      ((Layout.mk k.options (k.topName t)).BlockOf t k r)
      t.tour c.script.blocks := by
  rcases exists_chart h with ⟨-, hSound, p, hChart, hScript⟩
  rw [hScript]
  exact Layout.blockOf_blocks hSound hChart

/- They have distinct names. -/
theorem Compiler.nodup_block_names
    {t : Flow}
    {k : Compiler}
    {r : Resolver}
    {c : Compilation}
    (h : k.compile t r = .ok c) :
    (c.script.blocks.map Block.name).Nodup := by
  rcases exists_chart h with ⟨-, -, p, hChart, hScript⟩
  rw [hScript, Layout.map_name_blocks]
  exact Layout.nodup_names_named hChart.keyed

/- What is related to a list one by one is related to it. -/
theorem exists_of_forall₂
    {α β : Type}
    {R : α → β → Prop}
    {l : List α}
    {l' : List β}
    (h : List.Forall₂ R l l')
    {b : β}
    (hb : b ∈ l') : ∃ a ∈ l, R a b := by
  rcases List.mem_iff_getElem.mp hb with ⟨i, hi, rfl⟩
  have hLess : i < l.length := h.length_eq ▸ hi
  exact ⟨l[i], List.getElem_mem hLess, h.get hLess hi⟩

/- Each of them is that of a menu, or of the root. -/
theorem Compiler.exists_blockOf
    {t : Flow}
    {k : Compiler}
    {r : Resolver}
    {c : Compilation}
    (h : k.compile t r = .ok c)
    {b : Block}
    (hBlock : b ∈ c.script.blocks) :
    ∃ e, (Layout.mk k.options (k.topName t)).BlockOf t k r e
      b := by
  rcases exists_of_forall₂ (forall₂_blockOf h) hBlock with
    ⟨e, -, hOf⟩
  exact ⟨e, hOf⟩

end CallFlow
