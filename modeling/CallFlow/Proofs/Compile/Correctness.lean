import CallFlow.Compile.Compiler
import CallFlow.Proofs.Compile.Following
import CallFlow.Proofs.Compile.LayoutRuns
import CallFlow.Proofs.Compile.Planning
import CallFlow.Proofs.Flow.Runs

/-
  The script of a flow does with every call what the flow
  does.

  A flow that compiles is sound, so its outline shows the
  whole flow and its plan follows it.  The blocks of the
  script are those that the plan is laid out in.

  Main declarations:
    * `Outline.follows_of_plan`
    * `Compiler.compile_eq_ok`
    * `Compiler.plays_course`
    * `Compiler.plays_iff_course`
-/

namespace CallFlow

variable {t : Flow}
variable {o : Options}
variable {r : Resolver}

------------------------------------------------------------
-- Keys of Children
------------------------------------------------------------

namespace Flow

/- A node has only one key, or none. -/
theorem eq_of_hasKey
    {id : String}
    {key key' : Option Key}
    (h : t.hasKey key id = true)
    (h' : t.hasKey key' id = true) : key = key' := by
  unfold hasKey at h h'
  cases hNode : t.get? id with
  | none => simp [hNode] at h
  | some n =>
      have hKey : n.key = key := by simpa [hNode] using h
      have hKey' : n.key = key' := by simpa [hNode] using h'
      rw [← hKey, hKey']

end Flow

------------------------------------------------------------
-- Plans of Sound Flows
------------------------------------------------------------

namespace Outline

/- The action of an emitted node is what the node does. -/
theorem action_eq_instrs
    {whole : Outline}
    (hWhole : whole.Shows t)
    {id : String}
    {n : Node}
    (hMem : (id, n) ∈ whole.emitted)
    {action : List Instr}
    (h :
      n.action Emitter.registered
          (AudioRequest.sounds r whole.requests) id =
        .ok action) :
    action = t.instrs r id := by
  have hNode := get?_of_mem_emitted hWhole hMem
  have hEmits :=
    (Node.action_eq_ok_iff
      (Emitter.lookup_registered n.kind)).mp h
  rw [Emitter.standard_congr n fun p hp =>
    find?_sounds hWhole r hMem hp] at hEmits
  unfold Flow.instrs Node.instrs
  rw [hNode]
  simp only
  rw [hEmits]

section Menus

variable {emitters : Emitters}
variable {sounds : List Sound}
variable {id : String}
variable {step : Node}
variable {children : List Outline}
variable {planned : List (Option Key × Plan)}

/- A child that a key selects has its plan as the choice. -/
theorem exists_choice?_of_child
    (h : t.Sound)
    (hNode : t.get? id = some step)
    (hIds : children.map Outline.id = step.children)
    (hChildren : ∀ x ∈ children, x.Shows t)
    (hPlanned :
      planAll emitters sounds o.returnKey children =
        planned.map Plan.made)
    (first : Bool)
    {key : Option Key}
    {c : String}
    (hSelects : t.childByKey? id key = some c) :
    ∃ x ∈ children, x.id = c ∧ ∃ p,
      plan emitters sounds o.returnKey false x =
          .ok p ∧
        Plan.choice?
            (step.choices o.returnKey first .back planned)
            key =
          some p := by
  rcases planAll_eq_ok hPlanned with ⟨hKeys, hOutlines, -⟩
  rcases Flow.of_childByKey?_eq_some hSelects with
    ⟨hListed, hHas⟩
  rw [childIds_eq_map_id hNode hIds] at hListed
  rcases List.mem_map.mp hListed with ⟨x, hx, hId⟩
  rcases hOutlines x hx with ⟨p, hMem, hPlan⟩
  have hKey : x.key? = key := by
    apply Flow.eq_of_hasKey (hasKey_key? (hChildren x hx))
    rw [hId]
    exact hHas
  refine ⟨x, hx, hId, p, hPlan, ?_⟩
  rw [← hKey]
  apply Plan.choice?_of_mem
  · apply Node.nodup_keys_choices
    rw [hKeys]
    exact nodup_keys h hNode hIds hChildren
  · exact Node.mem_choices_iff.mpr (Or.inl hMem)

/- On other keys there is the way back, or no choice. -/
theorem choice?_of_free
    (h : t.Sound)
    (hNode : t.get? id = some step)
    (hIds : children.map Outline.id = step.children)
    (hChildren : ∀ x ∈ children, x.Shows t)
    (hPlanned :
      planAll emitters sounds o.returnKey children =
        planned.map Plan.made)
    {key : Option Key}
    (hFree : t.childByKey? id key = none) :
    Plan.choice?
        (step.choices o.returnKey (id == t.rootId) .back
          planned) key =
      if t.returnsOn o id key then some .back else none := by
  rcases planAll_eq_ok hPlanned with ⟨hKeys, -, hEach⟩
  have hNotPlanned : key ∉ planned.map (·.1) := by
    intro hMem
    rw [hKeys] at hMem
    rcases List.mem_map.mp hMem with ⟨x, hx, hKey⟩
    have hListed : x.id ∈ t.childIds id := by
      rw [childIds_eq_map_id hNode hIds]
      exact List.mem_map_of_mem hx
    have hHas := hasKey_key? (hChildren x hx)
    rw [hKey, Flow.hasKey_of_childByKey?_eq_none hFree hListed]
      at hHas
    cases hHas
  have hOffers :
      t.offersReturn id =
        step.kind.offersReturn step.settings := by
    unfold Flow.offersReturn
    rw [hNode]
  by_cases hOn : t.returnsOn o id key = true
  · rcases Flow.returnsOn_iff.mp hOn with
      ⟨hNotRoot, hOffer, hKey⟩
    rw [if_pos hOn]
    apply Plan.choice?_of_mem
    · apply Node.nodup_keys_choices
      rw [hKeys]
      exact nodup_keys h hNode hIds hChildren
    · refine Node.mem_choices_iff.mpr
        (Or.inr ⟨?_, ?_, ?_, ?_⟩)
      · exact beq_false_of_ne hNotRoot
      · rw [← hOffers]
        exact hOffer
      · rw [← hKey]
        exact hNotPlanned
      · rw [hKey]
  · rw [if_neg hOn]
    rw [Option.eq_none_iff_forall_ne_some]
    intro p hPlan
    rcases Node.mem_choices_iff.mp
      (Plan.mem_of_choice? hPlan) with
      hMem | ⟨hFirst, hOffer, -, hBack⟩
    · exact hNotPlanned (List.mem_map_of_mem hMem)
    · apply hOn
      rw [Flow.returnsOn_iff, hOffers]
      exact
        ⟨ne_of_beq_false hFirst, hOffer,
          congrArg Prod.fst hBack⟩

/- A menu whose choices follow the flow follows it. -/
private theorem follows_menu
    (h : t.Sound)
    (hNode : t.get? id = some step)
    (hIds : children.map Outline.id = step.children)
    (hChildren : ∀ x ∈ children, x.Shows t)
    (hPlanned :
      planAll Emitter.registered sounds o.returnKey
          children =
        planned.map Plan.made)
    (hMenu : step.opensMenu = true)
    (hFollows :
      ∀ x ∈ children, ∀ p,
        plan Emitter.registered sounds o.returnKey false x =
            .ok p →
          t.Follows o r x.id p) :
    t.Follows o r id
      (.menu (t.instrs r id)
        (step.choices o.returnKey (id == t.rootId) .back
          planned)) := by
  have hOpens : t.opensMenu id = true := by
    unfold Flow.opensMenu
    rw [hNode]
    exact hMenu
  refine .menu hOpens ?_ ?_ ?_
  · intro key c hSelects
    rcases exists_choice?_of_child h hNode hIds hChildren
      hPlanned _ hSelects with ⟨x, hx, hId, p, hp, hChoice⟩
    rw [hChoice]
    rfl
  · intro key c p' hSelects hChoice'
    rcases exists_choice?_of_child h hNode hIds hChildren
      hPlanned _ hSelects with ⟨x, hx, hId, p, hp, hChoice⟩
    rw [hChoice] at hChoice'
    cases hChoice'
    rw [← hId]
    exact hFollows x hx p' hp
  · intro key hFree
    exact choice?_of_free h hNode hIds hChildren hPlanned
      hFree

end Menus

/-
  The plan of a sound flow follows it.  The induction is on
  the outline, and the sounds are always those of the whole.
-/
theorem follows_of_plan
    (h : t.Sound)
    {whole : Outline}
    (hWhole : whole.Shows t)
    {x : Outline}
    (hShows : x.Shows t)
    (hEmitted : ∀ e ∈ x.emitted, e ∈ whole.emitted)
    {p : Plan}
    (hPlan :
      plan Emitter.registered
          (AudioRequest.sounds r whole.requests)
          o.returnKey (x.id == t.rootId) x =
        .ok p) : t.Follows o r x.id p := by
  induction hShows generalizing p with
  | @node id step children hNode hIds hChildren ih =>
      rcases plan_eq_ok hPlan with ⟨action, hAction, hCases⟩
      have hHere : (id, step) ∈ whole.emitted := by
        apply hEmitted
        unfold emitted
        exact List.mem_cons_self
      have hInstrs := action_eq_instrs hWhole hHere hAction
      rcases hCases with
        ⟨hMenu, planned, hPlanned, hChoices⟩ | ⟨hLeaf, hEnd⟩
      · rw [hChoices, hInstrs]
        apply follows_menu h hNode hIds hChildren hPlanned
          hMenu
        intro y hy q hq
        have hBelow : ∀ e ∈ y.emitted, e ∈ whole.emitted := by
          intro e he
          apply hEmitted
          unfold emitted
          rw [if_pos (branching_of_opensMenu hMenu)]
          exact List.mem_cons_of_mem _
            (mem_emittedAll_iff.mpr ⟨y, hy, he⟩)
        have hNotRoot : (y.id == t.rootId) = false := by
          apply beq_false_of_ne
          intro hRoot
          apply h.root_not_mem_childIds id
          rw [← hRoot, childIds_eq_map_id hNode hIds]
          exact List.mem_map_of_mem hy
        apply ih y hy hBelow
        rw [hNotRoot]
        exact hq
      · have hOpens : t.opensMenu id = false := by
          unfold Flow.opensMenu
          rw [hNode]
          exact hLeaf
        have hEnds :
            t.endsCall id =
              step.kind.endsCall step.settings := by
          unfold Flow.endsCall
          rw [hNode]
        rw [hEnd, hInstrs, ← hEnds]
        exact .leaf hOpens

end Outline

------------------------------------------------------------
-- Scripts of Compiled Flows
------------------------------------------------------------

/- A finding that is an error stands against compiling. -/
theorem Finding.blocksCompile_of_isError
    {f : Finding}
    (h : f.isError = true) : f.blocksCompile = true := by
  have hSeverity : (f.code.severity == .error) = true := h
  unfold Finding.blocksCompile Code.blocksCompile
  rw [hSeverity]
  rfl

namespace Compiler

variable {c : Compilation}

/-
  What becomes of a flow that compiles.  The options can be
  used, no finding stands against it, and all audio can be
  played.  The script is laid out from the plan of its
  outline.
-/
theorem compile_eq_ok
    {k : Compiler}
    (h : k.compile t r = .ok c) :
    k.options.check = .ok () ∧
      t.findings.any Finding.blocksCompile = false ∧
      c.findings = t.findings ∧
      ∃ x p, t.outline? = some x ∧
        AudioRequest.problems r x.requests = [] ∧
        x.plan k.table
            (AudioRequest.sounds r x.requests)
            k.options.returnKey true = .ok p ∧
          c.script =
            { flowName := t.name
              entryExtension := k.options.entryExtension
              blocks :=
                (Layout.mk k.options (k.topName t)).blocks
                  p } := by
  unfold compile at h
  rcases bind_eq_ok_iff.mp h with ⟨u, hOptions, hRest⟩
  dsimp only at hRest
  split at hRest
  · cases hRest
  · rename_i hFree
    split at hRest
    · cases hRest
    · rename_i x hOutline
      split at hRest
      · rename_i hAudio
        rcases bind_eq_ok_iff.mp hRest with
          ⟨s, hScript, hDone⟩
        rcases bind_eq_ok_iff.mp hScript with
          ⟨p, hPlan, hLaid⟩
        cases hLaid
        cases hDone
        exact
          ⟨hOptions, Bool.eq_false_iff.mpr hFree, rfl, x, p,
            hOutline, List.isEmpty_iff.mp hAudio, hPlan, rfl⟩
      · cases hRest

/- A flow that compiles is free of errors. -/
theorem clean_of_compile
    {k : Compiler}
    (h : k.compile t r = .ok c) : t.Clean := by
  rcases compile_eq_ok h with ⟨-, hFree, -⟩
  intro f hf
  rw [Bool.eq_false_iff]
  intro hError
  apply List.any_eq_false.mp hFree f hf
  exact Finding.blocksCompile_of_isError hError

/- The script of a flow plays the course of the flow. -/
theorem plays_course
    (h : (withOptions o).compile t r = .ok c)
    (events : List CallEvent) :
    c.script.Plays events (t.course o r events) := by
  have hSound := Flow.sound_of_clean (clean_of_compile h)
  rcases compile_eq_ok h with
    ⟨-, -, -, x, p, hOutline, -, hPlan, hScript⟩
  rcases hSound.exists_outline? with
    ⟨x', hOutline', hId, hShows⟩
  rw [hOutline] at hOutline'
  cases hOutline'
  have hFirst : (x.id == t.rootId) = true := by
    rw [hId]
    exact beq_self_eq_true _
  have hFollows : t.Follows o r x.id p := by
    apply Outline.follows_of_plan hSound hShows hShows
    · exact fun e he => he
    · rw [hFirst]
      exact hPlan
  rw [hId] at hFollows
  have hFit := Outline.fit_of_plan hSound hShows hPlan
  have hPlays := Layout.plays_blocks
    (congrArg Script.blocks hScript) hFit
    hFollows.ne_back events
  rw [hFollows.course_eq] at hPlays
  exact hPlays

/-
  Whatever the caller does, the script of a flow that
  compiles has exactly the course of the flow: it performs
  the same in the same order, and comes as far.
-/
theorem plays_iff_course
    (h : (withOptions o).compile t r = .ok c)
    (events : List CallEvent)
    (course : Course) :
    c.script.Plays events course ↔
      course = t.course o r events := by
  have hCourse := plays_course h events
  constructor
  · intro hPlays
    exact hPlays.unique hCourse
  · intro hSame
    rw [hSame]
    exact hCourse

/-
  A menu with a menu in it, in which digits are read.  The
  caller does nothing at first, goes on to the second menu,
  goes back from there, and at last takes a key that only
  the fallback answers.
-/
theorem plays_iff_course_nested :
    let set (name : String) (v : Value) : Patch :=
      { Patch.empty with
        settings := NameMap.ofList [(name, some v)] }
    let t := (Flow.new "Hotline").run
      [.update Flow.firstRootId (set "audio" (.text "hello")),
        .add Flow.firstRootId .collect "Code" (some (.digit 1)),
        .update "n1" (set "maxDigits" (.integer 4)),
        .update "n1" (set "returnToRoot" (.flag true)),
        .add "n1" .hangup "Bye" (some .star),
        .add Flow.firstRootId .agent "Staff" none,
        .update "n3" (set "queue" (.text "staff"))]
    ∃ c, (withOptions .standard).compile t .direct = .ok c ∧
      c.script.Plays
        [.silence, .key (.digit 1), .key .zero, .key .pound]
        ⟨[.answer, .wait 1, .play "hello" true none,
            .play "hello" true none,
            .readDigits "digits" none 4 5,
            .play "hello" true none,
            .bridge (.queue "staff") none none], .over⟩ := by
  intro set t
  have hCompiles :
      ((withOptions .standard).compile t .direct).isOk =
        true := by
    decide +kernel
  cases hCompile :
      (withOptions .standard).compile t .direct with
  | error e =>
      rw [hCompile] at hCompiles
      cases hCompiles
  | ok c =>
      refine ⟨c, rfl, ?_⟩
      apply (plays_iff_course hCompile _ _).mpr
      decide +kernel

end Compiler

end CallFlow
