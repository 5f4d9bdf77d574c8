import CallFlow.Proofs.Compile.Correctness
import CallFlow.Proofs.Compile.Tagging

/-
  Every jump of a compiled script lands.

  A block of a layout holds a menu, and there are three ways
  to leave it: into a menu that is nested in it, back to the
  first menu, and back to where it asks itself.  The first
  way leads to a later block and needs no tag.  The others
  need a tag, which the block that they lead to has once.

  Main declarations:
    * `Script.Lands`
    * `Layout.Exit`
    * `Layout.exit_of_mem_menuSteps`
    * `Layout.Forward`
    * `Layout.exists_lands`
    * `Compiler.jumps_land`
-/

namespace CallFlow

------------------------------------------------------------
-- Landing
------------------------------------------------------------

/-
  A jump from a block lands in another one, which is the only
  one with its name and has steps under the label.  A jump to
  a tag finds it once under the label, and one without a tag
  enters a later block.
-/
structure Script.Lands
    (s : Script)
    (b : Block)
    (name : String)
    (l : Label)
    (tag : Option Tag)
    (target : Block) : Prop where
  only : (s.blocks.filter fun d => d.name == name) = [target]
  entered : target.stepsUnder l ≠ []
  tagged :
    ∀ g, tag = some g →
      (target.stepsUnder l).countP
        (fun st => st.tag == some g) = 1
  untagged :
    tag = none → l = .entry ∧ b.index < target.index

/- An instruction that does not jump. -/
def Instr.Stays
    (i : Instr) : Prop :=
  ∀ n l tag, i ≠ .goto n l tag

/- An action does not jump. -/
theorem Instr.stays_of_isAction
    {i : Instr}
    (h : i.isAction = true) : i.Stays := by
  rintro n l tag rfl
  cases h

/- Nor does the action of a plan that can be laid out. -/
theorem Plan.Fit.stays
    {p : Plan}
    (h : p.Fit) : ∀ i ∈ p.action, i.Stays := by
  cases h with
  | leaf hAction =>
      exact fun i hi => Instr.stays_of_isAction (hAction i hi)
  | back => nofun
  | menu hAction hNe hKeys hChoices =>
      exact fun i hi => Instr.stays_of_isAction (hAction i hi)

namespace Layout

variable {y : Layout}
variable {name : String}
variable {action : List Instr}
variable {choices : List (Option Key × Plan)}

------------------------------------------------------------
-- Jumps of a Menu
------------------------------------------------------------

/- The steps of an action stay if its instructions do. -/
private theorem stays_of_mem_map
    {steps : List Step}
    {st : Step}
    (hInstrs : steps.map Step.instr = action)
    (hStays : ∀ i ∈ action, i.Stays)
    (h : st ∈ steps) : st.instr.Stays := by
  apply hStays
  rw [← hInstrs]
  exact List.mem_map_of_mem h

/- The ways out of a menu with some choices. -/
inductive Exit
    (y : Layout)
    (name : String)
    (action : List Instr)
    (choices : List (Option Key × Plan)) :
    String → Option Tag → Prop where
  | nested
      {key : Option Key}
      {inner : List Instr}
      {innerChoices : List (Option Key × Plan)}
      (hChoice : (key, .menu inner innerChoices) ∈ choices) :
      Exit y name action choices (nestedName name key) none
  | top : Exit y name action choices y.top (some .start)
  | again :
      Exit y name action choices name
        (some (retryTag action))

/- A choice leads into its own menu, or to the top. -/
private theorem exit_of_mem_choiceSteps
    {c : Option Key × Plan}
    {st : Step}
    {n : String}
    {l : Label}
    {tag : Option Tag}
    (hChoice : c ∈ choices)
    (hStays : ∀ i ∈ c.2.action, i.Stays)
    (h : st ∈ y.choiceSteps name c)
    (hGoto : st.instr = .goto n l tag) :
    l = .entry ∧ y.Exit name action choices n tag := by
  rcases c with ⟨key, p⟩
  unfold choiceSteps at h
  cases p with
  | menu inner innerChoices =>
      rw [List.mem_singleton.mp h] at hGoto
      cases hGoto
      exact ⟨rfl, .nested hChoice⟩
  | back =>
      rw [List.mem_singleton.mp h] at hGoto
      cases hGoto
      exact ⟨rfl, .top⟩
  | leaf leafAction endsCall =>
      rcases List.mem_append.mp h with hSteps | hLast
      · exact absurd hGoto
          (stays_of_mem_map (map_instr_plain _ leafAction)
            hStays hSteps n l tag)
      · split at hLast
        · cases hLast
        · rw [List.mem_singleton.mp hLast] at hGoto
          cases endsCall with
          | true => cases hGoto
          | false =>
              cases hGoto
              exact ⟨rfl, .top⟩

/- A bad choice leads to where the menu asks. -/
private theorem exit_of_mem_retrySteps
    {st : Step}
    {n : String}
    {l l' : Label}
    {tag : Option Tag}
    (hStays : ∀ i ∈ action, i.Stays)
    (h : st ∈ retrySteps name l' action)
    (hGoto : st.instr = .goto n l tag) :
    l = .entry ∧ y.Exit name action choices n tag := by
  rcases List.mem_append.mp h with hSteps | hLast
  · split at hSteps
    · exact absurd hGoto
        (stays_of_mem_map (map_instr_plain _ action)
          hStays hSteps n l tag)
    · cases hSteps
  · rw [List.mem_singleton.mp hLast] at hGoto
    cases hGoto
    exact ⟨rfl, .again⟩

/-
  Every jump of a menu is one of its ways out, if neither its
  action nor those of its choices jump.
-/
theorem exit_of_mem_menuSteps
    {st : Step}
    {n : String}
    {l : Label}
    {tag : Option Tag}
    (hStays : ∀ i ∈ action, i.Stays)
    (hChoices : ∀ c ∈ choices, ∀ i ∈ c.2.action, i.Stays)
    (h : st ∈ y.menuSteps name action choices)
    (hGoto : st.instr = .goto n l tag) :
    l = .entry ∧ y.Exit name action choices n tag := by
  rw [menuSteps_eq] at h
  rcases List.mem_append.mp h with h | hTimeout
  · rcases List.mem_append.mp h with h | hFallback
    · rcases List.mem_append.mp h with h | hKeyed
      · rcases List.mem_append.mp h with hSteps | hAsk
        · exact absurd hGoto
            (stays_of_mem_map (map_instr_actionSteps action)
              hStays hSteps n l tag)
        · have hAsks := asks_askStep y action
          rw [← List.mem_singleton.mp hAsk, hGoto] at hAsks
          cases hAsks
      · rcases List.mem_flatMap.mp hKeyed with ⟨c, hc, hst⟩
        have hMem := (List.mem_filter.mp hc).1
        exact exit_of_mem_choiceSteps hMem
          (hChoices c hMem) hst hGoto
    · unfold fallbackSteps at hFallback
      split at hFallback
      · rename_i c hLast
        have hMem :=
          (List.mem_filter.mp
            (List.mem_of_getLast? hLast)).1
        exact exit_of_mem_choiceSteps hMem
          (hChoices c hMem) hFallback hGoto
      · exact exit_of_mem_retrySteps hStays hFallback hGoto
  · exact exit_of_mem_retrySteps hStays hTimeout hGoto

/- A plan that can be laid out has such actions only. -/
theorem exit_of_fit
    {st : Step}
    {n : String}
    {l : Label}
    {tag : Option Tag}
    (hFit : (Plan.menu action choices).Fit)
    (h : st ∈ y.menuSteps name action choices)
    (hGoto : st.instr = .goto n l tag) :
    l = .entry ∧ y.Exit name action choices n tag := by
  refine exit_of_mem_menuSteps hFit.stays ?_ h hGoto
  cases hFit with
  | menu hAction hNe hKeys hChoices =>
      exact fun c hc => (hChoices c hc).stays

------------------------------------------------------------
-- Later Blocks
------------------------------------------------------------

/-
  Jumps without a tag lead to the entry of groups of steps
  that come later in a list.
-/
def Forward : List (String × List Step) → Prop
  | [] => True
  | e :: rest =>
      (∀ st ∈ e.2, ∀ n l, st.instr = .goto n l none →
        n ∈ rest.map (·.1)) ∧ Forward rest

/- Lists in which jumps lead on can be joined. -/
private theorem Forward.append
    {entries entries' : List (String × List Step)}
    (h : Forward entries)
    (h' : Forward entries') :
    Forward (entries ++ entries') := by
  induction entries with
  | nil => exact h'
  | cons e rest ih =>
      refine ⟨?_, ih h.2⟩
      intro st hst n l hGoto
      show n ∈ (rest ++ entries').map (·.1)
      rw [List.map_append]
      exact List.mem_append_left _ (h.1 st hst n l hGoto)

/- A jump without a tag leads from one place to a later one. -/
private theorem Forward.exists_later
    {entries : List (String × List Step)}
    (h : Forward entries)
    {i : Nat}
    {e : String × List Step}
    (hEntry : entries[i]? = some e)
    {st : Step}
    {n : String}
    {l : Label}
    (hStep : st ∈ e.2)
    (hGoto : st.instr = .goto n l none) :
    ∃ j steps, i < j ∧ entries[j]? = some (n, steps) := by
  induction entries generalizing i with
  | nil => cases hEntry
  | cons first rest ih =>
      cases i with
      | zero =>
          cases hEntry
          have hMem := h.1 st hStep n l hGoto
          rcases List.mem_map.mp hMem with
            ⟨⟨n', steps⟩, hLater, rfl⟩
          rcases List.mem_iff_getElem?.mp hLater with ⟨j, hj⟩
          exact ⟨j + 1, steps, Nat.succ_pos j, hj⟩
      | succ i =>
          rcases ih h.2 hEntry with ⟨j, steps, hLater, hj⟩
          exact ⟨j + 1, steps, Nat.succ_lt_succ hLater, hj⟩

/- Jumps of choices lead on if those of each choice do. -/
private theorem forward_nestedAll
    (h :
      ∀ c ∈ choices,
        Forward (y.nested (nestedName name c.1) c.2)) :
    Forward (y.nestedAll name choices) := by
  induction choices with
  | nil => trivial
  | cons c rest ih =>
      rcases c with ⟨key, p⟩
      unfold nestedAll
      apply Forward.append
      · exact h (key, p) List.mem_cons_self
      · exact ih fun d hd =>
          h d (List.mem_cons_of_mem (key, p) hd)

/- The block of a nested menu is one of the nested blocks. -/
private theorem nestedName_mem_nestedAll
    {key : Option Key}
    {inner : List Instr}
    {innerChoices : List (Option Key × Plan)}
    (h : (key, .menu inner innerChoices) ∈ choices) :
    nestedName name key ∈
      (y.nestedAll name choices).map (·.1) := by
  have hBlock :
      (nestedName name key,
          y.menuSteps (nestedName name key) inner
            innerChoices) ∈
        y.nestedAll name choices := by
    refine mem_nestedAll_iff.mpr ⟨_, h, ?_⟩
    unfold nested
    exact List.mem_cons_self
  exact List.mem_map_of_mem hBlock

/- The untagged jumps of a menu lead to its nested blocks. -/
private theorem mem_nestedAll_of_goto
    {st : Step}
    {n : String}
    {l : Label}
    (hFit : (Plan.menu action choices).Fit)
    (h : st ∈ y.menuSteps name action choices)
    (hGoto : st.instr = .goto n l none) :
    n ∈ (y.nestedAll name choices).map (·.1) := by
  rcases exit_of_fit hFit h hGoto with ⟨-, hExit⟩
  cases hExit with
  | nested hChoice => exact nestedName_mem_nestedAll hChoice

/- Untagged jumps of a nested plan lead on. -/
private theorem forward_nested
    {p : Plan}
    (hFit : p.Fit)
    (name : String) : Forward (y.nested name p) := by
  induction hFit generalizing name with
  | leaf hAction => trivial
  | back => trivial
  | @menu action choices hAction hNe hKeys hChoices ih =>
      unfold nested
      constructor
      · intro st hst n l hGoto
        exact mem_nestedAll_of_goto
          (.menu hAction hNe hKeys hChoices) hst hGoto
      · exact forward_nestedAll fun c hc =>
          ih c hc (nestedName name c.1)

/- What opens a call does not jump. -/
theorem stays_of_mem_opening
    {st : Step}
    (h : st ∈ y.opening.map (plain .entry)) :
    st.instr.Stays :=
  stays_of_mem_map (map_instr_plain .entry y.opening)
    (fun _ hi =>
      Instr.stays_of_isAction (isAction_of_mem_opening hi)) h

/- Nor does a root that is no menu, if its action does not. -/
theorem stays_of_mem_leafSteps
    {st : Step}
    (hStays : ∀ i ∈ action, i.Stays)
    (h : st ∈ leafSteps action) : st.instr.Stays := by
  rcases List.mem_append.mp h with hSteps | hLast
  · exact stays_of_mem_map (map_instr_actionSteps action)
      hStays hSteps
  · split at hLast
    · cases hLast
    · rw [List.mem_singleton.mp hLast]
      nofun

/- Untagged jumps of a whole plan lead on. -/
private theorem forward_named
    {p : Plan}
    (hFit : p.Fit) : Forward (y.named p) := by
  have hStays := hFit.stays
  cases hFit with
  | back => trivial
  | leaf hAction =>
      refine ⟨?_, trivial⟩
      intro st hst n l hGoto
      rcases List.mem_append.mp hst with hOpening | hSteps
      · exact absurd hGoto
          (stays_of_mem_opening hOpening n l none)
      · exact absurd hGoto
          (stays_of_mem_leafSteps hStays hSteps n l none)
  | menu hAction hNe hKeys hChoices =>
      constructor
      · intro st hst n l hGoto
        rcases List.mem_append.mp hst with hOpening | hSteps
        · exact absurd hGoto
            (stays_of_mem_opening hOpening n l none)
        · exact mem_nestedAll_of_goto
            (.menu hAction hNe hKeys hChoices) hSteps hGoto
      · exact forward_nestedAll fun c hc =>
          forward_nested (hChoices c hc) _

------------------------------------------------------------
-- Blocks
------------------------------------------------------------

/- Among distinct names, one picks out what has it. -/
theorem filter_name_eq
    {l : List Block}
    {d : Block}
    (hNames : (l.map Block.name).Nodup)
    (h : d ∈ l) :
    (l.filter fun b => b.name == d.name) = [d] := by
  induction l with
  | nil => cases h
  | cons b rest ih =>
      rw [List.map_cons, List.nodup_cons] at hNames
      rcases List.mem_cons.mp h with hHere | hLater
      · subst hHere
        have hOthers :
            (rest.filter fun b => b.name == d.name) = [] := by
          rw [List.filter_eq_nil_iff]
          intro b hb hSame
          apply hNames.1
          rw [← beq_iff_eq.mp hSame]
          exact List.mem_map_of_mem hb
        rw [List.filter_cons_of_pos (by simp), hOthers]
      · have hNe : b.name ≠ d.name := by
          intro hSame
          apply hNames.1
          rw [hSame]
          exact List.mem_map_of_mem hLater
        rw [List.filter_cons_of_neg (by simpa using hNe)]
        exact ih hNames.2 hLater

/- The block of a nested menu holds it. -/
private theorem exists_menu_of_mem_nested
    {p : Plan}
    {e : String × List Step}
    (hFit : p.Fit)
    {name : String}
    (h : e ∈ y.nested name p) :
    ∃ action choices, (Plan.menu action choices).Fit ∧
      e.2 = y.menuSteps e.1 action choices := by
  induction hFit generalizing name with
  | leaf hAction => cases h
  | back => cases h
  | @menu action choices hAction hNe hKeys hChoices ih =>
      unfold nested at h
      rcases List.mem_cons.mp h with hHere | hLater
      · subst hHere
        exact
          ⟨action, choices,
            .menu hAction hNe hKeys hChoices, rfl⟩
      · rcases mem_nestedAll_iff.mp hLater with
          ⟨c, hc, hMem⟩
        exact ih c hc hMem

/- Every block of a menu holds one, opened by actions. -/
private theorem exists_holdsMenu
    {b : Block}
    (hFit : (Plan.menu action choices).Fit)
    (h : b ∈ y.blocks (.menu action choices)) :
    ∃ opening action' choices',
      y.HoldsMenu b opening action' choices' ∧
        (Plan.menu action' choices').Fit ∧
        ∀ st ∈ opening, st.instr.Stays := by
  have hMem := List.mem_of_getElem? (mem_blocks_iff.mp h)
  rcases List.mem_cons.mp hMem with hHere | hLater
  · rcases Prod.mk.inj hHere with ⟨hName, hSteps⟩
    refine
      ⟨y.opening.map (plain .entry), action, choices,
        ⟨?_, ?_⟩, hFit, ?_⟩
    · rw [hName]
      exact hSteps
    · intro st hst
      rcases List.mem_map.mp hst with ⟨i, -, rfl⟩
      exact ⟨rfl, rfl⟩
    · exact fun st => stays_of_mem_opening
  · rcases mem_nestedAll_iff.mp hLater with ⟨c, hc, hNested⟩
    cases hFit with
    | menu hAction hNe hKeys hChoices =>
        rcases exists_menu_of_mem_nested (hChoices c hc)
          hNested with ⟨action', choices', hFit', hSteps⟩
        exact
          ⟨[], action', choices', ⟨hSteps, by simp⟩, hFit',
            by simp⟩

------------------------------------------------------------
-- Jumps of a Script
------------------------------------------------------------

variable {s : Script}

/-
  A jump to the entry of a block lands if the block comes
  later, or the tag is one that its menu can be entered at.
-/
private theorem lands_of_mem_blocks
    {b d : Block}
    {tag : Option Tag}
    (hBlocks : s.blocks = y.blocks (.menu action choices))
    (hFit : (Plan.menu action choices).Fit)
    (hMem : d ∈ s.blocks)
    (hTagged :
      ∀ g, tag = some g → g = .start ∨
        ∃ opening action' choices',
          y.HoldsMenu d opening action' choices' ∧
            g = retryTag action')
    (hUntagged : tag = none → b.index < d.index) :
    s.Lands b d.name .entry tag d := by
  have hNames : (s.blocks.map Block.name).Nodup := by
    rw [hBlocks, map_name_blocks]
    exact nodup_names_named hFit.keyed
  rw [hBlocks] at hMem
  rcases exists_holdsMenu hFit hMem with
    ⟨opening, action', choices', hHolds, hInner, -⟩
  rw [← hBlocks] at hMem
  refine {
    only := filter_name_eq hNames hMem
    entered := ?_
    tagged := ?_
    untagged := fun hNone => ⟨rfl, hUntagged hNone⟩ }
  · rw [hHolds.stepsUnder_entry]
    simp
  · intro g hTag
    rcases hTagged g hTag with
      rfl | ⟨opening', action'', choices'', hHolds', rfl⟩
    · cases hInner with
      | menu hAction hNe hKeys hChoices =>
          exact hHolds.count_tag
            (start_mem_tags_iff.mpr hNe)
    · exact hHolds'.count_tag (retryTag_mem_tags action'')

/- Every jump of a laid out plan lands. -/
theorem exists_lands
    {p : Plan}
    {b : Block}
    {st : Step}
    {n : String}
    {l : Label}
    {tag : Option Tag}
    (hBlocks : s.blocks = y.blocks p)
    (hFit : p.Fit)
    (hBlock : b ∈ s.blocks)
    (hStep : st ∈ b.steps)
    (hGoto : st.instr = .goto n l tag) :
    ∃ target, s.Lands b n l tag target := by
  have hPlace := hBlock
  rw [hBlocks, mem_blocks_iff] at hPlace
  cases p with
  | back => cases hPlace
  | leaf action endsCall =>
      have hMem := List.mem_of_getElem? hPlace
      rcases Prod.mk.inj (List.mem_singleton.mp hMem) with
        ⟨-, hSteps⟩
      rw [hSteps] at hStep
      rcases List.mem_append.mp hStep with hOpening | hRest
      · exact absurd hGoto
          (stays_of_mem_opening hOpening n l tag)
      · exact absurd hGoto
          (stays_of_mem_leafSteps hFit.stays hRest n l tag)
  | menu action choices =>
      rcases exists_holdsMenu hFit (hBlocks ▸ hBlock) with
        ⟨opening, action', choices', hHolds, hInner, hOpened⟩
      have hSteps := hStep
      rw [hHolds.steps] at hSteps
      rcases List.mem_append.mp hSteps with hOpening | hMenu
      · exact absurd hGoto (hOpened st hOpening n l tag)
      · rcases exit_of_fit hInner hMenu hGoto with
          ⟨rfl, hExit⟩
        cases hExit with
        | @nested key inner innerChoices hChoice =>
            rcases (forward_named hFit).exists_later hPlace
              hStep hGoto with ⟨j, steps, hLater, hj⟩
            have hTarget :
                ⟨j, nestedName b.name key, steps⟩ ∈
                  s.blocks :=
              hBlocks ▸ mem_blocks_iff.mpr hj
            exact
              ⟨_, lands_of_mem_blocks hBlocks hFit hTarget
                nofun fun _ => hLater⟩
        | top =>
            have hTarget :
                ⟨0, y.top, y.opening.map (plain .entry) ++
                    y.menuSteps y.top action choices⟩ ∈
                  s.blocks :=
              hBlocks ▸ mem_blocks_iff.mpr rfl
            refine
              ⟨_, lands_of_mem_blocks hBlocks hFit hTarget
                ?_ nofun⟩
            intro g hTag
            cases hTag
            exact Or.inl rfl
        | again =>
            refine
              ⟨_, lands_of_mem_blocks hBlocks hFit hBlock
                ?_ nofun⟩
            intro g hTag
            cases hTag
            exact Or.inr
              ⟨opening, action', choices', hHolds, rfl⟩

end Layout

------------------------------------------------------------
-- Jumps of a Compiled Flow
------------------------------------------------------------

namespace Compiler

variable {t : Flow}
variable {o : Options}
variable {r : Resolver}
variable {c : Compilation}

/-
  In the script of a flow that compiles every jump lands: on
  the one block of its name, at steps under its label, and
  at the one step with its tag, or else at the entry of a
  block that comes later.
-/
theorem jumps_land
    (h : (withOptions o).compile t r = .ok c)
    {b : Block}
    (hBlock : b ∈ c.script.blocks)
    {st : Step}
    (hStep : st ∈ b.steps)
    {name : String}
    {l : Label}
    {tag : Option Tag}
    (hGoto : st.instr = .goto name l tag) :
    ∃ target, c.script.Lands b name l tag target := by
  have hSound := Flow.sound_of_clean (clean_of_compile h)
  rcases compile_eq_ok h with
    ⟨-, -, -, x, p, hOutline, -, hPlan, hScript⟩
  rcases hSound.exists_outline? with
    ⟨x', hOutline', -, hShows⟩
  rw [hOutline] at hOutline'
  cases hOutline'
  have hFit := Outline.fit_of_plan hSound hShows hPlan
  exact Layout.exists_lands (congrArg Script.blocks hScript)
    hFit hBlock hStep hGoto

/- The jump of a menu to one that is nested in it. -/
theorem jumps_land_nested :
    let set (name : String) (v : Value) : Patch :=
      { Patch.empty with
        settings := NameMap.ofList [(name, some v)] }
    let t := (Flow.new "Hotline").run
      [.update Flow.firstRootId (set "audio" (.text "hello")),
        .add Flow.firstRootId .background "Sales" (some .star),
        .update "n1" (set "audio" (.text "sales")),
        .add "n1" .hangup "Bye" none]
    ∃ c, (withOptions .standard).compile t .direct = .ok c ∧
      ∃ b ∈ c.script.blocks, ∃ st ∈ b.steps,
        st.instr = .goto "ivr-hotline-star" .entry none ∧
          ∃ target,
            c.script.Lands b "ivr-hotline-star" .entry none
              target := by
  intro set t
  have hJumps :
      (match (withOptions .standard).compile t .direct with
      | .ok c =>
          c.script.blocks.any fun b =>
            b.steps.any fun st =>
              st.instr == .goto "ivr-hotline-star" .entry none
      | .error _ => false) = true := by
    decide +kernel
  cases hCompile :
      (withOptions .standard).compile t .direct with
  | error e =>
      rw [hCompile] at hJumps
      cases hJumps
  | ok c =>
      rw [hCompile] at hJumps
      rcases List.any_eq_true.mp hJumps with
        ⟨b, hBlock, hSteps⟩
      rcases List.any_eq_true.mp hSteps with
        ⟨st, hStep, hSame⟩
      have hGoto := beq_iff_eq.mp hSame
      exact
        ⟨c, rfl, b, hBlock, st, hStep, hGoto,
          jumps_land hCompile hBlock hStep hGoto⟩

end Compiler

end CallFlow
