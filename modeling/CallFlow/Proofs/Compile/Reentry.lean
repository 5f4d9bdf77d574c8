import CallFlow.Proofs.Compile.Jumps
import CallFlow.Proofs.Compile.Touring

/-
  Where the blocks of a script can be entered again, whatever
  the emitters make of the nodes.

  A call comes back to the first menu at the first step of its
  action, and to any menu where it asks.  The step that asks
  is always there, but an emitter may make nothing of a node.
  Then its block has no first step of an action, and if the
  node is the root, the ways back to the top lead nowhere.

  Main declarations:
    * `Compiler.Emits`
    * `Compiler.AddsNoJump`
    * `Layout.BlockOf.carries_start_iff`
    * `Layout.BlockOf.of_tagged_jump`
    * `Script.Carries`
    * `Script.Reenterable`
    * `Compiler.reenterable_iff`
    * `Compiler.way_back_leads_nowhere`
-/

namespace CallFlow

------------------------------------------------------------
-- Emitters
------------------------------------------------------------

namespace Compiler

variable {k : Compiler}
variable {t : Flow}
variable {r : Resolver}

/- What is emitted for a node of a flow. -/
def Emits
    (k : Compiler)
    (t : Flow)
    (r : Resolver)
    (id : String)
    (action : List Instr) : Prop :=
  ∃ n, t.get? id = some n ∧
    k.emitters n.kind n (n.heard r) = .ok action

/- It is emitted once and for all. -/
theorem Emits.unique
    {id : String}
    {action action' : List Instr}
    (h : k.Emits t r id action)
    (h' : k.Emits t r id action') : action = action' := by
  rcases h with ⟨n, hNode, hEmits⟩
  rcases h' with ⟨n', hNode', hEmits'⟩
  rw [hNode] at hNode'
  cases hNode'
  rw [hEmits] at hEmits'
  exact Except.ok.inj hEmits'

/- No emitter jumps for a node of the flow. -/
def AddsNoJump
    (k : Compiler)
    (t : Flow)
    (r : Resolver) : Prop :=
  ∀ id action, k.Emits t r id action →
    ∀ i ∈ action, i.Stays

/- The usual emitters do not. -/
theorem addsNoJump_withOptions
    (o : Options)
    (t : Flow)
    (r : Resolver) : (withOptions o).AddsNoJump t r := by
  rintro id action ⟨n, -, hEmits⟩ i hi
  rw [emitters_withOptions] at hEmits
  rcases Emitter.exists_makes hEmits with ⟨j, rfl, hMakes⟩
  rw [List.mem_singleton.mp hi]
  exact Instr.stays_of_isAction hMakes.isAction

/- Another emitter that does not can take the place of one. -/
theorem AddsNoJump.withEmitter
    (h : k.AddsNoJump t r)
    {kind : StepKind}
    {e : Emitter}
    (hStays :
      ∀ n sound action, e n sound = .ok action →
        ∀ i ∈ action, i.Stays) :
    (k.withEmitter kind e).AddsNoJump t r := by
  rintro id action ⟨n, hNode, hEmits⟩
  rw [emitters_withEmitter] at hEmits
  split at hEmits
  · exact hStays n _ action hEmits
  · exact h id action ⟨n, hNode, hEmits⟩

end Compiler

------------------------------------------------------------
-- Blocks
------------------------------------------------------------

namespace Layout

variable {y : Layout}
variable {t : Flow}
variable {k : Compiler}
variable {r : Resolver}
variable {e : List (Option Key) × String}
variable {b : Block}

/- All of the block of a root that is no menu is its entry. -/
private theorem stepsUnder_entry_of_leaf
    {action : List Instr}
    (hSteps :
      b.steps =
        y.opening.map (plain .entry) ++ leafSteps action) :
    b.stepsUnder .entry = b.steps := by
  refine filter_label_eq_self fun st hst => ?_
  rw [hSteps] at hst
  rcases List.mem_append.mp hst with hOpening | hLeaf
  · exact label_of_mem_map_plain hOpening
  · rcases List.mem_append.mp hLeaf with hAction | hLast
    · exact label_of_mem_actionSteps hAction
    · split at hLast
      · cases hLast
      · rw [List.mem_singleton.mp hLast]
        rfl

namespace BlockOf

/-
  A block has a first step of an action if there is one, and
  it carries its tag.
-/
theorem exists_start
    (h : y.BlockOf t k r e b) :
    ∃ action, k.Emits t r e.2 action ∧
      (b.Carries .start ↔ action ≠ []) ∧
      (action = [] →
        ∀ st ∈ b.steps, st.tag ≠ some .start) := by
  have hNone {tags : List Tag}
      (hTags : b.steps.filterMap Step.tag = tags)
      (hStart : .start ∉ tags) :
      ∀ st ∈ b.steps, st.tag ≠ some .start := by
    intro st hst hTag
    apply hStart
    rw [← hTags]
    exact List.mem_filterMap.mpr ⟨st, hst, hTag⟩
  cases h with
  | @menu opening action choices hName hChart hOpening
      hHolds =>
      refine ⟨action, hChart.exists_node, ?_, ?_⟩
      · rw [Block.carries_iff hHolds.tags_steps
          hHolds.tags_entry (nodup_tags action),
          start_mem_tags_iff]
      · intro hNil
        apply hNone hHolds.tags_steps
        rw [start_mem_tags_iff]
        exact not_not_intro hNil
  | @leaf action endsCall hName hChart hFirst hSteps =>
      have hTags :
          b.steps.filterMap Step.tag =
            if action = [] then [] else [.start] := by
        rw [hSteps, List.filterMap_append, tags_map_plain,
          tags_leafSteps, List.nil_append]
      have hEntry := hTags
      rw [← stepsUnder_entry_of_leaf hSteps] at hEntry
      refine ⟨action, hChart.exists_node, ?_, ?_⟩
      · rw [Block.carries_iff hTags hEntry
          (by split <;> decide)]
        by_cases hNil : action = [] <;> simp [hNil]
      · intro hNil
        apply hNone hTags
        rw [if_pos hNil]
        exact List.not_mem_nil

/- A block can be entered at its action if there is one. -/
theorem carries_start_iff
    (h : y.BlockOf t k r e b) :
    b.Carries .start ↔ ¬ k.Emits t r e.2 [] := by
  rcases h.exists_start with ⟨action, hEmits, hCarries, -⟩
  rw [hCarries]
  constructor
  · intro hNe hNothing
    exact hNe (hEmits.unique hNothing)
  · rintro hSome rfl
    exact hSome hEmits

/-
  A jump to a tag leads back to the top, or to a tag that the
  block itself carries.
-/
theorem of_tagged_jump
    (h : y.BlockOf t k r e b)
    (hJumps : k.AddsNoJump t r)
    {st : Step}
    {n : String}
    {l : Label}
    {g : Tag}
    (hst : st ∈ b.steps)
    (hGoto : st.instr = .goto n l (some g)) :
    l = .entry ∧
      ((n = y.top ∧ g = .start) ∨
        (n = b.name ∧ b.Carries g)) := by
  have hStays {id : String} {p : Plan}
      (hChart : t.Charts k r id p) :
      ∀ i ∈ p.action, i.Stays :=
    hJumps id p.action hChart.exists_node
  cases h with
  | @menu opening action choices hName hChart hOpening
      hHolds =>
      rw [hHolds.steps] at hst
      rcases List.mem_append.mp hst with hFirst | hMenu
      · rw [hOpening] at hFirst
        split at hFirst
        · exact absurd hGoto
            (stays_of_mem_opening hFirst n l (some g))
        · cases hFirst
      · have hChoices :
            ∀ c ∈ choices, ∀ i ∈ c.2.action, i.Stays := by
          rintro ⟨key, p⟩ hc
          rcases hChart.of_mem_choices hc with
            rfl | ⟨c, hBelow⟩
          · exact List.forall_mem_nil _
          · exact hStays hBelow
        rcases exit_of_mem_menuSteps (hStays hChart) hChoices
          hMenu hGoto with ⟨hLabel, hExit⟩
        refine ⟨hLabel, ?_⟩
        cases hExit with
        | top => exact Or.inl ⟨rfl, rfl⟩
        | again =>
            refine Or.inr ⟨rfl, ?_⟩
            exact (Block.carries_iff hHolds.tags_steps
              hHolds.tags_entry (nodup_tags action) _).mpr
                (retryTag_mem_tags action)
  | @leaf action endsCall hName hChart hFirst hSteps =>
      rw [hSteps] at hst
      rcases List.mem_append.mp hst with hOpening | hLeaf
      · exact absurd hGoto
          (stays_of_mem_opening hOpening n l (some g))
      · exact absurd hGoto
          (stays_of_mem_leafSteps (hStays hChart) hLeaf n l
            (some g))

end BlockOf

end Layout

------------------------------------------------------------
-- Scripts
------------------------------------------------------------

namespace Script

/- A tag is carried by the one block with a name. -/
def Carries
    (s : Script)
    (name : String)
    (g : Tag) : Prop :=
  ∃ target, (s.blocks.filter fun d => d.name == name) =
      [target] ∧ target.Carries g

/-
  A script can be entered again everywhere:  each block can be
  entered at its action, and each jump to a tag leads to a
  block that carries it.
-/
structure Reenterable
    (s : Script) : Prop where
  starts : ∀ b ∈ s.blocks, b.Carries .start
  jumps :
    ∀ b ∈ s.blocks, ∀ st ∈ b.steps, ∀ n l g,
      st.instr = .goto n l (some g) → s.Carries n g

/- The block with a name carries what the script does there. -/
theorem carries_iff_of_mem
    {s : Script}
    (hNames : (s.blocks.map Block.name).Nodup)
    {d : Block}
    (h : d ∈ s.blocks)
    (g : Tag) : s.Carries d.name g ↔ d.Carries g := by
  unfold Carries
  rw [Layout.filter_name_eq hNames h]
  constructor
  · rintro ⟨target, hOnly, hCarries⟩
    rw [List.singleton_inj.mp hOnly]
    exact hCarries
  · exact fun hCarries => ⟨d, rfl, hCarries⟩

end Script

namespace Compiler

variable {t : Flow}
variable {k : Compiler}
variable {r : Resolver}
variable {c : Compilation}

/-
  A block that has a first step of an action, which it can be
  entered at, exactly if something is emitted for its node.
-/
structure Starts
    (k : Compiler)
    (t : Flow)
    (r : Resolver)
    (e : List (Option Key) × String)
    (b : Block) : Prop where
  named : b.name = Layout.blockName (k.topName t) e.1
  emitted : ∃ action, k.Emits t r e.2 action
  carries : b.Carries .start ↔ ¬ k.Emits t r e.2 []
  nothing :
    k.Emits t r e.2 [] →
      ∀ st ∈ b.steps, st.tag ≠ some .start

/- The blocks of a script start like this, one by one. -/
theorem forall₂_starts
    (h : k.compile t r = .ok c) :
    List.Forall₂ (k.Starts t r) t.tour c.script.blocks := by
  refine (forall₂_blockOf h).imp fun e b hOf => ?_
  rcases hOf.exists_start with ⟨action, hEmits, -, hNone⟩
  exact {
    named := hOf.name_eq
    emitted := ⟨action, hEmits⟩
    carries := hOf.carries_start_iff
    nothing := fun hNothing =>
      hNone (hEmits.unique hNothing) }

/- The first block is that of the root. -/
private theorem exists_first
    (h : k.compile t r = .ok c) :
    ∃ first ∈ c.script.blocks, first.name = k.topName t ∧
      (first.Carries .start ↔
        ¬ k.Emits t r t.rootId []) := by
  rcases exists_chart h with ⟨-, hSound, -⟩
  rcases exists_of_forall₂ (forall₂_starts h).flip
    hSound.root_mem_tour with ⟨first, hFirst, hStarts⟩
  refine ⟨first, hFirst, ?_, hStarts.carries⟩
  rw [hStarts.named]
  simp [Layout.blockName]

/-
  A jump to a tag finds it, unless it leads back to the top
  and nothing is emitted for the root.
-/
theorem carries_iff_of_jump
    (h : k.compile t r = .ok c)
    (hJumps : k.AddsNoJump t r)
    {b : Block}
    (hb : b ∈ c.script.blocks)
    {st : Step}
    (hst : st ∈ b.steps)
    {n : String}
    {l : Label}
    {g : Tag}
    (hGoto : st.instr = .goto n l (some g)) :
    l = .entry ∧
      (c.script.Carries n g ↔
        ¬ (n = k.topName t ∧ g = .start ∧
          k.Emits t r t.rootId [])) := by
  have hNames := nodup_block_names h
  rcases exists_first h with
    ⟨first, hFirst, hName, hStart⟩
  rcases exists_blockOf h hb with ⟨e, hOf⟩
  rcases hOf.of_tagged_jump hJumps hst hGoto with
    ⟨hLabel, hTop | hOwn⟩
  · rcases hTop with ⟨rfl, rfl⟩
    refine ⟨hLabel, ?_⟩
    have hCarries :=
      Script.carries_iff_of_mem hNames hFirst .start
    rw [hName] at hCarries
    refine (hCarries.trans hStart).trans (not_congr ?_)
    exact ⟨fun hNothing => ⟨rfl, rfl, hNothing⟩,
      fun hAll => hAll.2.2⟩
  · rcases hOwn with ⟨rfl, hCarries⟩
    refine ⟨hLabel, iff_of_true ?_ ?_⟩
    · exact (Script.carries_iff_of_mem hNames hb g).mpr
        hCarries
    · rintro ⟨hSame, rfl, hNothing⟩
      have hBlock : b = first :=
        List.inj_on_of_nodup_map hNames hb hFirst
          (hSame.trans hName.symm)
      rw [hBlock] at hCarries
      exact hStart.mp hCarries hNothing

/-
  Where a script can be entered again, if no emitter jumps by
  itself.  A block has a first step of an action if something
  is emitted for its node, and it has none otherwise.  A jump
  to a tag finds it, unless it leads back to the top and
  nothing is emitted for the root.  So the script can be
  entered again everywhere exactly if something is emitted
  for every node that has a block.
-/
theorem reenterable_iff
    (h : k.compile t r = .ok c)
    (hJumps : k.AddsNoJump t r) :
    List.Forall₂ (k.Starts t r) t.tour c.script.blocks ∧
    (∀ b ∈ c.script.blocks, ∀ st ∈ b.steps, ∀ n l g,
      st.instr = .goto n l (some g) →
        l = .entry ∧
          (c.script.Carries n g ↔
            ¬ (n = k.topName t ∧ g = .start ∧
              k.Emits t r t.rootId []))) ∧
    (c.script.Reenterable ↔
      ∀ e ∈ t.tour, ¬ k.Emits t r e.2 []) := by
  have hStarts := forall₂_starts h
  refine ⟨hStarts, fun b hb st hst n l g =>
    carries_iff_of_jump h hJumps hb hst, ?_⟩
  constructor
  · intro hAll e he
    rcases exists_of_forall₂ hStarts.flip he with
      ⟨b, hb, hStart⟩
    exact hStart.carries.mp (hAll.starts b hb)
  · intro hSome
    refine ⟨fun b hb => ?_, ?_⟩
    · rcases exists_of_forall₂ hStarts hb with
        ⟨e, he, hStart⟩
      exact hStart.carries.mpr (hSome e he)
    · intro b hb st hst n l g hGoto
      rcases exists_chart h with ⟨-, hSound, -⟩
      apply (carries_iff_of_jump h hJumps hb hst hGoto).2.mpr
      rintro ⟨-, -, hNothing⟩
      exact hSome _ hSound.root_mem_tour hNothing

/-
  A menu in a menu, for which two instructions are emitted,
  and from which a key leads back to the top.
-/
theorem reenterable_iff_two_instructions :
    let set (name : String) (v : Value) : Patch :=
      { Patch.empty with
        settings := NameMap.ofList [(name, some v)] }
    let t := (Flow.new "Hotline").run
      [.update Flow.firstRootId (set "audio" (.text "hello")),
        .add Flow.firstRootId .background "More"
          (some (.digit 2)),
        .update "n1" (set "audio" (.text "more")),
        .update "n1" (set "returnToRoot" (.flag true)),
        .add "n1" .hangup "Bye" (some .star)]
    let k := (withOptions .standard).withEmitter .background
      (.fixed [.wait 1, .play "more" false none])
    ∃ c, k.compile t .direct = .ok c ∧
      c.script.blocks.length = 2 ∧
      c.script.Reenterable := by
  intro set t k
  have hLength :
      (k.compile t .direct).toOption.map
        (fun c => c.script.blocks.length) = some 2 := by
    decide +kernel
  rcases exists_ok_of_toOption_map hLength with
    ⟨c, hCompile, hTwo⟩
  have hJumps : k.AddsNoJump t .direct := by
    refine (addsNoJump_withOptions .standard t
      .direct).withEmitter ?_
    rintro n sound _ ⟨⟩ i hi
    apply Instr.stays_of_isAction
    revert i
    decide
  refine ⟨c, hCompile, hTwo, ?_⟩
  refine (reenterable_iff hCompile hJumps).2.2.mpr ?_
  rintro e - ⟨n, -, hNothing⟩
  show False
  by_cases hKind : n.kind = .background
  · simp [k, emitters_withEmitter, hKind, Emitter.fixed]
      at hNothing
  · have hStandard :
        Emitter.standard n.kind n (n.heard .direct) =
          .ok [] := by
      simpa [k, emitters_withEmitter, emitters_withOptions,
        hKind] using hNothing
    rcases Emitter.exists_makes hStandard with ⟨i, hi, -⟩
    cases hi

/-
  If nothing is emitted for playbacks, then the block of a
  menu that is one cannot be entered at its action, but the
  jump of a playback in it leads there.
-/
theorem way_back_leads_nowhere :
    let set (name : String) (v : Value) : Patch :=
      { Patch.empty with
        settings := NameMap.ofList [(name, some v)] }
    let t := (Flow.new Flow.unnamed).run
      [.update Flow.firstRootId (set "audio" (.text "hello")),
        .add Flow.firstRootId .playback "Hours"
          (some (.digit 1)),
        .update "n1" (set "audio" (.text "hours"))]
    let k := (withOptions .standard).withEmitter .playback
      (.fixed [])
    k.AddsNoJump t .direct ∧
      ∃ c, k.compile t .direct = .ok c ∧
        (∃ b ∈ c.script.blocks, ¬ b.Carries .start) ∧
        (∃ b ∈ c.script.blocks, ∃ st ∈ b.steps,
          st.instr = .goto "ivr-main" .entry (some .start)) ∧
        ¬ c.script.Carries "ivr-main" .start ∧
        ¬ c.script.Reenterable := by
  intro set t k
  have hBlocks :
      (k.compile t .direct).toOption.map
          (fun c => c.script.blocks) =
        some
          [⟨0, "ivr-main",
            [⟨.entry, none, .answer⟩,
              ⟨.entry, none, .wait 1⟩,
              ⟨.entry, some .collect, .waitForDigit 10⟩,
              ⟨.digit (.digit 1), none,
                .goto "ivr-main" .entry (some .start)⟩,
              ⟨.invalid, none,
                .goto "ivr-main" .entry (some .collect)⟩,
              ⟨.timeout, none,
                .goto "ivr-main" .entry
                  (some .collect)⟩]⟩] := by
    decide +kernel
  rcases exists_ok_of_toOption_map hBlocks with
    ⟨c, hCompile, hSeen⟩
  refine ⟨?_, c, hCompile, ?_⟩
  · refine (addsNoJump_withOptions .standard t
      .direct).withEmitter ?_
    rintro n sound _ ⟨⟩
    exact List.forall_mem_nil _
  · have hStart : ∃ b ∈ c.script.blocks, ¬ b.Carries .start := by
      rw [hSeen]
      decide
    refine ⟨hStart, ?_, ?_, ?_⟩
    · rw [hSeen]
      decide
    · rintro ⟨target, hOnly, hCarries⟩
      rw [hSeen, List.filter_cons_of_pos (by decide),
        List.filter_nil] at hOnly
      cases hOnly
      revert hCarries
      decide
    · intro hAll
      rcases hStart with ⟨b, hb, hNot⟩
      exact hNot (hAll.starts b hb)

end Compiler

end CallFlow
