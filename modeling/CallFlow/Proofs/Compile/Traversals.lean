import CallFlow.Proofs.Compile.Tracing
import Mathlib.Data.List.Perm.Subperm

/-
  The two ways through a flow that is compiled.

  Audio is looked for at the nodes that come off a stack, and
  the plan is made by recursion.  Neither remembers where it
  has been.  If nothing blocks a flow, both come to an end at
  the same nodes, each of them once.

  Main declarations:
    * `Outline.nodup_requests`
    * `Layout.length_nested_le`
    * `Flow.Sound.outlineWithin?_of_size_le`
    * `Compiler.compile_eq_of_asked`
    * `Compiler.traversals_agree`
-/

namespace CallFlow

variable {t : Flow}
variable {x : Outline}

------------------------------------------------------------
-- Requests
------------------------------------------------------------

namespace Outline

/- A request is for a parameter that names its audio. -/
theorem mem_requests_iff_named
    {q : AudioRequest} :
    q ∈ x.requests ↔
      (q.id, q.step) ∈ x.emitted ∧
        q.param ∈ q.step.kind.audioParams ∧
        q.step.settings.text? q.param = some q.name := by
  rw [mem_requests_iff]
  constructor
  · rintro ⟨id, n, hMem, p, hp, name, hName, rfl⟩
    exact ⟨hMem, hp, hName⟩
  · rintro ⟨hMem, hp, hName⟩
    exact ⟨q.id, q.step, hMem, q.param, hp, q.name, hName,
      rfl⟩

/- A node requests audio for itself. -/
private theorem id_of_mem_requests
    {id : String}
    {n : Node}
    {key : String × String}
    (h :
      key ∈ (n.requests id).map fun q => (q.id, q.param)) :
    id = key.1 := by
  rcases List.mem_map.mp h with ⟨q, hq, rfl⟩
  rcases List.mem_filterMap.mp hq with ⟨p, -, hSome⟩
  rcases Option.map_eq_some_iff.mp hSome with ⟨name, -, rfl⟩
  rfl

/- No parameter of a node is requested twice. -/
theorem nodup_requests
    (h : (x.emitted.map (·.1)).Nodup) :
    (x.requests.map fun q => (q.id, q.param)).Nodup := by
  unfold requests
  rw [List.map_flatMap]
  refine List.nodup_flatMap.mpr ⟨fun e _ => ?_, ?_⟩
  · have hParams : e.2.kind.audioParams.Nodup := by
      cases e.2.kind <;> decide +kernel
    unfold Node.requests
    rw [List.map_filterMap]
    refine hParams.filterMap fun p p' key hp hp' => ?_
    simp only [Option.map_map, Option.mem_def,
      Option.map_eq_some_iff] at hp hp'
    rcases hp with ⟨name, -, hKey⟩
    rcases hp' with ⟨name', -, hKey'⟩
    exact (Prod.mk.inj (hKey.trans hKey'.symm)).2
  · -- The requests of two nodes are for different ids.
    refine (List.pairwise_map.mp h).imp fun hNe => ?_
    intro key hKey hKey'
    rw [id_of_mem_requests hKey,
      id_of_mem_requests hKey'] at hNe
    exact hNe rfl

end Outline

------------------------------------------------------------
-- Blocks
------------------------------------------------------------

namespace Layout

variable {y : Layout}
variable {emitters : Emitters}
variable {sounds : List Sound}
variable {returnKey : Key}

/- The blocks of choices are those of each one. -/
theorem nestedAll_eq_flatMap
    {name : String}
    {choices : List (Option Key × Plan)} :
    y.nestedAll name choices =
      choices.flatMap fun c =>
        y.nested (nestedName name c.1) c.2 := by
  induction choices with
  | nil => rfl
  | cons c rest ih =>
      unfold nestedAll
      rw [ih]
      rfl

/- The way back gets no block, and order does not matter. -/
private theorem length_nestedAll_choices
    {name : String}
    {first : Bool}
    {step : Node}
    {planned : List (Option Key × Plan)} :
    (y.nestedAll name
        (step.choices returnKey first .back
          planned)).length =
      (y.nestedAll name planned).length := by
  rw [nestedAll_eq_flatMap, nestedAll_eq_flatMap]
  exact (Node.flatMap_choices_perm fun _ => rfl).length_eq

/- Choices that are children have the blocks of these. -/
private theorem length_nestedAll_le
    {name : String}
    {outlines : List Outline}
    {planned : List (Option Key × Plan)}
    (hEach :
      ∀ o ∈ outlines, ∀ name p,
        o.plan emitters sounds returnKey false = .ok p →
          (y.nested name p).length ≤ o.emitted.length)
    (h :
      Outline.planAll emitters sounds returnKey outlines =
        planned.map Plan.made) :
    (y.nestedAll name planned).length ≤
      (Outline.emittedAll outlines).length := by
  induction outlines generalizing planned with
  | nil =>
      rw [List.map_eq_nil_iff.mp h.symm]
      exact Nat.zero_le _
  | cons o os ih =>
      unfold Outline.planAll at h
      rcases List.map_eq_cons_iff.mp h.symm with
        ⟨⟨key, p⟩, ps, rfl, hHead, hRest⟩
      have hPlan := (Prod.mk.inj hHead).2.symm
      unfold nestedAll Outline.emittedAll
      rw [List.length_append, List.length_append]
      apply Nat.add_le_add
      · exact hEach o List.mem_cons_self _ p hPlan
      · exact ih
          (fun c hc => hEach c (List.mem_cons_of_mem o hc))
          hRest.symm

/- There is no more than one block for an emitted node. -/
theorem length_nested_le
    {name : String}
    {first : Bool}
    {p : Plan}
    (h :
      x.plan emitters sounds returnKey first = .ok p) :
    (y.nested name p).length ≤ x.emitted.length := by
  induction x using Outline.induct
    generalizing name first p with
  | node id step children ih =>
      rcases Outline.plan_eq_ok h with
        ⟨action, -, ⟨hMenu, planned, hPlanned, rfl⟩ |
          ⟨-, rfl⟩⟩
      · unfold nested Outline.emitted
        rw [if_pos (Outline.branching_of_opensMenu hMenu),
          List.length_cons, List.length_cons,
          length_nestedAll_choices]
        exact Nat.succ_le_succ (length_nestedAll_le
          (fun o ho _ _ hPlan => ih o ho hPlan) hPlanned)
      · exact Nat.zero_le _

/- A script has no more blocks than there are such nodes. -/
theorem length_blocks_le
    {first : Bool}
    {p : Plan}
    (h :
      x.plan emitters sounds returnKey first = .ok p) :
    (y.blocks p).length ≤ x.emitted.length := by
  unfold blocks
  rw [List.length_map, List.length_zipIdx]
  cases p with
  | menu action choices =>
      -- The first block is opened otherwise, but counts as one.
      have hNested :
          (y.nested y.top (.menu action choices)).length ≤
            x.emitted.length :=
        length_nested_le h
      exact hNested
  | leaf action endsCall =>
      cases x with
      | node id step children =>
          unfold Outline.emitted
          exact Nat.succ_le_succ (Nat.zero_le _)
  | back => exact Nat.zero_le _

end Layout

------------------------------------------------------------
-- Traversals
------------------------------------------------------------

/- A flow that nothing blocks is sound. -/
theorem Flow.sound_of_not_blocked
    (hFree : ¬ t.Blocked) : t.Sound := by
  refine Flow.sound_of_clean fun f hf => ?_
  rw [Bool.eq_false_iff]
  exact fun hError =>
    hFree ⟨f, hf, Finding.blocksCompile_of_isError hError⟩

/- From the root on nothing lies too deep. -/
theorem Flow.Sound.outlineWithin?_of_size_le
    (h : t.Sound)
    (hShows : x.Shows t)
    (hId : x.id = t.rootId)
    {depth : Nat}
    (hDepth : t.size ≤ depth) :
    t.outlineWithin? depth x.id = some x := by
  rcases h.exists_outlineWithin? (k := 0) rfl
    h.contains_root hDepth with
    ⟨o, hOutline, hSameId, hAlso⟩
  have hSame : o = x :=
    hAlso.unique hShows (hSameId.trans hId.symm)
  rw [hId, hOutline, hSame]

/-
  The nodes below nothing but nodes that can branch, each of
  them listed once.
-/
structure Flow.ListsEmitted
    (t : Flow)
    (nodes : List (String × Node)) : Prop where
  once : (nodes.map (·.1)).Nodup
  emitted :
    ∀ id n,
      (id, n) ∈ nodes ↔
        t.get? id = some n ∧
          ∀ k a, t.ancestor? (k + 1) id = some a →
            t.branches a = true
  bounded : nodes.length ≤ t.size

/-
  The audio parameters of some nodes that name audio, each of
  them requested once.
-/
structure AudioRequest.ListsAudio
    (nodes : List (String × Node))
    (asked : List AudioRequest) : Prop where
  once : (asked.map fun q => (q.id, q.param)).Nodup
  named :
    ∀ q,
      q ∈ asked ↔
        (q.id, q.step) ∈ nodes ∧
          q.param ∈ q.step.kind.audioParams ∧
          q.step.settings.text? q.param = some q.name

namespace Compiler

variable {r : Resolver}

/- The plan of an outline, with the sounds of a resolver. -/
def plan
    (k : Compiler)
    (r : Resolver)
    (x : Outline) : Except CompileError Plan :=
  x.plan k.table (AudioRequest.sounds r x.requests)
    k.options.returnKey true

/-
  The plan that is made by recursion from a node on, and the
  nodes that emitters are asked about, if no more calls than
  the depth are nested.
-/
def tracedPlan?
    (k : Compiler)
    (t : Flow)
    (sounds : List Sound)
    (depth : Nat)
    (e : String × Node) :
    Option (Except CompileError Plan ×
      List (String × Node)) :=
  (t.planBy (Traced.action k.table sounds) Traced.endless
    k.options.returnKey depth true e).trace?

/- Only the audio that is requested makes a difference. -/
theorem compile_eq_of_asked
    {r' : Resolver}
    (hOutline : t.outline? = some x)
    (hAsked : ∀ q ∈ x.requests, r' q.name = r q.name)
    (k : Compiler) : k.compile t r' = k.compile t r := by
  have hSounds :
      AudioRequest.sounds r' x.requests =
        AudioRequest.sounds r x.requests := by
    refine List.filterMap_congr fun q hq => ?_
    rw [hAsked q hq]
  have hProblems :
      AudioRequest.problems r' x.requests =
        AudioRequest.problems r x.requests := by
    refine List.filterMap_congr fun q hq => ?_
    rw [hAsked q hq]
  unfold compile
  simp only [hOutline, hSounds, hProblems]

/- No call is nested deeper than there are nodes. -/
private theorem exists_tracedPlan?
    (hSound : t.Sound)
    (hShows : x.Shows t)
    (hId : x.id = t.rootId)
    (k : Compiler)
    (r : Resolver)
    {depth : Nat}
    (hDepth : t.size ≤ depth) :
    ∃ asked,
      k.tracedPlan? t (AudioRequest.sounds r x.requests)
          depth x.top = some (k.plan r x, asked) ∧
        asked.Subperm x.emitted ∧
        ∀ p, k.plan r x = .ok p → asked.Perm x.emitted := by
  have hOutline :=
    hSound.outlineWithin?_of_size_le hShows hId hDepth
  rcases Outline.covers_planBy hShows hOutline true with
    ⟨asked, hYields, hSome, hAll⟩
  exact ⟨asked, hYields [], hSome, hAll⟩

/- The blocks are laid out from that plan. -/
private theorem exists_plan_of_compile
    {k : Compiler}
    {c : Compilation}
    (hOutline : t.outline? = some x)
    (h : k.compile t r = .ok c) :
    ∃ p, k.plan r x = .ok p ∧
      c.script.blocks =
          (Layout.mk k.options (k.topName t)).blocks p ∧
        c.script.blocks.length ≤ x.emitted.length := by
  rcases compile_eq_ok h with
    ⟨-, -, -, x', p, hOutline', -, hPlan, hScript⟩
  rw [hOutline] at hOutline'
  cases hOutline'
  refine ⟨p, hPlan, by rw [hScript], ?_⟩
  rw [hScript]
  exact Layout.length_blocks_le hPlan

/-
  Nothing blocks a flow.  Then its stack is empty after one
  turn for each emitted node, and no sooner.  The recursion on
  ids comes to its end with the plan of the flow.  It asks the
  emitters about these nodes, in some order, none of them
  twice, and leaves one out only if an emitter has failed.
  The script is laid out from this plan, in no more blocks.
  The resolver is asked for the audio of these nodes, once for
  each parameter that names any, and for nothing else.
-/
theorem traversals_agree
    (hFree : ¬ t.Blocked)
    (k : Compiler)
    (r : Resolver) :
    ∃ x root,
      t.outline? = some x ∧
        t.get? t.rootId = some root ∧
        t.ListsEmitted x.emitted ∧
        (∀ turns,
          t.unstack? turns [(t.rootId, root)] =
            if x.emitted.length ≤ turns then some x.emitted
            else none) ∧
        (∀ depth, t.size ≤ depth →
          ∃ asked,
            k.tracedPlan? t (AudioRequest.sounds r x.requests)
                depth (t.rootId, root) =
              some (k.plan r x, asked) ∧
            asked.Subperm x.emitted ∧
            ∀ p, k.plan r x = .ok p →
              asked.Perm x.emitted) ∧
        (k.emitters = Emitter.standard →
          t.unresolved r = [] → ∃ p, k.plan r x = .ok p) ∧
        (∀ c, k.compile t r = .ok c →
          ∃ p, k.plan r x = .ok p ∧
            c.script.blocks =
              (Layout.mk k.options (k.topName t)).blocks p ∧
            c.script.blocks.length ≤ x.emitted.length) ∧
        AudioRequest.ListsAudio x.emitted x.requests ∧
        (resolveBy r.asked x.emitted).run [] =
          ((AudioRequest.sounds r x.requests,
              AudioRequest.problems r x.requests),
            x.requests.map AudioRequest.name) ∧
        ∀ r' : Resolver,
          (∀ q ∈ x.requests, r' q.name = r q.name) →
            k.compile t r' = k.compile t r := by
  have hSound := Flow.sound_of_not_blocked hFree
  rcases hSound.exists_outline? with
    ⟨x, hOutline, hId, hShows⟩
  have hOnce := hSound.nodup_emitted hShows hId
  have hTop : (t.rootId, x.top.2) = x.top := by
    rw [← hId]
    cases x
    rfl
  have hRoot : t.get? t.rootId = some x.top.2 := by
    rw [← hId]
    exact Outline.get?_id hShows
  refine ⟨x, x.top.2, hOutline, hRoot, ?_, ?_, ?_, ?_, ?_,
    ⟨Outline.nodup_requests hOnce,
      fun q => Outline.mem_requests_iff_named⟩,
    resolveBy_asked x,
    fun r' hAsked => compile_eq_of_asked hOutline hAsked k⟩
  · exact ⟨hOnce,
      fun id n => hSound.mem_emitted_iff hShows hId,
      hSound.length_emitted_le hShows hId⟩
  · rw [hTop]
    exact Outline.unstack?_top hShows
  · intro depth hDepth
    rw [hTop]
    exact exists_tracedPlan? hSound hShows hId k r hDepth
  · intro hStandard hPlayable
    have hFound : ∀ kind, k.table.lookup kind =
        some (Emitter.standard kind) := by
      intro kind
      rw [k.lookup_table, hStandard]
    exact Outline.exists_plan _ true fun e he =>
      exists_action hFound hSound hShows hId hFree hPlayable
        he
  · exact fun c hCompile =>
      exists_plan_of_compile hOutline hCompile

/-
  A menu with one choice, which ends the call, and a step that
  was put below the choice.  Both ways end at the menu and the
  choice, and only the audio of the menu is asked for.
-/
theorem traversals_agree_below_hangup :
    let set (name : String) (v : Value) : Patch :=
      { Patch.empty with
        settings := NameMap.ofList [(name, some v)] }
    let t := (Flow.new "Hotline").run
      [.update Flow.firstRootId (set "audio" (.text "hello")),
        .add Flow.firstRootId .hangup "Bye" (some .star),
        .add "n1" .playback "Never" none,
        .update "n2" (set "audio" (.text "never"))]
    let k := withOptions .standard
    ¬ t.Blocked ∧ t.size = 3 ∧
      ∃ x root asked,
        t.outline? = some x ∧
          t.get? t.rootId = some root ∧
          x.emitted.map (·.1) = [Flow.firstRootId, "n1"] ∧
          t.unstack? 1 [(t.rootId, root)] = none ∧
          t.unstack? 2 [(t.rootId, root)] = some x.emitted ∧
          k.tracedPlan? t
              (AudioRequest.sounds .direct x.requests) 3
              (t.rootId, root) =
            some (k.plan .direct x, asked) ∧
          asked.Perm x.emitted ∧
          ((resolveBy (Resolver.asked .direct) x.emitted).run
            []).2 = ["hello"] := by
  intro set t k
  have hFree : ¬ t.Blocked := by
    unfold Flow.Blocked
    decide +kernel
  have hSize : t.size = 3 := by decide +kernel
  have hSeen :
      (t.outline?.map fun x =>
        (x.emitted.map (·.1),
          x.requests.map AudioRequest.name)) =
        some ([Flow.firstRootId, "n1"], ["hello"]) := by
    decide +kernel
  have hPlayable : t.unresolved .direct = [] := by
    decide +kernel
  rcases traversals_agree hFree k .direct with
    ⟨x, root, hOutline, hRoot, -, hStack, hTraced, hPlans, -,
      -, hAudio, -⟩
  rw [hOutline] at hSeen
  rcases Prod.mk.inj (Option.some.inj hSeen) with
    ⟨hIds, hNames⟩
  have hLength : x.emitted.length = 2 := by
    rw [← List.length_map (f := (·.1)), hIds]
    rfl
  rcases hTraced 3 (Nat.le_of_eq hSize) with
    ⟨asked, hAsked, -, hPerm⟩
  rcases hPlans (emitters_withOptions _) hPlayable with ⟨p, hPlan⟩
  refine ⟨hFree, hSize, x, root, asked, hOutline, hRoot, hIds,
    ?_, ?_, hAsked, hPerm p hPlan, ?_⟩
  · rw [hStack, hLength]
    rfl
  · rw [hStack, hLength]
    rfl
  · rw [hAudio]
    exact hNames

end Compiler

end CallFlow
