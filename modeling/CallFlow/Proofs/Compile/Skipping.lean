import CallFlow.Proofs.Compile.Clearing
import CallFlow.Proofs.Flow.Pruning
import Mathlib.Data.List.Find

/-
  Nodes that no call comes to do not influence the script.

  Planning and asking for audio stop at nodes that cannot
  branch.  So flows in which calls meet the same nodes have
  the same plan, and the same audio that cannot be played.
  Only the check looks at every node: a node that no call
  comes to can stop a flow from compiling if it misses a
  required parameter, but has no part in the script.

  Main declarations:
    * `Flow.MetAlike.mirrors`
    * `Flow.MetAlike.unresolved_eq_nil`
    * `Flow.Pruned.findings_eq_nil`
    * `Compiler.same_script_of_metAlike`
    * `Compiler.skipped_have_no_say`
-/

namespace CallFlow

variable {t t' : Flow}
variable {o : Options}
variable {r : Resolver}
variable {id : String}

------------------------------------------------------------
-- Plans
------------------------------------------------------------

namespace Node

variable {n n' : Node}

/- The same is emitted for nodes that are met alike. -/
theorem standard_of_trimmed_eq
    (h : n'.trimmed = n.trimmed)
    (r : Resolver) :
    Emitter.standard n'.kind n' (n'.heard r) =
      Emitter.standard n.kind n (n.heard r) := by
  rcases eq_of_trimmed_eq h with ⟨hKind, hSettings, -⟩
  have hHeard : n'.heard r = n.heard r := by
    funext param
    unfold heard sound?
    rw [hKind, hSettings]
  rw [hKind, hHeard, Emitter.standard_eq_of_settings hSettings]

/- They ask for the same audio. -/
@[simp] theorem unresolved_trimmed :
    n.trimmed.unresolved r = n.unresolved r := by
  unfold unresolved
  simp

end Node

namespace Flow

namespace MetAlike

/- What is met in one flow is met alike in the other. -/
theorem exists_node
    (h : t.MetAlike t')
    (hComes : t.comesTo id = true)
    {n : Node}
    (hNode : t.get? id = some n) :
    t'.comesTo id = true ∧
      ∃ n', t'.get? id = some n' ∧ n'.trimmed = n.trimmed := by
  have hMet : t.met? id = some n.trimmed :=
    met?_eq_some_iff.mpr ⟨hComes, n, hNode, rfl⟩
  rw [← h.met? id] at hMet
  exact met?_eq_some_iff.mp hMet

/- In a menu that is met, keys select the same children. -/
theorem childByKey?_eq
    (h : t.MetAlike t')
    (hSound : t.Sound)
    (hComes : t.comesTo id = true)
    {n : Node}
    (hNode : t.get? id = some n)
    (hBranching : n.kind.branching = true)
    (key : Option Key) :
    t'.childByKey? id key = t.childByKey? id key := by
  have hChildIds : t'.childIds id = t.childIds id := by
    rcases h.exists_node hComes hNode with
      ⟨-, n', hNode', hSame⟩
    have hKind := (Node.eq_of_trimmed_eq hSame).1
    rw [Node.trimmed_of_branching hBranching,
      Node.trimmed_of_branching (hKind ▸ hBranching)] at hSame
    rw [childIds_of_get? hNode, childIds_of_get? hNode', hSame]
  unfold childByKey? childByKeyExcept?
  rw [hChildIds]
  refine List.find?_congr fun c hChild => ?_
  have hComesC := hSound.comesTo_of_mem_childIds hComes hNode
    hBranching hChild
  rcases (t.contains_iff c).mp
    (hSound.contains_of_mem_childIds hChild) with ⟨m, hm⟩
  rcases h.exists_node hComesC hm with ⟨-, m', hm', hSame⟩
  have hKey := (Node.eq_of_trimmed_eq hSame).2.2
  simp only [hasKey, hm, hm', hKey]

/- No plan sees the nodes that no call comes to. -/
theorem mirrors
    (h : t.MetAlike t')
    (hSound : t.Sound)
    (o : Options)
    (r : Resolver) :
    Mirrors (.withOptions o) r t t' fun a b =>
      a = b ∧ t.comesTo a = true where
  node := by
    rintro id _ n ⟨rfl, hComes⟩ hNode
    rcases h.exists_node hComes hNode with
      ⟨-, n', hNode', hSame⟩
    refine ⟨n', hNode', ?_, ?_, ?_⟩
    · rw [Compiler.emitters_withOptions]
      exact Node.standard_of_trimmed_eq hSame r
    · rcases Node.eq_of_trimmed_eq hSame with
        ⟨hKind, hSettings, -⟩
      rw [hKind, hSettings]
    · simpa using congrArg Node.opensMenu hSame
  selects := by
    rintro id _ n ⟨rfl, hComes⟩ hNode hMenu key
    have hBranching := Outline.branching_of_opensMenu hMenu
    rw [h.childByKey?_eq hSound hComes hNode hBranching key]
    cases hSelects : t.childByKey? id key with
    | none => exact .none
    | some c =>
        have hChild :=
          (hSound.childByKey?_eq_some_iff.mp hSelects).1
        exact .some
          ⟨rfl, hSound.comesTo_of_mem_childIds hComes hNode
            hBranching hChild⟩
  returnsOn := by
    rintro id _ n ⟨rfl, hComes⟩ hNode - key
    rcases h.exists_node hComes hNode with
      ⟨-, n', hNode', hSame⟩
    rcases Node.eq_of_trimmed_eq hSame with
      ⟨hKind, hSettings, -⟩
    simp only [returnsOn, offersReturn, h.rootId, hNode,
      hNode', hKind, hSettings]

end MetAlike

------------------------------------------------------------
-- Audio and Findings
------------------------------------------------------------

/- Audio that cannot be played is that of nodes that are met. -/
theorem Sound.mem_unresolved_iff_met?
    (h : t.Sound)
    {p : String} :
    (id, p) ∈ t.unresolved r ↔
      ∃ m, t.met? id = some m ∧ p ∈ m.unresolved r := by
  rw [h.mem_unresolved_iff_comesTo]
  simp only [met?_eq_some_iff]
  constructor
  · rintro ⟨hComes, n, hNode, hListed⟩
    exact
      ⟨n.trimmed, ⟨hComes, n, hNode, rfl⟩, by simpa⟩
  · rintro ⟨m, ⟨hComes, n, hNode, rfl⟩, hListed⟩
    exact ⟨hComes, n, hNode, by simpa using hListed⟩

/- So all can be played in both flows or in none. -/
theorem MetAlike.unresolved_eq_nil
    (h : t.MetAlike t')
    (hSound : t.Sound)
    (hSound' : t'.Sound)
    (hNone : t.unresolved r = []) : t'.unresolved r = [] := by
  rw [List.eq_nil_iff_forall_not_mem] at hNone ⊢
  rintro ⟨id, p⟩ hMem
  rw [hSound'.mem_unresolved_iff_met?, h.met?,
    ← hSound.mem_unresolved_iff_met?] at hMem
  exact hNone (id, p) hMem

/- What is left of a flow misses what it missed before. -/
theorem Trims.blocked
    (h : t.Trims t')
    (hSound : t.Sound)
    (hSound' : t'.Sound)
    (hBlocked : t'.Blocked) : t.Blocked := by
  rw [Compiler.blocked_iff hSound'] at hBlocked
  rcases hBlocked with ⟨id, n', hNode', hMissing⟩
  rcases h.settings id n' hNode' with
    ⟨n, hNode, hKind, hSettings⟩
  rw [hKind, hSettings] at hMissing
  exact (Compiler.blocked_iff hSound).mpr
    ⟨id, n, hNode, hMissing⟩

/- There is nothing to say of a pruned flow that compiles. -/
theorem Pruned.findings_eq_nil
    (hPruned : t.Pruned)
    (hSound : t.Sound)
    (hFree : ¬ t.Blocked) : t.findings = [] := by
  have hParams :
      (t.nodes.entries.flatMap fun e =>
        (e.2.kind.missingParams e.2.settings).map
          (.missingParam e.1 e.2.kind e.2.label)) =
        ([] : List Problem) := by
    refine List.flatMap_eq_nil_iff.mpr ?_
    rintro ⟨id, n⟩ hEntry
    have hNode := (t.nodes.mem_entries_iff id n).mp hEntry
    rw [List.map_eq_nil_iff]
    by_contra hMissing
    exact hFree ((Compiler.blocked_iff hSound).mpr
      ⟨id, n, hNode, hMissing⟩)
  unfold findings
  rw [hSound.problems_eq, hParams, pruned_iff.mp hPruned]
  rfl

end Flow

------------------------------------------------------------
-- Scripts
------------------------------------------------------------

namespace Compiler

/-
  If one of two flows that are met alike compiles, so does the
  other, unless it misses parameters, and to the same script.
-/
theorem same_script_of_metAlike
    {c : Compilation}
    (hAlike : t.MetAlike t')
    (hSound : t.Sound)
    (hSound' : t'.Sound)
    (hFree' : ¬ t'.Blocked)
    (h : (withOptions o).compile t r = .ok c) :
    ∃ c', (withOptions o).compile t' r = .ok c' ∧
      c'.script = c.script := by
  rcases (outcome_compile hSound o r).ok_iff.mp ⟨c, h⟩ with
    ⟨hOptions, -, hPlayable⟩
  rcases (outcome_compile hSound' o r).ok_iff.mpr
    ⟨hOptions, hFree',
      hAlike.unresolved_eq_nil hSound hSound' hPlayable⟩
    with ⟨c', h'⟩
  refine ⟨c', h', ?_⟩
  rcases exists_chart h with ⟨-, -, p, hChart, hScript⟩
  rcases exists_chart h' with ⟨-, -, p', hChart', hScript'⟩
  have hPlan : p = p' := by
    refine (hChart.mirrored (hAlike.mirrors hSound o r)
      ⟨rfl, hSound.comesTo_root⟩).unique ?_
    rw [← hAlike.rootId]
    exact hChart'
  rw [hScript, hScript', hPlan, topName, topName, hAlike.name]

/-
  A pruned flow compiles if the flow did, to the same script,
  and with nothing to warn of.
-/
theorem compile_pruned
    {c : Compilation}
    (hSound : t.Sound)
    (hPrunes : t.Prunes t')
    (hPruned : t'.Pruned)
    (h : (withOptions o).compile t r = .ok c) :
    (withOptions o).compile t' r =
      .ok { script := c.script, findings := [] } := by
  rcases hSound.trims_of_prunes hPrunes with
    ⟨hSound', hTrims⟩
  rcases (outcome_compile hSound o r).ok_iff.mp ⟨c, h⟩ with
    ⟨-, hFree, -⟩
  have hFree' : ¬ t'.Blocked :=
    mt (hTrims.blocked hSound hSound') hFree
  rcases same_script_of_metAlike hTrims.toMetAlike hSound
    hSound' hFree' h with ⟨c', h', hScript⟩
  have hFindings :=
    ((outcome_compile hSound' o r).findings_of_ok h').1
  rw [hPruned.findings_eq_nil hSound' hFree'] at hFindings
  rw [h', ← hScript, ← hFindings]

/-
  Take a flow that a program can get to, and delete what is
  below nodes that cannot branch: agents, numbers and
  hang-ups.  This can be done while there are versions left
  for it, and in whatever way it is done, if the flow
  compiles, so does what is left, to the same script and
  without findings.  And so does any other flow
  that the same is left of, as long as it misses no required
  parameter: the kinds, settings, keys and audio of what was
  deleted have no say in the script.
-/
theorem skipped_have_no_say
    (hReachable : t.Reachable)
    (o : Options)
    (r : Resolver) :
    (∀ kind : StepKind, kind.branching = false ↔
      kind = .agent ∨ kind = .number ∨ kind = .hangup) ∧
    (t.version.toNat + t.size < UInt64.size →
      ∃ t', t.Prunes t' ∧ t'.Pruned) ∧
    ∀ c, (withOptions o).compile t r = .ok c →
      ∀ t', t.Prunes t' → t'.Pruned →
        (withOptions o).compile t' r =
          .ok { script := c.script, findings := [] } ∧
        ∀ u u', u.Reachable → u.Prunes u' → u'.Pruned →
          u'.name = t'.name → u'.rootId = t'.rootId →
          u'.nodes = t'.nodes → ¬ u.Blocked →
            ∃ d, (withOptions o).compile u r = .ok d ∧
              d.script = c.script := by
  have hSound := hReachable.sound
  refine ⟨fun kind => by cases kind <;> decide,
    hSound.exists_pruned, fun c h t' hPrunes hPruned => ?_⟩
  refine ⟨compile_pruned hSound hPrunes hPruned h, ?_⟩
  intro u u' hReachable' hPrunes' hPruned' hName hRootId
    hNodes hFree
  have hSound' := hReachable'.sound
  rcases hSound.trims_of_prunes hPrunes with
    ⟨hLeft, hTrims⟩
  rcases hSound'.trims_of_prunes hPrunes' with
    ⟨hLeft', hTrims'⟩
  have hAlike : t.MetAlike u := {
    name := by rw [← hTrims'.name, hName, hTrims.name]
    rootId := by rw [← hTrims'.rootId, hRootId, hTrims.rootId]
    met? := fun id => by
      rw [← hTrims'.met?, hPruned'.met?_eq hLeft',
        ← hTrims.met?, hPruned.met?_eq hLeft, Flow.get?,
        Flow.get?, hNodes] }
  exact same_script_of_metAlike hAlike hSound hSound' hFree h

/-
  Below a hang-up there is a step with audio that is not in
  the library, and below that another one.  In another flow
  there is an agent below the hang-up instead.
-/
theorem skipped_have_no_say_hangup :
    let audio := fun (name : String) =>
      { Patch.empty with
        settings :=
          NameMap.ofList [("audio", some (.text name))] }
    let shared : List Call :=
      [.update Flow.firstRootId (audio "hello"),
        .add Flow.firstRootId .hangup "Bye" (some .star)]
    let t := (Flow.new "Hotline").run
      (shared ++
        [.add "n1" .playback "Never" (some (.digit 1)),
          .update "n2" (audio "never"),
          .add "n2" .hangup "Nowhere" none])
    let u := (Flow.new "Hotline").run
      (shared ++
        [.add "n1" .agent "Nobody" none,
          .update "n2"
            { Patch.empty with
              settings :=
                NameMap.ofList
                  [("queue", some (.text "none"))] }])
    let t' := t.submit (.delete "n2")
    let u' := u.submit (.delete "n2")
    let r := (AudioLibrary.ofList [("hello", "hello")]).resolver
    t.Reachable ∧ u.Reachable ∧
      t.Prunes t' ∧ t'.Pruned ∧ u.Prunes u' ∧ u'.Pruned ∧
      u'.nodes = t'.nodes ∧
      ∃ c d,
        (withOptions .standard).compile t r = .ok c ∧
        c.findings ≠ [] ∧
        (withOptions .standard).compile t' r =
          .ok { script := c.script, findings := [] } ∧
        (withOptions .standard).compile u r = .ok d ∧
        d.script = c.script := by
  intro audio shared t u t' u' r
  have hReachable : t.Reachable :=
    ⟨Flow.new "Hotline", _, Or.inl ⟨"Hotline", rfl⟩, rfl⟩
  have hReachable' : u.Reachable :=
    ⟨Flow.new "Hotline", _, Or.inl ⟨"Hotline", rfl⟩, rfl⟩
  have hPrunes : t.Prunes t' :=
    .single ⟨"n1", "n2", ["n2", "n3"], by decide +kernel,
      by decide +kernel, by decide +kernel⟩
  have hPrunes' : u.Prunes u' :=
    .single ⟨"n1", "n2", ["n2"], by decide +kernel,
      by decide +kernel, by decide +kernel⟩
  have hPruned : t'.Pruned := by decide +kernel
  have hPruned' : u'.Pruned := by decide +kernel
  have hNodes : u'.nodes = t'.nodes := by decide +kernel
  have hFree : ¬ u.Blocked := by
    unfold Flow.Blocked
    decide +kernel
  have hCompiles :
      ((withOptions .standard).compile t r).toOption.map
        (fun c => c.findings.isEmpty) = some false := by
    decide +kernel
  rcases exists_ok_of_toOption_map hCompiles with
    ⟨c, hCompile, hFindings⟩
  rcases skipped_have_no_say hReachable .standard r with
    ⟨-, -, hSame⟩
  rcases hSame c hCompile t' hPrunes hPruned with
    ⟨hLeft, hOthers⟩
  have hName : u'.name = t'.name := by decide +kernel
  have hRootId : u'.rootId = t'.rootId := by decide +kernel
  rcases hOthers u u' hReachable' hPrunes' hPruned' hName
    hRootId hNodes hFree with ⟨d, hCompile', hScript⟩
  exact
    ⟨hReachable, hReachable', hPrunes, hPruned, hPrunes',
      hPruned', hNodes, c, d, hCompile,
      List.isEmpty_eq_false_iff.mp hFindings, hLeft, hCompile',
      hScript⟩

end Compiler

end CallFlow
