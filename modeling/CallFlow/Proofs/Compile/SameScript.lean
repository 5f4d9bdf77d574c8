import CallFlow.Dialplan.Render
import CallFlow.Proofs.Compile.Charting
import CallFlow.Proofs.Compile.Outcome
import CallFlow.Proofs.Flow.Matching
import CallFlow.Proofs.Flow.Runs
import CallFlow.Script.Bytes

/-
  Flows that match have the same script.

  What is emitted for a node, which menus there are and where
  each key leads are the same in flows that match, so a plan
  that charts the one charts the other.  A flow has only one
  plan, since choices come in key order and not in display
  order, and the script knows no more of the flow than its
  plan and its name.  No finding that stands against the one
  flow is missing for the other.

  Main declarations:
    * `Flow.Charts.unique`
    * `Flow.Matches.mirrors`
    * `Flow.Matches.blocked_iff`
    * `Flow.Matches.unresolved_eq_nil_iff`
    * `Compiler.same_script_of_matches`
-/

namespace CallFlow

------------------------------------------------------------
-- Nodes and Their Images
------------------------------------------------------------

/- The standard emitters look at the settings alone. -/
theorem Emitter.standard_eq_of_settings
    {n n' : Node}
    (h : n'.settings = n.settings)
    (kind : StepKind)
    (sound : String → Option String) :
    standard kind n' sound = standard kind n sound := by
  cases kind <;>
    simp only [standard, play, collect, agent, number,
      hangup, h]

namespace Node.Matches

variable {rename : String → String}
variable {n n' : Node}

/- An image hears the same sounds. -/
theorem heard_eq
    (h : n.Matches rename n')
    (r : Resolver) : n'.heard r = n.heard r := by
  funext param
  unfold Node.heard Node.sound?
  rw [h.kind, h.settings]

/- The same is emitted for an image. -/
theorem standard_eq
    (h : n.Matches rename n')
    (r : Resolver) :
    Emitter.standard n'.kind n' (n'.heard r) =
      Emitter.standard n.kind n (n.heard r) := by
  rw [h.kind, h.heard_eq r,
    Emitter.standard_eq_of_settings h.settings]

end Node.Matches

namespace Flow

variable {t t' : Flow}
variable {k : Compiler}
variable {o : Options}
variable {r : Resolver}
variable {rename : String → String}
variable {id : String}

------------------------------------------------------------
-- Plans
------------------------------------------------------------

/- A flow has at most one plan from a node on. -/
theorem Charts.unique
    {p q : Plan}
    (h : t.Charts k r id p)
    (h' : t.Charts k r id q) : p = q := by
  induction h generalizing q with
  | leaf hNode hEmits hLeaf =>
      cases h' with
      | leaf hNode' hEmits' hLeaf' =>
          rw [hNode] at hNode'
          cases hNode'
          rw [hEmits] at hEmits'
          cases hEmits'
          rfl
      | menu hNode' hEmits' hMenu' hOrder' hFound' hChild'
          hFree' =>
          rw [hNode] at hNode'
          cases hNode'
          rw [hLeaf] at hMenu'
          cases hMenu'
  | @menu id n action choices hNode hEmits hMenu hOrder
      hFound hChild hFree ih =>
      cases h' with
      | leaf hNode' hEmits' hLeaf' =>
          rw [hNode] at hNode'
          cases hNode'
          rw [hMenu] at hLeaf'
          cases hLeaf'
      | @menu _ n' action' choices' hNode' hEmits' hMenu'
          hOrder' hFound' hChild' hFree' =>
          rw [hNode] at hNode'
          cases hNode'
          rw [hEmits] at hEmits'
          cases hEmits'
          -- Choices in key order are known by what each key
          -- leads to.
          have hSame (key : Option Key) :
              Plan.choice? choices key =
                Plan.choice? choices' key := by
            cases hSelects : t.childByKey? id key with
            | none =>
                rw [hFree key hSelects, hFree' key hSelects]
            | some c =>
                rcases Option.isSome_iff_exists.mp
                  (hFound key c hSelects) with ⟨p, hp⟩
                rcases Option.isSome_iff_exists.mp
                  (hFound' key c hSelects) with ⟨q, hq⟩
                rw [hp, hq,
                  ih key c p hSelects hp
                    (hChild' key c q hSelects hq)]
          rw [hOrder.eq_filterMap, hOrder'.eq_filterMap]
          simp only [hSame]

namespace Matches

/- An image opens a menu exactly if the node does. -/
theorem opensMenu_eq
    (h : t.Matches t' rename)
    (hSound : t.Sound)
    (hSound' : t'.Sound)
    {n n' : Node}
    (hNode : t.get? id = some n)
    (hNode' : t'.get? (rename id) = some n') :
    n'.opensMenu = n.opensMenu := by
  have hChildren :=
    h.childIds_eq_nil_iff hSound hSound'
      ((t.contains_iff id).mpr ⟨n, hNode⟩)
  rw [childIds_of_get? hNode, childIds_of_get? hNode']
    at hChildren
  unfold Node.opensMenu
  rw [(h.nodes id n n' hNode hNode').kind,
    Bool.eq_iff_iff]
  simp only [Bool.and_eq_true, Bool.not_eq_true',
    List.isEmpty_eq_false_iff, ne_eq, hChildren]

/- An image leads back to the root where the node does. -/
theorem returnsOn_eq
    (h : t.Matches t' rename)
    (hSound : t.Sound)
    {n n' : Node}
    (hNode : t.get? id = some n)
    (hNode' : t'.get? (rename id) = some n')
    (key : Option Key) :
    t'.returnsOn o (rename id) key = t.returnsOn o id key := by
  have hContains := (t.contains_iff id).mpr ⟨n, hNode⟩
  have hMatches := h.nodes id n n' hNode hNode'
  have hRoot :
      (rename id != t'.rootId) = (id != t.rootId) := by
    rw [h.root, Bool.eq_iff_iff, bne_iff_ne, bne_iff_ne]
    exact (h.ids.injOn.ne_iff hContains hSound.contains_root)
  have hOffers :
      t'.offersReturn (rename id) = t.offersReturn id := by
    unfold offersReturn
    simp only [hNode, hNode', hMatches.kind,
      hMatches.settings]
  unfold returnsOn
  rw [hRoot, hOffers]

/- No plan sees that nodes are renamed. -/
theorem mirrors
    (h : t.Matches t' rename)
    (hSound : t.Sound)
    (hSound' : t'.Sound)
    (o : Options)
    (r : Resolver) :
    Mirrors (.withOptions o) r t t'
      fun id id' => id' = rename id where
  node := by
    rintro id id' n rfl hNode
    rcases h.exists_node hNode with ⟨n', hNode', hMatches⟩
    refine ⟨n', hNode', ?_, ?_,
      h.opensMenu_eq hSound hSound' hNode hNode'⟩
    · rw [Compiler.emitters_withOptions]
      exact hMatches.standard_eq r
    · rw [hMatches.kind, hMatches.settings]
  selects := by
    rintro id id' n rfl hNode - key
    rw [h.childByKey?_eq hSound hSound'
      ((t.contains_iff id).mpr ⟨n, hNode⟩) key]
    cases t.childByKey? id key with
    | none => exact .none
    | some c => exact .some rfl
  returnsOn := by
    rintro id id' n rfl hNode - key
    rcases h.exists_node hNode with ⟨n', hNode', -⟩
    exact h.returnsOn_eq hSound hNode hNode' key

------------------------------------------------------------
-- Findings
------------------------------------------------------------

/- Required parameters are missed in both flows or in none. -/
theorem blocked_iff
    (h : t.Matches t' rename)
    (hSound : t.Sound)
    (hSound' : t'.Sound) : t'.Blocked ↔ t.Blocked := by
  rw [Compiler.blocked_iff hSound,
    Compiler.blocked_iff hSound']
  constructor
  · rintro ⟨id', n', hNode', hMissing⟩
    rcases h.exists_id
      ((t'.contains_iff id').mpr ⟨n', hNode'⟩) with
      ⟨id, hContains, rfl⟩
    rcases (t.contains_iff id).mp hContains with ⟨n, hNode⟩
    have hMatches := h.nodes id n n' hNode hNode'
    rw [hMatches.kind, hMatches.settings] at hMissing
    exact ⟨id, n, hNode, hMissing⟩
  · rintro ⟨id, n, hNode, hMissing⟩
    rcases h.exists_node hNode with ⟨n', hNode', hMatches⟩
    rw [← hMatches.kind, ← hMatches.settings] at hMissing
    exact ⟨rename id, n', hNode', hMissing⟩

/- An image can branch if the node can. -/
theorem branches_eq
    (h : t.Matches t' rename)
    (hContains : t.contains id = true) :
    t'.branches (rename id) = t.branches id := by
  rcases (t.contains_iff id).mp hContains with ⟨n, hNode⟩
  rcases h.exists_node hNode with ⟨n', hNode', hMatches⟩
  rw [branches_of_get? hNode, branches_of_get? hNode',
    hMatches.kind]

/- What cannot be played for a node cannot for its image. -/
theorem mem_unresolved_iff
    (h : t.Matches t' rename)
    (hSound : t.Sound)
    (hSound' : t'.Sound)
    (hContains : t.contains id = true)
    (param : String) :
    (rename id, param) ∈ t'.unresolved r ↔
      (id, param) ∈ t.unresolved r := by
  rcases (t.contains_iff id).mp hContains with ⟨n, hNode⟩
  rcases h.exists_node hNode with ⟨n', hNode', hMatches⟩
  rw [hSound.mem_unresolved_iff, hSound'.mem_unresolved_iff]
  refine and_congr ?_ ?_
  · -- The nodes above an image are the images of those above.
    constructor
    · intro hAbove m a hAncestor
      rw [← h.branches_eq
        (hSound.contains_ancestor hContains hAncestor)]
      refine hAbove m (rename a) ?_
      rw [h.ancestor?_eq hSound hContains, hAncestor]
      rfl
    · intro hAbove m a' hAncestor'
      rw [h.ancestor?_eq hSound hContains] at hAncestor'
      rcases Option.map_eq_some_iff.mp hAncestor' with
        ⟨a, hAncestor, rfl⟩
      rw [h.branches_eq
        (hSound.contains_ancestor hContains hAncestor)]
      exact hAbove m a hAncestor
  · simp only [hNode, hNode', Option.some.injEq,
      exists_eq_left', exists_and_left, hMatches.kind,
      hMatches.settings]

/- All audio can be played in both flows or in none. -/
theorem unresolved_eq_nil_iff
    (h : t.Matches t' rename)
    (hSound : t.Sound)
    (hSound' : t'.Sound) :
    t'.unresolved r = [] ↔ t.unresolved r = [] := by
  simp only [List.eq_nil_iff_forall_not_mem, Prod.forall]
  constructor
  · intro hNone id param hMem
    rcases hSound.mem_unresolved_iff.mp hMem with
      ⟨-, n, -, -, hNode, -⟩
    have hContains := (t.contains_iff id).mpr ⟨n, hNode⟩
    exact hNone (rename id) param
      ((h.mem_unresolved_iff hSound hSound' hContains
        param).mpr hMem)
  · intro hNone id' param hMem'
    rcases hSound'.mem_unresolved_iff.mp hMem' with
      ⟨-, n', -, -, hNode', -⟩
    rcases h.exists_id
      ((t'.contains_iff id').mpr ⟨n', hNode'⟩) with
      ⟨id, hContains, rfl⟩
    exact hNone id param
      ((h.mem_unresolved_iff hSound hSound' hContains
        param).mp hMem')

end Matches

end Flow

------------------------------------------------------------
-- Scripts
------------------------------------------------------------

namespace Compiler

variable {t t' : Flow}
variable {o : Options}
variable {r : Resolver}
variable {rename : String → String}

/- Flows that match compile, both of them, or fail to. -/
theorem exists_ok_iff_of_matches
    (hMatches : t.Matches t' rename)
    (hSound : t.Sound)
    (hSound' : t'.Sound) :
    (∃ c, (withOptions o).compile t r = .ok c) ↔
      ∃ c', (withOptions o).compile t' r = .ok c' := by
  rw [(outcome_compile hSound o r).ok_iff,
    (outcome_compile hSound' o r).ok_iff,
    hMatches.blocked_iff hSound hSound',
    hMatches.unresolved_eq_nil_iff hSound hSound']

/- Their scripts are laid out from one plan. -/
theorem script_eq_of_matches
    {c c' : Compilation}
    (hMatches : t.Matches t' rename)
    (h : (withOptions o).compile t r = .ok c)
    (h' : (withOptions o).compile t' r = .ok c') :
    c.script = c'.script := by
  rcases exists_chart h with
    ⟨-, hSound, p, hChart, hScript⟩
  rcases exists_chart h' with
    ⟨-, hSound', p', hChart', hScript'⟩
  rw [hMatches.root] at hChart'
  have hPlan : p = p' :=
    (hChart.mirrored (hMatches.mirrors hSound hSound' o r)
      rfl).unique hChart'
  rw [hScript, hScript', hPlan, topName, topName,
    hMatches.name]

/-
  Flows that match compile with the same options, emitters
  and sounds or fail to, both of them, and the scripts are
  the same.
-/
theorem same_script_of_matches
    (hReachable : t.Reachable)
    (hReachable' : t'.Reachable)
    (hMatches : t.Matches t' rename)
    (o : Options)
    (r : Resolver) :
    ((∃ c, (withOptions o).compile t r = .ok c) ↔
      ∃ c', (withOptions o).compile t' r = .ok c') ∧
    ∀ c c',
      (withOptions o).compile t r = .ok c →
        (withOptions o).compile t' r = .ok c' →
          c.script = c'.script ∧
            c.script.render = c'.script.render ∧
            c.script.toBytes = c'.script.toBytes := by
  refine
    ⟨exists_ok_iff_of_matches hMatches hReachable.sound
      hReachable'.sound, fun c c' h h' => ?_⟩
  rw [script_eq_of_matches hMatches h h']
  exact ⟨rfl, rfl, rfl⟩

/-
  A menu with another menu and a fallback in it, made in two
  orders and with other labels.
-/
theorem same_script_of_matches_reordered :
    let audio := fun (name : String) =>
      { Patch.empty with
        settings :=
          NameMap.ofList [("audio", some (.text name))] }
    let queue :=
      { Patch.empty with
        settings :=
          NameMap.ofList [("queue", some (.text "sales"))] }
    let t := (Flow.new "Hotline").run
      [.update Flow.firstRootId (audio "hello"),
        .add Flow.firstRootId .playback "More"
          (some (.digit 1)),
        .update "n1" (audio "more"),
        .add "n1" .agent "Sales" (some (.digit 2)),
        .update "n2" queue,
        .add Flow.firstRootId .hangup "Bye" none]
    let t' := (Flow.new "Hotline").run
      [.update Flow.firstRootId (audio "hello"),
        .add Flow.firstRootId .hangup "The end" none,
        .add Flow.firstRootId .playback "Submenu"
          (some (.digit 1)),
        .update "n2" (audio "more"),
        .add "n2" .agent "Agents" (some (.digit 2)),
        .update "n3" queue]
    let rename := fun id =>
      if id = "n1" then "n2"
      else if id = "n2" then "n3"
      else if id = "n3" then "n1"
      else id
    t.Reachable ∧ t'.Reachable ∧ t.Matches t' rename ∧
      t ≠ t' ∧
      ((∃ c, (withOptions .standard).compile t .direct =
          .ok c) ↔
        ∃ c', (withOptions .standard).compile t' .direct =
          .ok c') ∧
      ∃ c c',
        (withOptions .standard).compile t .direct = .ok c ∧
        (withOptions .standard).compile t' .direct =
          .ok c' ∧
        c.script = c'.script ∧
        c.script.render = c'.script.render ∧
        c.script.toBytes = c'.script.toBytes := by
  intro audio queue t t' rename
  have hReachable : t.Reachable :=
    ⟨Flow.new "Hotline", _, Or.inl ⟨"Hotline", rfl⟩, rfl⟩
  have hReachable' : t'.Reachable :=
    ⟨Flow.new "Hotline", _, Or.inl ⟨"Hotline", rfl⟩, rfl⟩
  have hMatches : t.Matches t' rename :=
    Flow.matches_of_entries (by decide +kernel)
      (by decide +kernel) (by decide +kernel)
      (by decide +kernel)
  have hCompiles :
      ((withOptions .standard).compile t
        .direct).toOption.map (fun _ => true) =
        some true := by
    decide +kernel
  rcases exists_ok_of_toOption_map hCompiles with
    ⟨c, hCompile, -⟩
  rcases same_script_of_matches hReachable hReachable'
    hMatches .standard .direct with ⟨hBoth, hSame⟩
  rcases hBoth.mp ⟨c, hCompile⟩ with ⟨c', hCompile'⟩
  exact
    ⟨hReachable, hReachable', hMatches, by decide +kernel,
      hBoth, c, c', hCompile, hCompile',
      hSame c c' hCompile hCompile'⟩

end Compiler

end CallFlow
