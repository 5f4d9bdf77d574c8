import CallFlow.Proofs.Compile.Preorder
import CallFlow.Proofs.Flow.Runs
import Mathlib.Data.List.Chain

/-
  The listings of a flow, downward and upward, describe one
  tree.

  In a sound flow both ways end, so what is said of a node can
  be proved from its children, and what is said of a node
  other than the root from its parent.  The walks downward
  give the recursion on children, and the path of a node is
  that of its parent and one id more.

  Main declarations:
    * `Flow.subtree`
    * `Flow.Sound.induct_children`
    * `Flow.Sound.induct_parent`
    * `Flow.Sound.subtree_eq`
    * `Flow.Sound.preorder_eq_subtree`
    * `Flow.Sound.pathTo_child`
    * `Flow.climb?`
    * `Flow.listings_agree`
-/

namespace CallFlow

namespace Flow

variable {t : Flow}
variable {a b : String}

------------------------------------------------------------
-- Induction
------------------------------------------------------------

/-
  What holds of an id if it holds of its children holds of
  every id.  Children lie deeper, and no node lies as deep as
  there are nodes.
-/
@[elab_as_elim]
theorem Sound.induct_children
    {P : String → Prop}
    (h : t.Sound)
    (step : ∀ a, (∀ c ∈ t.childIds a, P c) → P a)
    (a : String) : P a := by
  have hBelow :
      ∀ room depth x, t.size ≤ room + depth →
        t.ancestor? depth x = some t.rootId → P x := by
    intro room
    induction room with
    | zero =>
        intro depth x hRoom hDepth
        have hSteps := h.steps_lt_size hDepth
        omega
    | succ room ih =>
        intro depth x hRoom hDepth
        apply step
        intro c hChild
        refine ih (depth + 1) c (by omega) ?_
        rw [ancestor?_succ ((h.links x c).mp hChild)]
        exact hDepth
  by_cases hContains : t.contains a = true
  · rcases h.climbs a hContains with ⟨depth, hDepth⟩
    exact hBelow t.size depth a (by omega) hDepth
  · -- No children are listed for what is not a node.
    apply step
    intro c hChild
    rcases exists_of_mem_childIds hChild with ⟨n, hNode, -⟩
    exact absurd ((t.contains_iff a).mpr ⟨n, hNode⟩) hContains

/-
  What holds of the root, and of a node if it holds of its
  parent, holds of every node.
-/
@[elab_as_elim]
theorem Sound.induct_parent
    {P : String → Prop}
    (h : t.Sound)
    (root : P t.rootId)
    (child : ∀ c p, t.parentId? c = some p → P p → P c)
    (hContains : t.contains a = true) : P a := by
  rcases h.climbs a hContains with ⟨depth, hDepth⟩
  clear hContains
  induction depth generalizing a with
  | zero => exact Option.some.inj hDepth ▸ root
  | succ depth ih =>
      rcases exists_parentId?_of_ancestor?_succ hDepth with
        ⟨p, hParent, hAbove⟩
      exact child a p hParent (ih hAbove)

------------------------------------------------------------
-- Downward
------------------------------------------------------------

/- A node with everything below it, in pre-order. -/
def subtree
    (t : Flow)
    (id : String) : List String :=
  id :: t.descendants id

/- A node is in the subtrees of what is some steps above. -/
theorem Sound.mem_subtree_iff
    (h : t.Sound) :
    b ∈ t.subtree a ↔ ∃ k, t.ancestor? k b = some a :=
  h.mem_removed_iff a b

/- Below its top, a subtree has a node with its parent. -/
theorem Sound.mem_subtree_iff_parent
    (h : t.Sound) :
    b ∈ t.subtree a ↔
      b = a ∨
        ∃ p, t.parentId? b = some p ∧ p ∈ t.subtree a := by
  simp only [h.mem_subtree_iff]
  constructor
  · rintro ⟨k, hk⟩
    cases k with
    | zero => exact Or.inl (Option.some.inj hk)
    | succ k =>
        rcases exists_parentId?_of_ancestor?_succ hk with
          ⟨p, hParent, hAbove⟩
        exact Or.inr ⟨p, hParent, k, hAbove⟩
  · rintro (rfl | ⟨p, hParent, k, hk⟩)
    · exact ⟨0, rfl⟩
    · refine ⟨k + 1, ?_⟩
      rw [ancestor?_succ hParent]
      exact hk

/- Only the members of a subtree go with their parents. -/
theorem Sound.mem_subtree_iff_of_parent
    {P : String → Prop}
    (h : t.Sound)
    (hP :
      ∀ c, t.contains c = true →
        (P c ↔
          c = a ∨ ∃ p, t.parentId? c = some p ∧ P p))
    (hContains : t.contains b = true) :
    b ∈ t.subtree a ↔ P b := by
  refine h.induct_parent ?_ ?_ hContains
  · rw [hP _ h.contains_root, h.mem_subtree_iff_parent,
      h.parentId?_root]
    simp
  · intro c p hParent ih
    rw [hP c (contains_of_parentId? hParent),
      h.mem_subtree_iff_parent, hParent]
    simp [ih]

/- The nodes of a subtree exist, if its top does. -/
theorem Sound.contains_of_mem_subtree
    (h : t.Sound)
    (hContains : t.contains a = true)
    (hb : b ∈ t.subtree a) : t.contains b = true := by
  rcases h.mem_subtree_iff_parent.mp hb with
    rfl | ⟨p, hParent, -⟩
  · exact hContains
  · exact contains_of_parentId? hParent

/- No node is below itself. -/
theorem Sound.not_mem_descendants
    (h : t.Sound)
    (hContains : t.contains a = true) :
    a ∉ t.descendants a := by
  intro hBelow
  rcases (h.mem_descendants_iff a a).mp hBelow with ⟨k, hk⟩
  exact h.not_own_ancestor hContains hk

/- A subtree lists no id twice. -/
theorem Sound.nodup_subtree
    (h : t.Sound)
    (hContains : t.contains a = true) :
    (t.subtree a).Nodup :=
  List.nodup_cons.mpr
    ⟨h.not_mem_descendants hContains, t.nodup_listing _⟩

/- The descendants are the subtrees of the children. -/
theorem Sound.descendants_eq
    (h : t.Sound)
    (a : String) :
    t.descendants a = (t.childIds a).flatMap t.subtree := by
  by_cases hContains : t.contains a = true
  · rcases h.climbs a hContains with ⟨depth, hDepth⟩
    rcases h.exists_outlineWithin? hDepth hContains
      (Nat.le_add_right t.size depth) with
      ⟨o, -, rfl, hShows⟩
    have hIds := Outline.ids_eq_cons_descendants h hShows
    cases hShows with
    | @node id step children hNode hListed hChildren =>
        have hBelow :
            children.flatMap Outline.ids =
              t.descendants id := by
          rw [← Outline.idsAll_eq_flatMap]
          exact (List.cons.inj hIds).2
        have hChildIds :
            t.childIds id = children.map Outline.id := by
          rw [childIds_of_get? hNode, hListed]
        show t.descendants id = (t.childIds id).flatMap _
        rw [← hBelow, hChildIds, List.flatMap_map]
        apply List.flatMap_congr
        intro c hChild
        exact Outline.ids_eq_cons_descendants h
          (hChildren c hChild)
  · have hNone : t.childIds a = [] := by
      rw [contains_eq_isSome, Option.not_isSome_iff_eq_none]
        at hContains
      unfold childIds
      rw [hContains]
    unfold descendants listing
    rw [hNone]
    cases t.linkCount <;> rfl

/- A subtree is its top and the subtrees of the children. -/
theorem Sound.subtree_eq
    (h : t.Sound)
    (a : String) :
    t.subtree a = a :: (t.childIds a).flatMap t.subtree :=
  congrArg (a :: ·) (h.descendants_eq a)

/- The pre-order is the subtree of the root. -/
theorem Sound.preorder_eq_subtree
    (h : t.Sound) : t.preorder = t.subtree t.rootId := by
  rcases h.exists_outline? with ⟨o, -, hId, hShows⟩
  have hIds := Outline.ids_eq_cons_descendants h hShows
  rw [hId] at hIds
  rw [Outline.preorder_eq h hShows hId]
  exact hIds

/- The pre-order holds the nodes and nothing else. -/
theorem Sound.mem_preorder_iff
    (h : t.Sound) :
    a ∈ t.preorder ↔ t.contains a = true :=
  ⟨fun hMem => ((t.mem_preorder_iff a).mp hMem).2,
    h.mem_preorder⟩

/- All children of a node exist. -/
theorem Sound.existingChildIds_eq
    (h : t.Sound)
    (a : String) : t.existingChildIds a = t.childIds a :=
  List.filter_eq_self.mpr fun _ =>
    h.contains_of_mem_childIds

------------------------------------------------------------
-- Upward
------------------------------------------------------------

/- More steps than there are ancestors list nothing more. -/
theorem ancestorsWithin_of_end
    {top : String}
    {depth steps : Nat}
    (hTop : t.parentId? top = none)
    (hDepth : t.ancestor? depth a = some top)
    (hLe : depth ≤ steps) :
    t.ancestorsWithin steps a = t.ancestorsWithin depth a := by
  induction depth generalizing a steps with
  | zero =>
      have hHere : a = top := Option.some.inj hDepth
      cases steps <;> simp [ancestorsWithin, hHere, hTop]
  | succ depth ih =>
      rcases exists_parentId?_of_ancestor?_succ hDepth with
        ⟨p, hParent, hAbove⟩
      cases steps with
      | zero => omega
      | succ steps =>
          have hRest :=
            ih hAbove (Nat.le_of_succ_le_succ hLe)
          simp only [ancestorsWithin, hParent, hRest]

/- The path of the root is the root. -/
theorem Sound.pathTo_root
    (h : t.Sound) : t.pathTo t.rootId = [t.rootId] := by
  have hNone :=
    ancestorsWithin_of_end h.parentId?_root rfl
      (Nat.zero_le t.size)
  unfold pathTo
  rw [hNone]
  rfl

/- The path of a child goes on from that of its parent. -/
theorem Sound.pathTo_child
    {c p : String}
    (h : t.Sound)
    (hParent : t.parentId? c = some p) :
    t.pathTo c = t.pathTo p ++ [c] := by
  rcases h.climbs p (h.parents p c hParent) with
    ⟨depth, hDepth⟩
  have hChild :
      t.ancestor? (depth + 1) c = some t.rootId := by
    rw [ancestor?_succ hParent]
    exact hDepth
  have hLess := h.steps_lt_size hChild
  have hParentList :
      t.ancestorsWithin t.size p =
        t.ancestorsWithin depth p :=
    ancestorsWithin_of_end h.parentId?_root hDepth (by omega)
  have hChildList :
      t.ancestorsWithin t.size c =
        p :: t.ancestorsWithin depth p := by
    rw [ancestorsWithin_of_end h.parentId?_root hChild
      (by omega)]
    simp only [ancestorsWithin, hParent]
  unfold pathTo
  rw [hChildList, hParentList, List.reverse_cons]

/- A path ends at its node. -/
theorem getLast?_pathTo
    (t : Flow)
    (a : String) : (t.pathTo a).getLast? = some a := by
  simp [pathTo]

/- A path starts at the root. -/
theorem Sound.head?_pathTo
    (h : t.Sound)
    (hContains : t.contains a = true) :
    (t.pathTo a).head? = some t.rootId := by
  refine h.induct_parent ?_ ?_ hContains
  · rw [h.pathTo_root]
    rfl
  · intro c p hParent ih
    rw [h.pathTo_child hParent, List.head?_append, ih]
    rfl

/- A path steps from parents to children. -/
theorem Sound.isChain_pathTo
    (h : t.Sound)
    (hContains : t.contains a = true) :
    (t.pathTo a).IsChain fun p c => c ∈ t.childIds p := by
  refine h.induct_parent ?_ ?_ hContains
  · rw [h.pathTo_root]
    exact .singleton _
  · intro c p hParent ih
    rw [h.pathTo_child hParent]
    refine ih.append (.singleton c) ?_
    intro x hx y hy
    rw [getLast?_pathTo] at hx
    cases hx
    cases hy
    exact (h.links p c).mpr hParent

/- A path holds the nodes whose subtrees its end is in. -/
theorem Sound.mem_pathTo_iff
    (h : t.Sound)
    (hContains : t.contains b = true) :
    a ∈ t.pathTo b ↔ b ∈ t.subtree a := by
  symm
  refine h.mem_subtree_iff_of_parent
    (P := fun c => a ∈ t.pathTo c) ?_ hContains
  intro c hc
  by_cases hRoot : c = t.rootId
  · rw [hRoot, h.pathTo_root, h.parentId?_root]
    simp [eq_comm]
  · rcases h.exists_parentId? hc hRoot with ⟨p, hParent⟩
    rw [h.pathTo_child hParent, hParent, List.mem_append,
      List.mem_singleton, or_comm]
    simp [eq_comm]

/- What is below a node has the node in its path. -/
theorem Sound.mem_descendants_iff_mem_pathTo
    (h : t.Sound)
    (hContains : t.contains b = true) :
    b ∈ t.descendants a ↔ a ∈ t.pathTo b ∧ a ≠ b := by
  rw [h.mem_pathTo_iff hContains]
  constructor
  · intro hBelow
    refine ⟨List.mem_cons_of_mem a hBelow, ?_⟩
    rintro rfl
    exact h.not_mem_descendants hContains hBelow
  · rintro ⟨hIn, hNe⟩
    exact (List.mem_cons.mp hIn).resolve_left hNe.symm

------------------------------------------------------------
-- The Loop of a Path
------------------------------------------------------------

/-
  The loop that makes a path: parents are put in front until
  there is none.  Nothing comes of it when the turns run out,
  or when a path with a parent to go on to is longer than
  there are nodes.
-/
def climb?
    (t : Flow) :
    Nat → List String → String → Option (List String)
  | 0, _, _ => none
  | turns + 1, path, id =>
      match t.parentId? id with
      | none => some path
      | some p =>
          if t.size < path.length then none
          else climb? t turns (p :: path) p

/- The loop puts all ancestors in front of a short path. -/
private theorem climb?_eq
    {top : String}
    {depth turns : Nat}
    {path : List String}
    (hTop : t.parentId? top = none)
    (hDepth : t.ancestor? depth a = some top)
    (hTurns : depth < turns)
    (hShort : path.length + depth ≤ t.size + 1) :
    t.climb? turns path a =
      some ((t.ancestorsWithin depth a).reverse ++ path) := by
  induction depth generalizing a turns path with
  | zero =>
      have hHere : a = top := Option.some.inj hDepth
      cases turns with
      | zero => omega
      | succ turns =>
          simp [climb?, ancestorsWithin, hHere, hTop]
  | succ depth ih =>
      rcases exists_parentId?_of_ancestor?_succ hDepth with
        ⟨p, hParent, hAbove⟩
      cases turns with
      | zero => omega
      | succ turns =>
          have hLength : ¬ t.size < path.length := by omega
          have hStillShort :
              (p :: path).length + depth ≤ t.size + 1 := by
            rw [List.length_cons]
            omega
          have hRest :=
            ih hAbove (Nat.lt_of_succ_lt_succ hTurns)
              hStillShort
          simp only [climb?, ancestorsWithin, hParent,
            if_neg hLength, hRest]
          simp

/- In a sound flow the loop makes the path of any node. -/
theorem Sound.climb?_eq_pathTo
    (h : t.Sound)
    (hContains : t.contains a = true) :
    t.climb? t.size [a] a = some (t.pathTo a) := by
  rcases h.climbs a hContains with ⟨depth, hDepth⟩
  have hLess := h.steps_lt_size hDepth
  have hAll :=
    ancestorsWithin_of_end h.parentId?_root hDepth
      (Nat.le_of_lt hLess)
  rw [climb?_eq h.parentId?_root hDepth hLess (by
      rw [List.length_singleton]
      omega),
    pathTo, hAll, List.reverse_cons]

------------------------------------------------------------
-- One Tree
------------------------------------------------------------

/-
  The listings of a flow that a program can get to.  The
  pre-order is the root with its descendants, and lists each
  node once.  The descendants of a node are its children,
  each with its own descendants, in display order and without
  repetition.  The path of a node leads from the root to the
  node, from parents to children, and is never cut short.
  Below a node are the other nodes with it in their paths.
-/
theorem listings_agree
    (hReachable : t.Reachable) :
    t.preorder.Nodup ∧
    (∀ id, id ∈ t.preorder ↔ t.contains id = true) ∧
    t.preorder = t.rootId :: t.descendants t.rootId ∧
    ∀ a, t.contains a = true →
      t.existingChildIds a = t.childIds a ∧
      (t.descendants a =
        (t.existingChildIds a).flatMap fun c =>
          c :: t.descendants c) ∧
      (t.descendants a).Nodup ∧
      (t.pathTo a).head? = some t.rootId ∧
      (t.pathTo a).getLast? = some a ∧
      ((t.pathTo a).IsChain fun p c =>
        c ∈ t.childIds p ∧ t.parentId? c = some p) ∧
      t.climb? t.size [a] a = some (t.pathTo a) ∧
      ∀ b, t.contains b = true →
        (b ∈ t.descendants a ↔ a ∈ t.pathTo b ∧ a ≠ b) := by
  have h := hReachable.sound
  refine ⟨t.nodup_preorder, fun id => h.mem_preorder_iff,
    h.preorder_eq_subtree, fun a hContains => ?_⟩
  have hChildren := h.existingChildIds_eq a
  refine ⟨hChildren, ?_, t.nodup_listing _,
    h.head?_pathTo hContains, t.getLast?_pathTo a, ?_,
    h.climb?_eq_pathTo hContains,
    fun b => h.mem_descendants_iff_mem_pathTo⟩
  · rw [hChildren]
    exact h.descendants_eq a
  · refine (h.isChain_pathTo hContains).imp ?_
    intro p c hChild
    exact ⟨hChild, (h.links p c).mp hChild⟩

/-
  A menu inside a menu.  The fallback was moved out of the
  inner one, and so comes after all that is below it.
-/
theorem listings_agree_nested :
    let t := (Flow.new "Hotline").run
      [.add firstRootId .playback "More" (some (.digit 1)),
        .add "n1" .agent "Sales" (some (.digit 2)),
        .add "n1" .hangup "Bye" none,
        .move "n3" firstRootId]
    t.Reachable ∧
      t.contains "n1" = true ∧ t.contains "n2" = true ∧
      t.preorder = [firstRootId, "n1", "n2", "n3"] ∧
      t.pathTo "n2" = [firstRootId, "n1", "n2"] ∧
      t.preorder = t.rootId :: t.descendants t.rootId ∧
      t.climb? t.size ["n1"] "n1" = some (t.pathTo "n1") ∧
      ("n2" ∈ t.descendants "n1" ↔
        "n1" ∈ t.pathTo "n2" ∧ "n1" ≠ "n2") := by
  intro t
  have hReachable : t.Reachable :=
    ⟨Flow.new "Hotline", _, Or.inl ⟨"Hotline", rfl⟩, rfl⟩
  have hMenu : t.contains "n1" = true := by decide +kernel
  have hSales : t.contains "n2" = true := by decide +kernel
  rcases listings_agree hReachable with
    ⟨-, -, hPreorder, hNodes⟩
  rcases hNodes "n1" hMenu with
    ⟨-, -, -, -, -, -, hClimb, hBelow⟩
  exact
    ⟨hReachable, hMenu, hSales, by decide +kernel,
      by decide +kernel, hPreorder, hClimb,
      hBelow "n2" hSales⟩

end Flow

end CallFlow
