import CallFlow.Proofs.Flow.Subtrees

/-
  Deleting the nodes that no call comes to.

  A node that cannot branch may have children all the same,
  and no call comes to what is below it.  Deleting a node
  there leaves what calls come to as it is.  When nothing else
  is left, the flow consists of the nodes that calls come to,
  in whatever order the others were deleted.

  Main declarations:
    * `Node.trimmed`
    * `Flow.met?`
    * `Flow.Pruned`
    * `Flow.pruned_iff`
    * `Flow.Prunes`
    * `Flow.Sound.met?_of_cut`
    * `Flow.Pruned.met?_eq`
    * `Flow.Sound.exists_pruned`
-/

namespace CallFlow

------------------------------------------------------------
-- Nodes as Calls Meet Them
------------------------------------------------------------

namespace Node

/- A node without the children that no call comes to. -/
def trimmed
    (n : Node) : Node :=
  if n.kind.branching then n else { n with children := [] }

variable {n : Node}

theorem trimmed_of_branching
    (h : n.kind.branching = true) : n.trimmed = n :=
  if_pos h

@[simp] theorem kind_trimmed : n.trimmed.kind = n.kind := by
  unfold trimmed
  split <;> rfl

@[simp] theorem settings_trimmed :
    n.trimmed.settings = n.settings := by
  unfold trimmed
  split <;> rfl

@[simp] theorem key_trimmed : n.trimmed.key = n.key := by
  unfold trimmed
  split <;> rfl

/- Only children that calls come to make a menu. -/
@[simp] theorem opensMenu_trimmed :
    n.trimmed.opensMenu = n.opensMenu := by
  unfold trimmed
  split
  · rfl
  · rename_i hBranching
    simp [opensMenu, hBranching]

/- Trimming keeps all but children. -/
theorem eq_of_trimmed_eq
    {n' : Node}
    (h : n'.trimmed = n.trimmed) :
    n'.kind = n.kind ∧ n'.settings = n.settings ∧
      n'.key = n.key := by
  refine ⟨?_, ?_, ?_⟩
  · simpa using congrArg Node.kind h
  · simpa using congrArg Node.settings h
  · simpa using congrArg Node.key h

/- Where a node cannot branch, its children do not matter. -/
theorem trimmed_of_children
    {children : List String}
    (h :
      n.kind.branching = true → children = n.children) :
    { n with children := children }.trimmed = n.trimmed := by
  unfold trimmed
  cases hBranching : n.kind.branching with
  | true => rw [h hBranching]
  | false => rfl

end Node

namespace Flow

/- The node with an id, as calls meet it, if any does. -/
def met?
    (t : Flow)
    (id : String) : Option Node :=
  if t.comesTo id then (t.get? id).map Node.trimmed else none

/- Only nodes that can branch have children. -/
def Pruned
    (t : Flow) : Prop :=
  ∀ p c, c ∈ t.childIds p → t.branches p = true

/- A deletion of a node below one that cannot branch. -/
def PrunesOnce
    (t t' : Flow) : Prop :=
  ∃ a id removed, id ∈ t.descendants a ∧
    t.branches a = false ∧ t.delete id = .ok (t', removed)

/- Any number of such deletions. -/
def Prunes : Flow → Flow → Prop :=
  Relation.ReflTransGen PrunesOnce

variable {t t' : Flow}
variable {id x : String}

/- A node is met trimmed, where calls come to it. -/
theorem met?_eq_some_iff
    {m : Node} :
    t.met? id = some m ↔
      t.comesTo id = true ∧
        ∃ n, t.get? id = some n ∧ n.trimmed = m := by
  unfold met?
  split <;> simp_all

/- A flow is pruned if no leaf is found to have children. -/
theorem pruned_iff : t.Pruned ↔ t.leafProblems = [] := by
  unfold leafProblems
  rw [List.filterMap_eq_nil_iff]
  constructor
  · rintro hPruned ⟨id, n⟩ hEntry
    have hNode : t.get? id = some n :=
      (t.nodes.mem_entries_iff id n).mp hEntry
    rw [ite_eq_right_iff]
    intro hLeaf
    simp only [Bool.and_eq_true, Bool.not_eq_true',
      List.isEmpty_eq_false_iff] at hLeaf
    rcases List.exists_mem_of_ne_nil _ hLeaf.2 with
      ⟨c, hChild⟩
    rw [← childIds_of_get? hNode] at hChild
    have hBranches := hPruned id c hChild
    rw [branches_of_get? hNode, hLeaf.1] at hBranches
    cases hBranches
  · intro hNone p c hChild
    rcases exists_of_mem_childIds hChild with
      ⟨n, hNode, hListed⟩
    have hEntry := (t.nodes.mem_entries_iff p n).mpr hNode
    have hLeaf := hNone (p, n) hEntry
    rw [branches_of_get? hNode]
    by_contra hEnds
    have hSome : n.children.isEmpty = false :=
      List.isEmpty_eq_false_iff.mpr
        (List.ne_nil_of_mem hListed)
    simp [hEnds, hSome] at hLeaf

instance : Decidable t.Pruned :=
  decidable_of_iff _ pruned_iff.symm

------------------------------------------------------------
-- Where Calls Come
------------------------------------------------------------

/- A call comes to the children of a node that can branch. -/
theorem Sound.comesTo_of_mem_childIds
    {p c : String}
    {n : Node}
    (h : t.Sound)
    (hComes : t.comesTo p = true)
    (hNode : t.get? p = some n)
    (hBranching : n.kind.branching = true)
    (hChild : c ∈ t.childIds p) : t.comesTo c = true := by
  rw [h.comesTo_child ((h.links p c).mp hChild),
    branches_of_get? hNode, hBranching, hComes]
  rfl

/- No call comes to what is below a node that cannot branch. -/
theorem Sound.comesTo_eq_false_of_mem_descendants
    {a : String}
    (h : t.Sound)
    (hBelow : id ∈ t.descendants a)
    (hEnds : t.branches a = false) : t.comesTo id = false := by
  rcases (h.mem_descendants_iff a id).mp hBelow with ⟨k, hk⟩
  have hContains : t.contains id = true := by
    rcases exists_parentId?_of_ancestor?_succ hk with
      ⟨p, hParent, -⟩
    exact contains_of_parentId? hParent
  rw [Bool.eq_false_iff]
  intro hComes
  have hBranches := (h.comesTo_iff hContains).mp hComes k a hk
  rw [hEnds] at hBranches
  cases hBranches

/- Nor does one come to what is below a node it misses. -/
theorem Sound.comesTo_eq_false_of_ancestor?
    {k : Nat}
    (h : t.Sound)
    (hMissed : t.comesTo id = false)
    (hContains : t.contains x = true)
    (hk : t.ancestor? k x = some id) :
    t.comesTo x = false := by
  rw [Bool.eq_false_iff] at hMissed ⊢
  refine mt (fun hComes => ?_) hMissed
  have hAbove := (h.comesTo_iff hContains).mp hComes
  refine (h.comesTo_iff
    (h.contains_ancestor hContains hk)).mpr ?_
  intro j a hj
  have hBoth := ancestor?_trans hk hj
  exact hAbove (k + j) a hBoth

------------------------------------------------------------
-- Deletions
------------------------------------------------------------

/- What stays of a flow is come to as before. -/
theorem Sound.comesTo_of_cut
    (h : t.Sound)
    (hCut : Cut t t' id)
    (hContains : t'.contains x = true) :
    t'.comesTo x = t.comesTo x := by
  rcases (t'.contains_iff x).mp hContains with ⟨n', hNode'⟩
  have hKept := hCut.not_below_of_get? hNode'
  have hNode := hCut.kept x hKept
  rw [hNode'] at hNode
  rcases Option.map_eq_some_iff.mp hNode.symm with
    ⟨n, hOld, -⟩
  have hBranches : ∀ k a, t.ancestor? k x = some a →
      t'.branches a = t.branches a := by
    intro k a hk
    have hStays : ∀ j, t.ancestor? j a ≠ some id := by
      intro j hj
      exact hKept (k + j) (ancestor?_trans hk hj)
    unfold branches
    rw [hCut.kept a hStays]
    cases t.get? a <;> rfl
  rw [Bool.eq_iff_iff, (h.of_cut hCut).comesTo_iff hContains,
    h.comesTo_iff ((t.contains_iff x).mpr ⟨n, hOld⟩)]
  simp only [hCut.ancestor?_kept _ hKept]
  refine forall₂_congr fun k a => imp_congr_right fun hk => ?_
  rw [hBranches (k + 1) a hk]

/-
  Cutting off what no call comes to leaves the nodes as calls
  meet them.
-/
theorem Sound.met?_of_cut
    (h : t.Sound)
    (hCut : Cut t t' id)
    (hContains : t.contains id = true)
    (hMissed : t.comesTo id = false)
    (x : String) : t'.met? x = t.met? x := by
  unfold met?
  by_cases hBelow : ∃ k, t.ancestor? k x = some id
  · -- What is cut off was not met before.
    rcases hBelow with ⟨k, hk⟩
    rw [hCut.gone k x hk]
    cases hNode : t.get? x with
    | none => simp
    | some n =>
        have hMissedX :=
          h.comesTo_eq_false_of_ancestor? hMissed
            ((t.contains_iff x).mpr ⟨n, hNode⟩) hk
        simp [hMissedX]
  · have hKept := not_exists.mp hBelow
    have hLookup := hCut.kept x hKept
    cases hNode : t.get? x with
    | none =>
        rw [hLookup, hNode]
        simp
    | some n =>
        have hStays : t'.contains x = true := by
          rw [contains_eq_isSome, hLookup, hNode]
          rfl
        rw [h.comesTo_of_cut hCut hStays, hLookup, hNode]
        by_cases hComes : t.comesTo x = true
        · rw [if_pos hComes, if_pos hComes]
          refine congrArg some (Node.trimmed_of_children ?_)
          intro hBranching
          rw [List.filter_eq_self]
          intro c hChild
          -- A call would come to the node from here.
          have hNe : c ≠ id := by
            rintro rfl
            rw [← childIds_of_get? hNode] at hChild
            rw [h.comesTo_of_mem_childIds hComes hNode
              hBranching hChild] at hMissed
            cases hMissed
          simpa using hNe
        · rw [if_neg hComes, if_neg hComes]

------------------------------------------------------------
-- Pruning
------------------------------------------------------------

/- Two flows in which calls meet the same nodes. -/
structure MetAlike
    (t t' : Flow) : Prop where
  name : t'.name = t.name
  rootId : t'.rootId = t.rootId
  met? : ∀ id, t'.met? id = t.met? id

/-
  A flow with some nodes of another one.  Calls meet the same
  nodes in both, and every node has the settings it had.
-/
structure Trims
    (t t' : Flow) : Prop extends MetAlike t t' where
  settings :
    ∀ id n', t'.get? id = some n' →
      ∃ n, t.get? id = some n ∧ n'.kind = n.kind ∧
        n'.settings = n.settings

/- A flow has all its nodes. -/
theorem Trims.refl
    (t : Flow) : t.Trims t where
  name := rfl
  rootId := rfl
  met? := fun _ => rfl
  settings := fun _ n hNode => ⟨n, hNode, rfl, rfl⟩

/- Nodes can be left out in turn. -/
theorem Trims.trans
    {t'' : Flow}
    (hFirst : t.Trims t')
    (hRest : t'.Trims t'') : t.Trims t'' where
  name := hRest.name.trans hFirst.name
  rootId := hRest.rootId.trans hFirst.rootId
  met? := fun id => (hRest.met? id).trans (hFirst.met? id)
  settings := by
    intro id n'' hNode''
    rcases hRest.settings id n'' hNode'' with
      ⟨n', hNode', hKind', hSettings'⟩
    rcases hFirst.settings id n' hNode' with
      ⟨n, hNode, hKind, hSettings⟩
    exact
      ⟨n, hNode, hKind'.trans hKind,
        hSettings'.trans hSettings⟩

/- One deletion below a node that cannot branch. -/
theorem Sound.trims_of_prunesOnce
    (h : t.Sound)
    (hPrunes : t.PrunesOnce t') : t'.Sound ∧ t.Trims t' := by
  rcases hPrunes with ⟨a, id, removed, hBelow, hEnds, hDelete⟩
  have hCut := h.cut_of_delete hDelete
  have hMissed :=
    h.comesTo_eq_false_of_mem_descendants hBelow hEnds
  have hLeft : t.contains id = true ∧ t'.name = t.name := by
    rcases delete_eq_ok hDelete with
      ⟨n, hNode, -, -, -, rfl⟩
    exact ⟨(t.contains_iff id).mpr ⟨n, hNode⟩, rfl⟩
  refine ⟨h.of_cut hCut, {
    name := hLeft.2
    rootId := hCut.rootId
    met? := h.met?_of_cut hCut hLeft.1 hMissed
    settings := ?_ }⟩
  intro x n' hNode'
  have hLookup := hCut.kept x (hCut.not_below_of_get? hNode')
  rw [hNode'] at hLookup
  rcases Option.map_eq_some_iff.mp hLookup.symm with
    ⟨n, hNode, rfl⟩
  exact ⟨n, hNode, rfl, rfl⟩

/- Any number of them. -/
theorem Sound.trims_of_prunes
    (h : t.Sound)
    (hPrunes : t.Prunes t') : t'.Sound ∧ t.Trims t' := by
  induction hPrunes with
  | refl => exact ⟨h, .refl t⟩
  | tail _ hLast ih =>
      rcases ih.1.trims_of_prunesOnce hLast with
        ⟨hSound, hTrims⟩
      exact ⟨hSound, ih.2.trans hTrims⟩

/- What is pruned is what calls meet. -/
theorem Pruned.met?_eq
    (hPruned : t.Pruned)
    (h : t.Sound)
    (id : String) : t.met? id = t.get? id := by
  unfold met?
  cases hNode : t.get? id with
  | none => simp
  | some n =>
      have hComes : t.comesTo id = true := by
        refine h.induct_parent h.comesTo_root ?_
          ((t.contains_iff id).mpr ⟨n, hNode⟩)
        intro c p hParent ih
        have hChild := (h.links p c).mpr hParent
        rw [h.comesTo_child hParent, hPruned p c hChild, ih]
        rfl
      have hTrimmed : n.trimmed = n := by
        unfold Node.trimmed
        split
        · rfl
        · rename_i hEnds
          have hNone : n.children = [] := by
            refine List.eq_nil_iff_forall_not_mem.mpr ?_
            intro c hChild
            rw [← childIds_of_get? hNode] at hChild
            rw [← branches_of_get? hNode] at hEnds
            exact hEnds (hPruned id c hChild)
          rw [← hNone]
      rw [if_pos hComes, Option.map_some, hTrimmed]

/-
  One deletion after the other, all can be pruned, if there is
  a version left for each.
-/
private theorem Sound.exists_pruned_of_length
    (h : t.Sound)
    (hRoom :
      t.version.toNat + t.preorder.length < UInt64.size) :
    ∃ t', t.Prunes t' ∧ t'.Pruned := by
  induction hLength : t.preorder.length
    using Nat.strong_induction_on generalizing t with
  | _ length ih =>
      by_cases hPruned : t.Pruned
      · exact ⟨t, .refl, hPruned⟩
      · unfold Pruned at hPruned
        push Not at hPruned
        rcases hPruned with ⟨p, c, hChild, hEnds⟩
        have hContains := h.contains_of_mem_childIds hChild
        have hNotRoot : c ≠ t.rootId := by
          rintro rfl
          exact h.root_not_mem_childIds p hChild
        have hBelow : c ∈ t.descendants p :=
          (t.mem_descendants_iff p c).mpr ⟨c, hChild, .refl⟩
        have hSome := List.length_pos_of_mem
          (h.mem_preorder hContains)
        have hNext : t.HasNext := by
          unfold HasNext
          omega
        rcases exists_delete hNext hContains hNotRoot with
          ⟨t₁, hDelete⟩
        have hOnce : t.PrunesOnce t₁ :=
          ⟨p, c, _, hBelow, Bool.eq_false_iff.mpr hEnds,
            hDelete⟩
        have hLess : t₁.preorder.length < length := by
          rcases h.preorder_of_cut (h.cut_of_delete hDelete)
            hContains with ⟨before, after, hOld, hNew⟩
          rw [← hLength, hOld, hNew]
          simp only [subtree, List.length_append,
            List.length_cons]
          omega
        have hVersion :
            t₁.version.toNat = t.version.toNat + 1 := by
          rcases delete_eq_ok hDelete with
            ⟨n, -, -, -, -, rfl⟩
          exact hNext.toNat_succ
        rcases ih _ hLess
          (h.trims_of_prunesOnce hOnce).1 (by omega) rfl with
          ⟨t', hRest, hDone⟩
        exact ⟨t', .head hOnce hRest, hDone⟩

/- As many versions as there are nodes are enough. -/
theorem Sound.exists_pruned
    (h : t.Sound)
    (hRoom : t.version.toNat + t.size < UInt64.size) :
    ∃ t', t.Prunes t' ∧ t'.Pruned := by
  have hFew : t.preorder.length ≤ t.size :=
    t.nodes.length_le_size t.nodup_preorder fun id hId =>
      ((t.mem_preorder_iff id).mp hId).2
  exact h.exists_pruned_of_length (by omega)

end Flow

end CallFlow
