import CallFlow.Proofs.Flow.Lineage
import CallFlow.Proofs.Flow.Rejected

/-
  Deleting and moving act on one contiguous run of the
  pre-order.

  A node with everything below it is a contiguous part of the
  subtree of each node above, and so of the pre-order.  Two
  flows that have the same children, apart from ids that are
  closed under children in both, list the other ids in the
  same order.  For a deletion and for a move these ids are
  those of the run.  A moved run is the last part of the
  subtree of its new parent, as the node is its last child.

  Main declarations:
    * `Flow.Sound.subtree_infix_preorder`
    * `Flow.Sound.filter_subtree_eq`
    * `Flow.Sound.subtree_congr`
    * `Flow.get?_of_delete`
    * `Flow.Sound.preorder_of_cut`
    * `Flow.Hung.subtree_parent`
    * `Flow.subtrees_stay_whole`
-/

namespace CallFlow

/- Taking a contiguous part out of a list. -/
theorem filter_not_mem_middle
    {α : Type}
    [DecidableEq α]
    {before run after : List α}
    (h : (before ++ run ++ after).Nodup) :
    ((before ++ run ++ after).filter fun x => x ∉ run) =
      before ++ after := by
  have hApart := List.nodup_append.mp h
  have hFront := List.nodup_append.mp hApart.1
  have hBefore :
      (before.filter fun x => x ∉ run) = before := by
    refine List.filter_eq_self.mpr fun x hx => ?_
    have hNot : x ∉ run := fun hRun =>
      hFront.2.2 x hx x hRun rfl
    simpa using hNot
  have hRun : (run.filter fun x => x ∉ run) = [] :=
    List.filter_eq_nil_iff.mpr (by simp)
  have hAfter : (after.filter fun x => x ∉ run) = after := by
    refine List.filter_eq_self.mpr fun x hx => ?_
    have hNot : x ∉ run := fun hRun =>
      hApart.2.2 x (List.mem_append_right _ hRun) x hx rfl
    simpa using hNot
  rw [List.filter_append, List.filter_append, hBefore, hRun,
    hAfter, List.append_nil]

namespace Flow

variable {t t' : Flow}
variable {a b id p : String}

------------------------------------------------------------
-- Runs of the Pre-Order
------------------------------------------------------------

/- The subtree of a child is a part of that of its parent. -/
theorem Sound.subtree_infix_of_child
    {c : String}
    (h : t.Sound)
    (hChild : c ∈ t.childIds a) :
    t.subtree c <:+: t.subtree a := by
  obtain ⟨before, after, hSplit⟩ := List.append_of_mem hChild
  refine ⟨a :: before.flatMap t.subtree,
    after.flatMap t.subtree, ?_⟩
  rw [h.subtree_eq a, hSplit]
  simp

/- The subtree of a node is a part of the pre-order. -/
theorem Sound.subtree_infix_preorder
    (h : t.Sound)
    (hContains : t.contains a = true) :
    t.subtree a <:+: t.preorder := by
  rw [h.preorder_eq_subtree]
  refine h.induct_parent ?_ ?_ hContains
  · exact List.infix_rfl
  · intro c p hParent ih
    have hChild := (h.links p c).mpr hParent
    exact (h.subtree_infix_of_child hChild).trans ih

/- What the ids of a set lead to is in it, if children are. -/
theorem mem_of_mem_subtree
    {S : List String}
    (hClosed : ∀ x ∈ S, ∀ c ∈ t.childIds x, c ∈ S)
    (ha : a ∈ S)
    (hb : b ∈ t.subtree a) : b ∈ S := by
  rcases List.mem_cons.mp hb with rfl | hBelow
  · exact ha
  · rcases (t.mem_descendants_iff a b).mp hBelow with
      ⟨c, hChild, hLeads⟩
    have hc := hClosed a ha c hChild
    clear hBelow hb
    induction hLeads with
    | refl => exact hc
    | tail _ hNext ih => exact hClosed _ ih _ hNext

/- In a closed set, equal children mean equal subtrees. -/
theorem Sound.subtree_congr
    {S : List String}
    (h : t.Sound)
    (h' : t'.Sound)
    (hClosed : ∀ x ∈ S, ∀ c ∈ t.childIds x, c ∈ S)
    (hSame : ∀ x ∈ S, t'.childIds x = t.childIds x) :
    a ∈ S → t'.subtree a = t.subtree a := by
  refine h.induct_children ?_ a
  intro x ih hx
  rw [h'.subtree_eq x, h.subtree_eq x, hSame x hx]
  congr 1
  apply List.flatMap_congr
  intro c hChild
  exact ih c hChild (hClosed x hx c hChild)

/- A closed set leaves nothing over of the subtrees in it. -/
private theorem filter_subtree_of_mem
    {gone : List String}
    (hClosed : ∀ x ∈ gone, ∀ c ∈ t.childIds x, c ∈ gone)
    (ha : a ∈ gone) :
    ((t.subtree a).filter fun x => x ∉ gone) = [] := by
  refine List.filter_eq_nil_iff.mpr fun x hx => ?_
  simpa using mem_of_mem_subtree hClosed ha hx

/- Of other subtrees it leaves the other children's. -/
private theorem Sound.filter_subtree_of_not_mem
    {gone : List String}
    (h : t.Sound)
    (hClosed : ∀ x ∈ gone, ∀ c ∈ t.childIds x, c ∈ gone)
    (ha : a ∉ gone) :
    ((t.subtree a).filter fun x => x ∉ gone) =
      a :: ((t.childIds a).filter fun c => c ∉ gone).flatMap
        fun c => (t.subtree c).filter fun x => x ∉ gone := by
  have hSkip : ∀ children : List String,
      (children.flatMap fun c =>
        (t.subtree c).filter fun x => x ∉ gone) =
        (children.filter fun c => c ∉ gone).flatMap fun c =>
          (t.subtree c).filter fun x => x ∉ gone := by
    intro children
    induction children with
    | nil => rfl
    | cons c rest ih =>
        by_cases hc : c ∈ gone
        · rw [List.flatMap_cons, ih,
            filter_subtree_of_mem hClosed hc,
            List.filter_cons_of_neg (by simpa using hc)]
          rfl
        · rw [List.flatMap_cons, ih,
            List.filter_cons_of_pos (by simpa using hc),
            List.flatMap_cons]
  rw [h.subtree_eq a,
    List.filter_cons_of_pos (by simpa using ha),
    List.filter_flatMap, hSkip]

/-
  Some ids are closed under children in two flows, and the
  other ids have the same other children in both.  Then every
  subtree lists the other ids in the same order.
-/
theorem Sound.filter_subtree_eq
    {gone : List String}
    (h : t.Sound)
    (h' : t'.Sound)
    (hClosed : ∀ x ∈ gone, ∀ c ∈ t.childIds x, c ∈ gone)
    (hClosed' : ∀ x ∈ gone, ∀ c ∈ t'.childIds x, c ∈ gone)
    (hSame :
      ∀ x, x ∉ gone →
        ((t'.childIds x).filter fun c => c ∉ gone) =
          (t.childIds x).filter fun c => c ∉ gone)
    (a : String) :
    ((t'.subtree a).filter fun x => x ∉ gone) =
      (t.subtree a).filter fun x => x ∉ gone := by
  refine h.induct_children ?_ a
  intro x ih
  by_cases hx : x ∈ gone
  · rw [filter_subtree_of_mem hClosed hx,
      filter_subtree_of_mem hClosed' hx]
  · rw [h.filter_subtree_of_not_mem hClosed hx,
      h'.filter_subtree_of_not_mem hClosed' hx, hSame x hx]
    congr 1
    apply List.flatMap_congr
    intro c hc
    exact ih c (List.mem_of_mem_filter hc)

/- The subtree of a node is closed under children. -/
theorem Sound.childIds_subset_subtree
    (h : t.Sound) :
    ∀ x ∈ t.subtree id, ∀ c ∈ t.childIds x,
      c ∈ t.subtree id := by
  intro x hx c hChild
  have hParent := (h.links x c).mp hChild
  exact
    h.mem_subtree_iff_parent.mpr (Or.inr ⟨x, hParent, hx⟩)

------------------------------------------------------------
-- Deleting
------------------------------------------------------------

/-
  Every node but the root can be deleted, as long as there is
  a next version.
-/
theorem exists_delete
    (hNext : t.HasNext)
    (hContains : t.contains id = true)
    (hNotRoot : id ≠ t.rootId) :
    ∃ t', t.delete id = .ok (t', t.subtree id) := by
  rcases (t.contains_iff id).mp hContains with ⟨n, hNode⟩
  rcases hDeleted : t.deleted id with e | ⟨w, removed⟩
  · exact absurd (deleted_eq_error hNode hDeleted).1 hNotRoot
  · rcases deleted_eq_ok hDeleted with ⟨m, -, -, rfl, rfl⟩
    have hCommit :
        commit
          { t with
            nodes :=
              (unlinkFrom? t.nodes m.parent id).eraseAll
                (id :: t.descendants id) } = .ok _ :=
      commit_eq_ok_iff.mpr ⟨hNext, rfl⟩
    exact ⟨_, bind_eq_ok_iff.mpr
      ⟨_, mapError_eq_ok_iff.mpr hDeleted,
        bind_eq_ok_iff.mpr ⟨_, hCommit, rfl⟩⟩⟩

/-
  The nodes after a deletion.  The removed ones are gone, and
  the others are as they were, but that the node is no longer
  a child of its parent.
-/
theorem get?_of_delete
    {removed : List String}
    (hDelete : t.delete id = .ok (t', removed))
    (x : String) :
    t'.get? x =
      if x ∈ removed then none
      else
        (t.get? x).map fun n =>
          { n with
            children :=
              if t.parentId? id = some x then
                n.children.filter (· != id)
              else n.children } := by
  rcases delete_eq_ok hDelete with
    ⟨n, hNode, -, -, -, rfl⟩
  rw [parentId?_of_get? hNode]
  unfold get?
  rw [NameMap.get?_eraseAll, get?_unlinkFrom?]
  by_cases hRemoved : x ∈ removed
  · rw [if_pos hRemoved, if_pos hRemoved]
  · rw [if_neg hRemoved, if_neg hRemoved]
    split <;> simp

/- Unlinking one of some ids leaves the other children. -/
private theorem filter_unlinked
    {gone : List String}
    (hId : id ∈ gone)
    (children : List String) :
    ((children.filter (· != id)).filter fun c => c ∉ gone) =
      children.filter fun c => c ∉ gone := by
  rw [List.filter_filter]
  apply List.filter_congr
  intro c _
  by_cases hc : c = id
  · simp [hc, hId]
  · simp [hc]

/- A cut takes one run out of the pre-order. -/
theorem Sound.preorder_of_cut
    (h : t.Sound)
    (hCut : Cut t t' id)
    (hContains : t.contains id = true) :
    ∃ before after,
      t.preorder = before ++ t.subtree id ++ after ∧
        t'.preorder = before ++ after := by
  have h' := h.of_cut hCut
  obtain ⟨before, after, hRun⟩ :=
    h.subtree_infix_preorder hContains
  refine ⟨before, after, hRun.symm, ?_⟩
  have hGone : ∀ x ∈ t.subtree id, t'.get? x = none := by
    intro x hx
    rcases h.mem_subtree_iff.mp hx with ⟨k, hk⟩
    exact hCut.gone k x hk
  have hFilter :
      ((t'.subtree t.rootId).filter fun x =>
          x ∉ t.subtree id) =
        (t.subtree t.rootId).filter fun x =>
          x ∉ t.subtree id := by
    refine h.filter_subtree_eq h' h.childIds_subset_subtree
      ?_ ?_ t.rootId
    · intro x hx c hChild
      rw [childIds, hGone x hx] at hChild
      cases hChild
    · intro x hx
      have hKept : ∀ k, t.ancestor? k x ≠ some id :=
        not_exists.mp (mt h.mem_subtree_iff.mpr hx)
      rw [hCut.childIds_kept hKept]
      exact filter_unlinked List.mem_cons_self _
  have hKeeps :
      (t'.preorder.filter fun x => x ∉ t.subtree id) =
        t'.preorder := by
    refine List.filter_eq_self.mpr fun x hx => ?_
    rcases (t'.contains_iff x).mp (h'.mem_preorder_iff.mp hx)
      with ⟨n, hNode⟩
    have hNot : x ∉ t.subtree id := by
      intro hIn
      rw [hGone x hIn] at hNode
      cases hNode
    simpa using hNot
  rw [← hKeeps, h'.preorder_eq_subtree, hCut.rootId, hFilter,
    ← h.preorder_eq_subtree, ← hRun]
  apply filter_not_mem_middle
  rw [hRun]
  exact t.nodup_preorder

------------------------------------------------------------
-- Moving
------------------------------------------------------------

/-
  The nodes after a move.  The node has its new parent, which
  lists it last, its old one no longer lists it, and all else
  is as it was.
-/
theorem get?_of_move
    (hMove : t.move id p = .ok t')
    (hOther : t.parentId? id ≠ some p)
    (x : String) :
    t'.get? x =
      (t.get? x).map fun n =>
        { n with
          parent := if x = id then some p else n.parent
          children :=
            (if t.parentId? id = some x then
                n.children.filter (· != id)
              else n.children) ++
              if x = p then [id] else [] } := by
  rcases move_eq_ok hMove with
    ⟨n, m, hNode, -, -, -, -, hResult⟩
  rw [parentId?_of_get? hNode] at hOther ⊢
  rcases hResult with ⟨hStays, -⟩ | ⟨-, -, -, rfl⟩
  · exact absurd hStays hOther
  · exact get?_moved rfl x

namespace Hung

variable {key : Option Key}

/- The new parent is not in the run. -/
theorem parent_not_mem
    (hHung : Hung t t' p id key)
    (h : t.Sound) : p ∉ t.subtree id := by
  rw [h.mem_subtree_iff]
  exact not_exists.mpr hHung.notBelow

/- In the run, all children are as they were. -/
theorem childIds_eq_of_mem
    (hHung : Hung t t' p id key)
    (h : t.Sound)
    (hContains : t.contains id = true) :
    ∀ x ∈ t.subtree id, t'.childIds x = t.childIds x := by
  intro x hx
  have hNotParent : x ≠ p := fun hSame =>
    hHung.parent_not_mem h (hSame ▸ hx)
  rw [hHung.childIds, if_neg hNotParent, List.append_nil,
    List.filter_eq_self]
  intro c hChild
  -- The node itself is no child in its own subtree.
  have hNe : c ≠ id := by
    rintro rfl
    rcases h.mem_subtree_iff.mp hx with ⟨k, hk⟩
    apply h.not_own_ancestor (j := k) hContains
    rw [ancestor?_succ ((h.links x c).mp hChild)]
    exact hk
  simpa using hNe

/- The run is the same inside. -/
theorem subtree_eq
    (hHung : Hung t t' p id key)
    (h : t.Sound)
    (hContains : t.contains id = true) :
    t'.subtree id = t.subtree id :=
  h.subtree_congr (h.of_hung hHung) h.childIds_subset_subtree
    (hHung.childIds_eq_of_mem h hContains) List.mem_cons_self

/- Outside the run, the order is the same. -/
theorem filter_subtree_eq
    (hHung : Hung t t' p id key)
    (h : t.Sound)
    (hContains : t.contains id = true)
    (a : String) :
    ((t'.subtree a).filter fun x => x ∉ t.subtree id) =
      (t.subtree a).filter fun x => x ∉ t.subtree id := by
  refine h.filter_subtree_eq (h.of_hung hHung)
    h.childIds_subset_subtree ?_ ?_ a
  · intro x hx c hChild
    rw [hHung.childIds_eq_of_mem h hContains x hx] at hChild
    exact h.childIds_subset_subtree x hx c hChild
  · intro x hx
    have hLast :
        ((if x = p then [id] else []).filter fun c =>
          c ∉ t.subtree id) = [] := by
      have hIn : id ∈ t.subtree id := List.mem_cons_self
      split <;> simp [hIn]
    rw [hHung.childIds, List.filter_append, hLast,
      List.append_nil]
    exact filter_unlinked List.mem_cons_self _

/- The run comes last in the subtree of the new parent. -/
theorem subtree_parent
    (hHung : Hung t t' p id key)
    (h : t.Sound)
    (hContains : t.contains id = true) :
    t'.subtree p =
      (p :: (t.descendants p).filter fun x =>
        x ∉ t.subtree id) ++ t.subtree id := by
  have h' := h.of_hung hHung
  obtain ⟨others, hSplit⟩ :
      ∃ others, t'.subtree p = others ++ t.subtree id := by
    refine ⟨p :: ((t.childIds p).filter (· != id)).flatMap
      t'.subtree, ?_⟩
    rw [h'.subtree_eq p, hHung.childIds, if_pos rfl,
      List.flatMap_append, List.flatMap_singleton,
      hHung.subtree_eq h hContains, List.cons_append]
  have hParent : t'.contains p = true :=
    (hHung.contains p).mpr (Or.inr hHung.parentContained)
  have hOthers :
      ((t'.subtree p).filter fun x => x ∉ t.subtree id) =
        others := by
    have hNodup := h'.nodup_subtree hParent
    rw [hSplit, ← List.append_nil (others ++ _)] at hNodup ⊢
    rw [filter_not_mem_middle hNodup, List.append_nil]
  rw [hSplit, ← hOthers,
    hHung.filter_subtree_eq h hContains p]
  unfold subtree
  rw [List.filter_cons_of_pos]
  simpa [subtree] using hHung.parent_not_mem h

/-
  Hanging a subtree elsewhere takes one run out of the
  pre-order, and puts it behind what is left below the new
  parent.
-/
theorem exists_preorder
    (hHung : Hung t t' p id key)
    (h : t.Sound)
    (hContains : t.contains id = true) :
    ∃ before after start rest,
      t.preorder = before ++ t.subtree id ++ after ∧
      before ++ after =
        start ++
          (p :: (t.descendants p).filter fun x =>
            x ∉ t.subtree id) ++ rest ∧
      t'.preorder =
        start ++
          ((p :: (t.descendants p).filter fun x =>
            x ∉ t.subtree id) ++ t.subtree id) ++ rest := by
  have h' := h.of_hung hHung
  have hParent : t'.contains p = true :=
    (hHung.contains p).mpr (Or.inr hHung.parentContained)
  obtain ⟨before, after, hRun⟩ :=
    h.subtree_infix_preorder hContains
  obtain ⟨start, rest, hBlock⟩ :=
    h'.subtree_infix_preorder hParent
  rw [hHung.subtree_parent h hContains] at hBlock
  refine
    ⟨before, after, start, rest, hRun.symm, ?_, hBlock.symm⟩
  -- Both sides are the pre-order without the run.
  have hOld :
      (t.preorder.filter fun x => x ∉ t.subtree id) =
        before ++ after := by
    rw [← hRun]
    apply filter_not_mem_middle
    rw [hRun]
    exact t.nodup_preorder
  have hNew :
      (t'.preorder.filter fun x => x ∉ t.subtree id) =
        start ++
          (p :: (t.descendants p).filter fun x =>
            x ∉ t.subtree id) ++ rest := by
    have hNodup := t'.nodup_preorder
    rw [← hBlock, ← List.append_assoc] at hNodup ⊢
    exact filter_not_mem_middle hNodup
  rw [← hOld, ← hNew, h.preorder_eq_subtree,
    h'.preorder_eq_subtree, hHung.rootId,
    hHung.filter_subtree_eq h hContains]

end Hung

------------------------------------------------------------
-- Whole Subtrees
------------------------------------------------------------

/- A move leaves all but the nodes and the version. -/
theorem fields_of_move
    (hMove : t.move id p = .ok t') :
    t'.name = t.name ∧ t'.rootId = t.rootId ∧
      t'.nextId = t.nextId := by
  rcases move_eq_ok hMove with
    ⟨n, m, -, -, -, -, -, ⟨-, rfl⟩ | ⟨-, -, -, rfl⟩⟩ <;>
    exact ⟨rfl, rfl, rfl⟩

/-
  Deletions and moves of a flow that a program can get to.
  A deletion returns the node with its descendants, which are
  one run of the pre-order, and takes this run out.  A move to
  another parent takes the run out and puts it, unchanged
  inside, behind the parent and what is left below it.  All
  else stays: the order of the other nodes, and every field of
  a node but the children of the old and the new parent and
  the parent of the node.  A move to the parent that the node
  has changes nothing.
-/
theorem subtrees_stay_whole
    (hReachable : t.Reachable) :
    (∀ id t' removed, t.delete id = .ok (t', removed) →
      removed = id :: t.descendants id ∧
      (∃ before after,
        t.preorder = before ++ removed ++ after ∧
          t'.preorder = before ++ after) ∧
      t'.name = t.name ∧ t'.rootId = t.rootId ∧
      t'.nextId = t.nextId ∧
      ∀ x, t'.get? x =
        if x ∈ removed then none
        else
          (t.get? x).map fun n =>
            { n with
              children :=
                if t.parentId? id = some x then
                  n.children.filter (· != id)
                else n.children }) ∧
    ∀ id p t', t.move id p = .ok t' →
      (t.parentId? id = some p → t' = t) ∧
      (t.parentId? id ≠ some p →
        let run := id :: t.descendants id
        let kept := (t.descendants p).filter fun x => x ∉ run
        (∃ before after start rest,
          t.preorder = before ++ run ++ after ∧
          before ++ after = start ++ (p :: kept) ++ rest ∧
          t'.preorder =
            start ++ ((p :: kept) ++ run) ++ rest) ∧
        id :: t'.descendants id = run ∧
        t'.name = t.name ∧ t'.rootId = t.rootId ∧
        t'.nextId = t.nextId ∧
        ∀ x, t'.get? x =
          (t.get? x).map fun n =>
            { n with
              parent := if x = id then some p else n.parent
              children :=
                (if t.parentId? id = some x then
                    n.children.filter (· != id)
                  else n.children) ++
                  if x = p then [id] else [] }) := by
  have h := hReachable.sound
  constructor
  · intro id t' removed hDelete
    have hCut := h.cut_of_delete hDelete
    have hNodes := get?_of_delete hDelete
    rcases delete_eq_ok hDelete with
      ⟨n, hNode, -, rfl, -, rfl⟩
    have hContains := (t.contains_iff id).mpr ⟨n, hNode⟩
    exact ⟨rfl, h.preorder_of_cut hCut hContains, rfl, rfl,
      rfl, hNodes⟩
  · intro id p t' hMove
    refine ⟨eq_of_move_stays hMove, ?_⟩
    intro hOther run kept
    rcases h.hung_of_move hMove hOther with ⟨key, hHung⟩
    rcases move_eq_ok hMove with ⟨n, -, hNode, -⟩
    have hContains := (t.contains_iff id).mpr ⟨n, hNode⟩
    rcases fields_of_move hMove with
      ⟨hName, hRootId, hNextId⟩
    exact ⟨hHung.exists_preorder h hContains,
      hHung.subtree_eq h hContains, hName, hRootId, hNextId,
      get?_of_move hMove hOther⟩

/-
  A menu with two entries is moved from the root to another
  menu, which has an entry of its own, and is then deleted.
-/
theorem subtrees_stay_whole_submenu :
    let t := (Flow.new "Hotline").run
      [.add firstRootId .playback "More" (some (.digit 1)),
        .add "n1" .agent "Sales" (some (.digit 2)),
        .add "n1" .hangup "Bye" none,
        .add firstRootId .playback "Rest" (some (.digit 2)),
        .add "n4" .agent "Office" (some .star)]
    let t' := t.submit (.move "n1" "n4")
    let t'' := t'.submit (.delete "n1")
    let run := ["n1", "n2", "n3"]
    t.Reachable ∧ t'.Reachable ∧
      t.move "n1" "n4" = .ok t' ∧
      t.parentId? "n1" ≠ some "n4" ∧
      t'.delete "n1" = .ok (t'', run) ∧
      t.preorder = [firstRootId] ++ run ++ ["n4", "n5"] ∧
      t'.preorder = [firstRootId, "n4", "n5"] ++ run ∧
      "n1" :: t'.descendants "n1" =
        "n1" :: t.descendants "n1" ∧
      ∃ before after,
        t'.preorder = before ++ run ++ after ∧
          t''.preorder = before ++ after := by
  intro t t' t'' run
  have hReachable : t.Reachable :=
    ⟨Flow.new "Hotline", _, Or.inl ⟨"Hotline", rfl⟩, rfl⟩
  have hMoved : t'.Reachable :=
    ⟨Flow.new "Hotline",
      [.add firstRootId .playback "More" (some (.digit 1)),
        .add "n1" .agent "Sales" (some (.digit 2)),
        .add "n1" .hangup "Bye" none,
        .add firstRootId .playback "Rest" (some (.digit 2)),
        .add "n4" .agent "Office" (some .star),
        .move "n1" "n4"], Or.inl ⟨"Hotline", rfl⟩, by rfl⟩
  have hMove : t.move "n1" "n4" = .ok t' := by rfl
  have hDelete : t'.delete "n1" = .ok (t'', run) := by rfl
  have hOther : t.parentId? "n1" ≠ some "n4" := by
    decide +kernel
  have hInside :=
    (((subtrees_stay_whole hReachable).2 _ _ _ hMove).2
      hOther).2.1
  have hTakenOut :=
    ((subtrees_stay_whole hMoved).1 _ _ _ hDelete).2.1
  exact
    ⟨hReachable, hMoved, hMove, hOther, hDelete,
      by decide +kernel, by decide +kernel, hInside,
      hTakenOut⟩

end Flow

end CallFlow
