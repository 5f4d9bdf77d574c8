import CallFlow.Proofs.Compile.Unfolding

/-
  The emitted nodes are those of the display pre-order that a
  call can come to.

  Two walks list the nodes of a flow.  The pre-order keeps a
  list of what is still to do and skips what it has seen; the
  outline goes down from each node and comes back.  In a
  sound flow no node is come to twice, so they take the same
  turns.  Emitting then leaves out the nodes below one that
  cannot branch.

  Main declarations:
    * `Outline.ids`
    * `Outline.nodup_ids`
    * `Outline.ids_eq_cons_descendants`
    * `Outline.preorder_eq`
    * `Flow.comesTo`
    * `Flow.Sound.comesTo_iff`
    * `Flow.Sound.comesTo_child`
    * `Outline.map_fst_emitted`
-/

namespace CallFlow

variable {t : Flow}

namespace Outline

------------------------------------------------------------
-- Ids of Outlines
------------------------------------------------------------

mutual

/- Every id of an outline, in pre-order. -/
def ids : Outline → List String
  | node id _ children => id :: idsAll children

/- Every id of some outlines, one after the other. -/
def idsAll : List Outline → List String
  | [] => []
  | o :: os => ids o ++ idsAll os

end

/- The ids of outlines are those of each one. -/
private theorem mem_idsAll_iff
    {outlines : List Outline}
    {x : String} :
    x ∈ idsAll outlines ↔ ∃ o ∈ outlines, x ∈ o.ids := by
  induction outlines with
  | nil => simp [idsAll]
  | cons o rest ih =>
      unfold idsAll
      rw [List.mem_append, ih]
      simp

/- A child of an outline is a child of its node. -/
private theorem parentId?_of_mem
    {id : String}
    {step : Node}
    {children : List Outline}
    {o : Outline}
    (h : t.Sound)
    (hNode : t.get? id = some step)
    (hIds : children.map Outline.id = step.children)
    (hChild : o ∈ children) : t.parentId? o.id = some id := by
  rw [← h.links, Flow.childIds_of_get? hNode, ← hIds]
  exact List.mem_map_of_mem hChild

/- Every id of an outline is a node at or below its top. -/
private theorem exists_steps_of_mem_ids
    {o : Outline}
    (h : t.Sound)
    (hShows : o.Shows t)
    {x : String}
    (hMem : x ∈ o.ids) :
    t.contains x = true ∧
      ∃ k, t.ancestor? k x = some o.id := by
  induction hShows with
  | @node id step children hNode hIds hChildren ih =>
      unfold ids at hMem
      rcases List.mem_cons.mp hMem with hHere | hBelow
      · subst hHere
        exact
          ⟨(t.contains_iff x).mpr ⟨step, hNode⟩, 0, rfl⟩
      · rcases mem_idsAll_iff.mp hBelow with ⟨c, hc, hx⟩
        rcases ih c hc hx with ⟨hContains, k, hk⟩
        have hParent := parentId?_of_mem h hNode hIds hc
        refine ⟨hContains, k + 1, ?_⟩
        apply Flow.ancestor?_trans hk
        rw [Flow.ancestor?_succ hParent]
        rfl

/- Below two children of a node there is nothing in common. -/
private theorem eq_of_common_below
    {p a b x : String}
    {j k : Nat}
    (h : t.Sound)
    (ha : t.parentId? a = some p)
    (hb : t.parentId? b = some p)
    (hj : t.ancestor? j x = some a)
    (hk : t.ancestor? k x = some b) : a = b := by
  rcases h.climbs p (h.parents p a ha) with ⟨d, hd⟩
  have hToRoot : ∀ {c : String},
      t.parentId? c = some p →
        t.ancestor? (d + 1) c = some t.rootId := by
    intro c hc
    rw [Flow.ancestor?_succ hc]
    exact hd
  have hSteps :=
    Flow.steps_unique h.parentId?_root
      (Flow.ancestor?_trans hj (hToRoot ha))
      (Flow.ancestor?_trans hk (hToRoot hb))
  have hSame : j = k := by omega
  rw [hSame, hk] at hj
  exact (Option.some.inj hj).symm

/- Outlines that have no id in common list each id once. -/
private theorem nodup_idsAll
    {outlines : List Outline}
    (hEach : ∀ o ∈ outlines, o.ids.Nodup)
    (hApart :
      outlines.Pairwise fun a b => ∀ x ∈ a.ids, x ∉ b.ids) :
    (idsAll outlines).Nodup := by
  induction outlines with
  | nil => exact List.nodup_nil
  | cons o rest ih =>
      rcases List.pairwise_cons.mp hApart with ⟨hHead, hRest⟩
      unfold idsAll
      rw [List.nodup_append]
      refine ⟨hEach o List.mem_cons_self, ?_, ?_⟩
      · exact ih
          (fun b hb => hEach b (List.mem_cons_of_mem o hb))
          hRest
      · intro x hx y hy hSame
        subst hSame
        rcases mem_idsAll_iff.mp hy with ⟨b, hb, hIn⟩
        exact hHead b hb x hx hIn

/- An outline of a sound flow lists each id once. -/
theorem nodup_ids
    {o : Outline}
    (h : t.Sound)
    (hShows : o.Shows t) : o.ids.Nodup := by
  induction hShows with
  | @node id step children hNode hIds hChildren ih =>
      unfold ids
      rw [List.nodup_cons]
      constructor
      · intro hAgain
        rcases mem_idsAll_iff.mp hAgain with ⟨c, hc, hx⟩
        rcases exists_steps_of_mem_ids h (hChildren c hc) hx
          with ⟨hContains, k, hk⟩
        apply h.not_own_ancestor (j := k) hContains
        apply Flow.ancestor?_trans hk
        rw [Flow.ancestor?_succ
          (parentId?_of_mem h hNode hIds hc)]
        rfl
      · apply nodup_idsAll ih
        have hDistinct : (children.map Outline.id).Nodup := by
          rw [hIds, ← Flow.childIds_of_get? hNode]
          exact h.once id
        refine (List.pairwise_map.mp hDistinct).imp_of_mem ?_
        intro a b ha hb hNe x hxa hxb
        rcases exists_steps_of_mem_ids h (hChildren a ha) hxa
          with ⟨-, j, hj⟩
        rcases exists_steps_of_mem_ids h (hChildren b hb) hxb
          with ⟨-, k, hk⟩
        exact hNe
          (eq_of_common_below h
            (parentId?_of_mem h hNode hIds ha)
            (parentId?_of_mem h hNode hIds hb) hj hk)

------------------------------------------------------------
-- Turns of the Walk
------------------------------------------------------------

/-
  The walk takes a turn for each id of an outline, if none
  of them has been seen, and then goes on with the rest.
-/
private def Walked
    (t : Flow)
    (todo listed : List String) : Prop :=
  listed.Nodup → ∀ turns seen rest,
    (∀ x ∈ listed, x ∉ seen) →
      t.walk (listed.length + turns) seen (todo ++ rest) =
        listed ++
          t.walk turns (listed.reverse ++ seen) rest

/- Outlines are walked one after the other. -/
private theorem walked_all
    {outlines : List Outline}
    (h : ∀ o ∈ outlines, Walked t [o.id] o.ids) :
    Walked t (outlines.map Outline.id) (idsAll outlines) := by
  induction outlines with
  | nil =>
      intro _ turns seen rest _
      simp [idsAll]
  | cons o os ih =>
      intro hNodup turns seen rest hNew
      unfold idsAll at hNodup hNew ⊢
      rcases List.nodup_append.mp hNodup with
        ⟨hFirst, hOthers, hApart⟩
      have hHead :=
        h o List.mem_cons_self hFirst
          ((idsAll os).length + turns) seen
          (os.map Outline.id ++ rest)
          fun x hx => hNew x (List.mem_append_left _ hx)
      have hRest :=
        ih (fun b hb => h b (List.mem_cons_of_mem o hb))
          hOthers turns (o.ids.reverse ++ seen) rest (by
            intro x hx hSeen
            rcases List.mem_append.mp hSeen with hBefore | hOld
            · exact hApart x (List.mem_reverse.mp hBefore) x
                hx rfl
            · exact hNew x (List.mem_append_right _ hx) hOld)
      rw [hRest] at hHead
      simpa [Nat.add_assoc] using hHead

/- An id that has not been seen takes one turn. -/
private theorem walk_cons_new
    {turns : Nat}
    {seen rest : List String}
    {id : String}
    (hNew : id ∉ seen) :
    t.walk (turns + 1) seen (id :: rest) =
      id :: t.walk turns (id :: seen)
        (t.childIds id ++ rest) := by
  have hUnseen : ¬ seen.contains id = true := by
    simpa using hNew
  exact if_neg hUnseen

/- An outline is walked from its top. -/
private theorem walked_of_shows
    {o : Outline}
    (hShows : o.Shows t) : Walked t [o.id] o.ids := by
  induction hShows with
  | @node id step children hNode hIds hChildren ih =>
      intro hNodup turns seen rest hNew
      unfold ids at hNodup hNew ⊢
      rcases List.nodup_cons.mp hNodup with ⟨hTop, hBelow⟩
      have hUnseen : id ∉ seen := hNew id List.mem_cons_self
      have hChildIds :
          t.childIds id = children.map Outline.id := by
        rw [Flow.childIds_of_get? hNode, hIds]
      have hRest :=
        walked_all ih hBelow turns (id :: seen) rest (by
          intro x hx hSeen
          rcases List.mem_cons.mp hSeen with hHere | hOld
          · exact hTop (hHere ▸ hx)
          · exact hNew x (List.mem_cons_of_mem id hx) hOld)
      show t.walk ((idsAll children).length + 1 + turns) seen
          (id :: rest) = _
      rw [Nat.add_right_comm, walk_cons_new hUnseen,
        hChildIds, hRest]
      simp

/- There are enough turns: every id but one is a child. -/
private theorem length_ids_le
    {o : Outline}
    (h : t.Sound)
    (hShows : o.Shows t) :
    o.ids.length ≤ t.linkCount + 1 := by
  have hSubset :
      o.ids ⊆
        t.rootId ::
          t.nodes.entries.flatMap fun e => e.2.children := by
    intro x hx
    rcases exists_steps_of_mem_ids h hShows hx with
      ⟨hContains, -⟩
    by_cases hRoot : x = t.rootId
    · exact hRoot ▸ List.mem_cons_self
    · rcases h.exists_parentId? hContains hRoot with
        ⟨p, hParent⟩
      rcases Flow.exists_of_mem_childIds
        ((h.links p x).mpr hParent) with ⟨n, hNode, hChild⟩
      refine List.mem_cons_of_mem _ (List.mem_flatMap.mpr ?_)
      exact
        ⟨(p, n), (t.nodes.mem_entries_iff p n).mpr hNode,
          hChild⟩
  have hLength :=
    (nodup_ids h hShows).length_le_of_subset hSubset
  rwa [List.length_cons] at hLength

/- A walk with enough turns lists what is to be listed. -/
private theorem Walked.walk_eq
    {todo listed : List String}
    (h : Walked t todo listed)
    (hNodup : listed.Nodup)
    {turns : Nat}
    (hTurns : listed.length ≤ turns) :
    t.walk turns [] todo = listed := by
  have hWalk :=
    h hNodup (turns - listed.length) [] [] (by simp)
  have hEnd : ∀ turns seen, t.walk turns seen [] = [] := by
    intro turns seen
    cases turns <;> rfl
  simpa [hEnd, Nat.add_sub_of_le hTurns] using hWalk

/- The ids of outlines, one outline after the other. -/
theorem idsAll_eq_flatMap
    (outlines : List Outline) :
    idsAll outlines = outlines.flatMap ids := by
  induction outlines with
  | nil => rfl
  | cons o rest ih =>
      unfold idsAll
      rw [ih, List.flatMap_cons]

/- Below the top of an outline are the descendants. -/
theorem ids_eq_cons_descendants
    {o : Outline}
    (h : t.Sound)
    (hShows : o.Shows t) :
    o.ids = o.id :: t.descendants o.id := by
  have hLength := length_ids_le h hShows
  have hNodup := nodup_ids h hShows
  cases hShows with
  | @node id step children hNode hIds hChildren =>
      unfold ids at hLength hNodup ⊢
      have hChildIds :
          t.childIds id = children.map Outline.id := by
        rw [Flow.childIds_of_get? hNode, hIds]
      have hTurns :
          (idsAll children).length ≤
            t.linkCount + (children.map Outline.id).length := by
        rw [List.length_cons] at hLength
        omega
      have hWalk :=
        (walked_all fun c hc =>
          walked_of_shows (hChildren c hc)).walk_eq
            (List.nodup_cons.mp hNodup).2 hTurns
      show id :: idsAll children =
        id :: t.listing (t.childIds id)
      rw [hChildIds, Flow.listing, hWalk]

/- The pre-order of a flow is that of its outline. -/
theorem preorder_eq
    {o : Outline}
    (h : t.Sound)
    (hShows : o.Shows t)
    (hId : o.id = t.rootId) : t.preorder = o.ids := by
  have hTurns :
      o.ids.length ≤ t.linkCount + [o.id].length :=
    length_ids_le h hShows
  have hWalk :=
    (walked_of_shows hShows).walk_eq (nodup_ids h hShows)
      hTurns
  unfold Flow.preorder Flow.listing
  rw [← hId, hWalk, List.filter_eq_self]
  intro x hx
  exact (exists_steps_of_mem_ids h hShows hx).1

end Outline

------------------------------------------------------------
-- Nodes That Calls Come To
------------------------------------------------------------

namespace Flow

/- Whether a node is of a kind that can branch. -/
def branches
    (t : Flow)
    (id : String) : Bool :=
  match t.get? id with
  | some n => n.kind.branching
  | none => false

/- For a node that exists, its kind tells. -/
theorem branches_of_get?
    {id : String}
    {n : Node}
    (hNode : t.get? id = some n) :
    t.branches id = n.kind.branching := by
  unfold branches
  rw [hNode]

/- Whether all nodes above a node can branch. -/
def comesTo
    (t : Flow)
    (id : String) : Bool :=
  (t.ancestorsWithin t.size id).all t.branches

/- The listed ancestors are those within some steps. -/
private theorem mem_ancestorsWithin_iff
    {steps : Nat}
    {id a : String} :
    a ∈ t.ancestorsWithin steps id ↔
      ∃ k < steps, t.ancestor? (k + 1) id = some a := by
  induction steps generalizing id with
  | zero => simp [ancestorsWithin]
  | succ steps ih =>
      unfold ancestorsWithin
      cases hParent : t.parentId? id with
      | none => simp [ancestor?, hParent]
      | some p =>
          simp only [List.mem_cons, ih]
          constructor
          · rintro (hFirst | ⟨k, hLt, hk⟩)
            · refine ⟨0, Nat.succ_pos steps, ?_⟩
              rw [ancestor?_succ hParent, hFirst]
              rfl
            · refine ⟨k + 1, Nat.succ_lt_succ hLt, ?_⟩
              rw [ancestor?_succ hParent]
              exact hk
          · rintro ⟨k, hLt, hk⟩
            rw [ancestor?_succ hParent] at hk
            cases k with
            | zero => exact Or.inl (Option.some.inj hk).symm
            | succ k =>
                exact Or.inr ⟨k, Nat.lt_of_succ_lt_succ hLt, hk⟩

/- In a sound flow, these are all nodes above. -/
theorem Sound.comesTo_iff
    (h : t.Sound)
    {id : String}
    (hContains : t.contains id = true) :
    t.comesTo id = true ↔
      ∀ k a, t.ancestor? (k + 1) id = some a →
        t.branches a = true := by
  unfold comesTo
  rw [List.all_eq_true]
  constructor
  · intro hAll k a hk
    apply hAll
    refine mem_ancestorsWithin_iff.mpr ⟨k, ?_, hk⟩
    -- The root is above, and lies within the bound.
    rcases h.climbs a (h.contains_ancestor hContains hk) with
      ⟨j, hj⟩
    have hSteps := h.steps_lt_size (ancestor?_trans hk hj)
    omega
  · intro hAll a ha
    rcases mem_ancestorsWithin_iff.mp ha with ⟨k, -, hk⟩
    exact hAll k a hk

/- Calls come to the root. -/
theorem Sound.comesTo_root
    (h : t.Sound) : t.comesTo t.rootId = true := by
  refine (h.comesTo_iff h.contains_root).mpr ?_
  intro k a hk
  rcases exists_parentId?_of_ancestor?_succ hk with
    ⟨p, hParent, -⟩
  rw [h.parentId?_root] at hParent
  cases hParent

/- A call comes to a child by way of its parent. -/
theorem Sound.comesTo_child
    (h : t.Sound)
    {id p : String}
    (hParent : t.parentId? id = some p) :
    t.comesTo id = (t.branches p && t.comesTo p) := by
  rw [Bool.eq_iff_iff, Bool.and_eq_true,
    h.comesTo_iff (contains_of_parentId? hParent),
    h.comesTo_iff (h.parents p id hParent)]
  constructor
  · intro hAll
    constructor
    · apply hAll 0 p
      rw [ancestor?_succ hParent]
      rfl
    · intro k a hk
      apply hAll (k + 1) a
      rw [ancestor?_succ hParent]
      exact hk
  · rintro ⟨hHere, hAbove⟩ k a hk
    rw [ancestor?_succ hParent] at hk
    cases k with
    | zero => exact Option.some.inj hk ▸ hHere
    | succ k => exact hAbove k a hk

end Flow

------------------------------------------------------------
-- Emitted Nodes
------------------------------------------------------------

namespace Outline

/- No call comes to what is below where none comes to. -/
private theorem filter_idsAll
    {outlines : List Outline}
    {reached : Bool}
    (h :
      ∀ o ∈ outlines,
        o.ids.filter t.comesTo =
          if reached then o.emitted.map (·.1) else []) :
    (idsAll outlines).filter t.comesTo =
      if reached then (emittedAll outlines).map (·.1)
      else [] := by
  induction outlines with
  | nil => simp [idsAll, emittedAll]
  | cons o rest ih =>
      have hHead := h o List.mem_cons_self
      have hRest := ih fun b hb =>
        h b (List.mem_cons_of_mem o hb)
      unfold idsAll emittedAll
      rw [List.filter_append, hHead, hRest]
      cases reached <;> simp

/- What is emitted is what a call comes to. -/
private theorem filter_ids
    {o : Outline}
    (h : t.Sound)
    (hShows : o.Shows t) :
    o.ids.filter t.comesTo =
      if t.comesTo o.id then o.emitted.map (·.1)
      else [] := by
  induction hShows with
  | @node id step children hNode hIds hChildren ih =>
      have hReached : ∀ c ∈ children,
          c.ids.filter t.comesTo =
            if step.kind.branching && t.comesTo id then
              c.emitted.map (·.1)
            else [] := by
        intro c hc
        rw [ih c hc, h.comesTo_child
          (parentId?_of_mem h hNode hIds hc),
          Flow.branches_of_get? hNode]
      have hBelow := filter_idsAll hReached
      unfold ids emitted
      rw [List.filter_cons, hBelow]
      show _ = if t.comesTo id then _ else []
      cases t.comesTo id <;>
        cases step.kind.branching <;> simp

/-
  The emitted nodes of a flow are those of its pre-order that
  lie below nothing but nodes that can branch.
-/
theorem map_fst_emitted
    {o : Outline}
    (h : t.Sound)
    (hShows : o.Shows t)
    (hId : o.id = t.rootId) :
    o.emitted.map (·.1) = t.preorder.filter t.comesTo := by
  rw [preorder_eq h hShows hId, filter_ids h hShows, hId,
    if_pos h.comesTo_root]

end Outline

end CallFlow
