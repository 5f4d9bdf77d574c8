import CallFlow.Proofs.Compile.Preorder

/-
  Taking the nodes of a flow off a stack lists the nodes that
  are emitted.

  A node is taken off in each turn, and its children are put
  on if it is of a kind that can branch.  What has been taken
  is not kept, so only the shape of a flow can bring the stack
  to an end.  In a sound flow the children of a node lie on
  top until everything below the node is listed, and no node
  is put on twice.

  Main declarations:
    * `Flow.childNodes`
    * `Flow.unstack?`
    * `Outline.unstack?_top`
    * `Flow.Sound.mem_emitted_iff`
    * `Flow.Sound.length_emitted_le`
-/

namespace CallFlow

variable {t : Flow}

------------------------------------------------------------
-- The Stack
------------------------------------------------------------

namespace Flow

/- The children of a node that exist, with their nodes. -/
def childNodes
    (t : Flow)
    (n : Node) : List (String × Node) :=
  n.children.filterMap fun c => (t.get? c).map fun m => (c, m)

/-
  The nodes that are taken off a stack, if it is empty after
  some turns.
-/
def unstack?
    (t : Flow) :
    Nat → List (String × Node) →
      Option (List (String × Node))
  | _, [] => some []
  | 0, _ :: _ => none
  | turns + 1, e :: rest =>
      (t.unstack? turns
        ((if e.2.kind.branching then t.childNodes e.2
          else []) ++ rest)).map (e :: ·)

/- Taking a node off puts its children on. -/
theorem unstack?_cons
    {turns : Nat}
    {e : String × Node}
    {rest : List (String × Node)} :
    t.unstack? (turns + 1) (e :: rest) =
      (t.unstack? turns
        ((if e.2.kind.branching then t.childNodes e.2
          else []) ++ rest)).map (e :: ·) :=
  rfl

/- An empty stack takes no turn. -/
@[simp] theorem unstack?_nil
    {turns : Nat} : t.unstack? turns [] = some [] := by
  cases turns <;> rfl

end Flow

------------------------------------------------------------
-- Outlines on the Stack
------------------------------------------------------------

namespace Outline

/- The node at the top of an outline, with its id. -/
def top : Outline → String × Node
  | node id step _ => (id, step)

/- The top of an outline of a flow is one of its nodes. -/
theorem get?_id
    {o : Outline}
    (hShows : o.Shows t) : t.get? o.id = some o.top.2 := by
  cases hShows with
  | node hNode hIds hChildren => exact hNode

/- The children that an outline shows are those that exist. -/
theorem childNodes_eq
    {step : Node}
    {children : List Outline}
    (hIds : children.map Outline.id = step.children)
    (hChildren : ∀ o ∈ children, o.Shows t) :
    t.childNodes step = children.map top := by
  unfold Flow.childNodes
  rw [← hIds, List.filterMap_map, ← List.filterMap_eq_map]
  refine List.filterMap_congr fun o ho => ?_
  show (t.get? o.id).map (fun m => (o.id, m)) = some o.top
  rw [get?_id (hChildren o ho)]
  cases o
  rfl

/-
  From a stack with some nodes on top, a list is taken first,
  in as many turns as it is long.
-/
private def Unstacked
    (t : Flow)
    (tops listed : List (String × Node)) : Prop :=
  ∀ turns rest,
    t.unstack? turns (tops ++ rest) =
      if listed.length ≤ turns then
        (t.unstack? (turns - listed.length) rest).map
          (listed ++ ·)
      else none

/- Outlines are taken off one after the other. -/
private theorem unstacked_all
    {outlines : List Outline}
    (h : ∀ o ∈ outlines, Unstacked t [o.top] o.emitted) :
    Unstacked t (outlines.map top) (emittedAll outlines) := by
  induction outlines with
  | nil =>
      intro turns rest
      simp [emittedAll]
  | cons o os ih =>
      intro turns rest
      have hHead := h o List.mem_cons_self turns
        (os.map top ++ rest)
      have hRest := ih
        (fun b hb => h b (List.mem_cons_of_mem o hb))
        (turns - o.emitted.length) rest
      unfold emittedAll
      rw [List.map_cons, List.cons_append,
        List.length_append]
      rw [List.singleton_append] at hHead
      rw [hHead, hRest]
      by_cases hTurns : o.emitted.length ≤ turns
      · by_cases hMore :
            (emittedAll os).length ≤ turns - o.emitted.length
        · rw [if_pos hTurns, if_pos hMore, if_pos (by omega),
            Option.map_map, Nat.sub_sub]
          congr 1
          funext l
          exact (List.append_assoc _ _ _).symm
        · rw [if_pos hTurns, if_neg hMore, if_neg (by omega)]
          rfl
      · rw [if_neg hTurns, if_neg (by omega)]

/- An outline is taken off from its top. -/
private theorem unstacked_of_shows
    {o : Outline}
    (hShows : o.Shows t) : Unstacked t [o.top] o.emitted := by
  induction hShows with
  | @node id step children hNode hIds hChildren ih =>
      intro turns rest
      -- The children are put on top of the rest of the stack,
      -- so they are listed before it.
      have hBelow :
          Unstacked t
            (if step.kind.branching then t.childNodes step
              else [])
            (if step.kind.branching then emittedAll children
              else []) := by
        rw [childNodes_eq hIds hChildren]
        cases step.kind.branching with
        | true => exact unstacked_all ih
        | false =>
            intro turns rest
            simp
      unfold emitted
      generalize (if step.kind.branching then
        emittedAll children else []) = below at hBelow ⊢
      show t.unstack? turns ((id, step) :: rest) = _
      cases turns with
      | zero => rfl
      | succ turns =>
          rw [Flow.unstack?_cons, hBelow turns rest]
          simp only [List.length_cons,
            Nat.add_le_add_iff_right, Nat.add_sub_add_right]
          split
          · rw [Option.map_map]
            rfl
          · rfl

/-
  The stack with the top of an outline is empty after as many
  turns as nodes are emitted, and not before.
-/
theorem unstack?_top
    {o : Outline}
    (hShows : o.Shows t)
    (turns : Nat) :
    t.unstack? turns [o.top] =
      if o.emitted.length ≤ turns then some o.emitted
      else none := by
  have hAll := unstacked_of_shows hShows turns []
  rw [List.append_nil] at hAll
  rw [hAll]
  simp

end Outline

------------------------------------------------------------
-- Emitted Nodes
------------------------------------------------------------

namespace Flow

variable {x : Outline}

/- No node is emitted twice. -/
theorem Sound.nodup_emitted
    (h : t.Sound)
    (hShows : x.Shows t)
    (hId : x.id = t.rootId) :
    (x.emitted.map (·.1)).Nodup := by
  rw [Outline.map_fst_emitted h hShows hId]
  exact t.nodup_preorder.filter _

/- The emitted nodes lie below nodes that can branch. -/
theorem Sound.mem_emitted_iff
    (h : t.Sound)
    (hShows : x.Shows t)
    (hId : x.id = t.rootId)
    {id : String}
    {n : Node} :
    (id, n) ∈ x.emitted ↔
      t.get? id = some n ∧
        ∀ k a, t.ancestor? (k + 1) id = some a →
          t.branches a = true := by
  have hIds := Outline.map_fst_emitted h hShows hId
  constructor
  · intro hMem
    have hNode := Outline.get?_of_mem_emitted hShows hMem
    have hContains := (t.contains_iff id).mpr ⟨n, hNode⟩
    have hReached : id ∈ t.preorder.filter t.comesTo := by
      rw [← hIds]
      exact List.mem_map_of_mem hMem
    exact ⟨hNode, (h.comesTo_iff hContains).mp
      (List.mem_filter.mp hReached).2⟩
  · rintro ⟨hNode, hAbove⟩
    have hContains := (t.contains_iff id).mpr ⟨n, hNode⟩
    have hReached : id ∈ t.preorder.filter t.comesTo :=
      List.mem_filter.mpr ⟨h.mem_preorder hContains,
        (h.comesTo_iff hContains).mpr hAbove⟩
    rw [← hIds] at hReached
    rcases List.mem_map.mp hReached with
      ⟨⟨id', n'⟩, hMem, hSame⟩
    cases hSame
    have hNode' := Outline.get?_of_mem_emitted hShows hMem
    rw [hNode] at hNode'
    cases hNode'
    exact hMem

/- There are no more of them than nodes. -/
theorem Sound.length_emitted_le
    (h : t.Sound)
    (hShows : x.Shows t)
    (hId : x.id = t.rootId) : x.emitted.length ≤ t.size := by
  rw [← List.length_map (f := (·.1))]
  refine t.nodes.length_le_size
    (h.nodup_emitted hShows hId) fun id hMem => ?_
  rcases List.mem_map.mp hMem with
    ⟨⟨id', n⟩, hEmitted, rfl⟩
  exact (t.contains_iff id').mpr
    ⟨n, Outline.get?_of_mem_emitted hShows hEmitted⟩

end Flow

end CallFlow
