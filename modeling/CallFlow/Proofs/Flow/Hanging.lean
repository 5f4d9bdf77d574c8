import CallFlow.Proofs.Flow.Accepted
import CallFlow.Proofs.Flow.Sound

/-
  Adding a node and moving one leave a sound flow.

  Both hang a node below another one: a new leaf, or a node
  with everything below it.  What decides is that the other
  node is not below the one that is hung, which for a move is
  what the list of descendants tells.

  Main declarations:
    * `Flow.Hung`
    * `Flow.Sound.of_hung`
    * `Flow.Sound.hung_of_add`
    * `Flow.Sound.add`
    * `Flow.Sound.hung_of_move`
    * `Flow.Sound.move`
-/

namespace CallFlow

namespace Flow

------------------------------------------------------------
-- Hanging a Node
------------------------------------------------------------

/-
  A flow that differs from another in the place of one node,
  which is last among the children of its new parent.  Its
  key is free there, and the new parent is not below it.
-/
structure Hung
    (t t' : Flow)
    (parent id : String)
    (key : Option Key) : Prop where
  rootId : t'.rootId = t.rootId
  contains :
    ∀ x, t'.contains x = true ↔
      x = id ∨ t.contains x = true
  parentId? :
    ∀ x, t'.parentId? x =
      if x = id then some parent else t.parentId? x
  childIds :
    ∀ x, t'.childIds x =
      (t.childIds x).filter (· != id) ++
        if x = parent then [id] else []
  hasKey :
    ∀ k x, t'.hasKey k x =
      if x = id then key == k else t.hasKey k x
  settings :
    ∀ x n, t'.get? x = some n → n.kind.Admits n.settings
  parentContained : t.contains parent = true
  notRoot : id ≠ t.rootId
  notBelow : ∀ k, t.ancestor? k parent ≠ some id
  free :
    ∀ c ∈ t.childIds parent, c ≠ id →
      t.hasKey key c = false

namespace Hung

variable {t t' : Flow}
variable {parent id : String}
variable {key : Option Key}

/- The children of a node, with the one that is hung. -/
theorem mem_childIds_iff
    (hHung : Hung t t' parent id key)
    (p c : String) :
    c ∈ t'.childIds p ↔
      (c ∈ t.childIds p ∧ c ≠ id) ∨
        (p = parent ∧ c = id) := by
  rw [hHung.childIds, List.mem_append]
  by_cases hParent : p = parent <;> simp [hParent]

/- Nodes that are not below the hung one keep their chains. -/
theorem ancestor?_eq
    (hHung : Hung t t' parent id key)
    (k : Nat)
    {x : String}
    (hBelow : ∀ j, t.ancestor? j x ≠ some id) :
    t'.ancestor? k x = t.ancestor? k x := by
  refine ancestor?_congr
    (S := fun y => ∀ j, t.ancestor? j y ≠ some id)
    ?_ ?_ k hBelow
  · intro y p hy hParent j
    rw [← ancestor?_succ hParent]
    exact hy (j + 1)
  · intro y hy
    have hNe : y ≠ id := fun hSame =>
      hy 0 (congrArg some hSame)
    rw [hHung.parentId?, if_neg hNe]

/- The hung node gets to the root by way of its new parent. -/
theorem exists_steps_hung
    (hHung : Hung t t' parent id key)
    (h : t.Sound) :
    ∃ k, t'.ancestor? k id = some t.rootId := by
  rcases h.climbs parent hHung.parentContained with ⟨k, hk⟩
  refine ⟨k + 1, ?_⟩
  have hParent : t'.parentId? id = some parent := by
    rw [hHung.parentId?, if_pos rfl]
  rw [ancestor?_succ hParent,
    hHung.ancestor?_eq k hHung.notBelow]
  exact hk

/- So does every node below it, as its chain is kept so far. -/
theorem exists_steps_below
    (hHung : Hung t t' parent id key)
    (h : t.Sound)
    {x : String}
    {k : Nat}
    (hk : t.ancestor? k x = some id) :
    ∃ j, t'.ancestor? j x = some t.rootId := by
  by_cases hHere : x = id
  · subst hHere
    exact hHung.exists_steps_hung h
  · induction k generalizing x with
    | zero => exact absurd (Option.some.inj hk) hHere
    | succ k ih =>
        rcases exists_parentId?_of_ancestor?_succ hk with
          ⟨p, hParent, hRest⟩
        have hAbove :
            ∃ j, t'.ancestor? j p = some t.rootId := by
          by_cases hNext : p = id
          · subst hNext
            exact hHung.exists_steps_hung h
          · exact ih hRest hNext
        rcases hAbove with ⟨j, hj⟩
        refine ⟨j + 1, ?_⟩
        have hKept : t'.parentId? x = some p := by
          rw [hHung.parentId?, if_neg hHere]
          exact hParent
        rw [ancestor?_succ hKept]
        exact hj

/- The two sides of the links agree again. -/
theorem links
    (hHung : Hung t t' parent id key)
    (h : t.Sound)
    (p c : String) :
    c ∈ t'.childIds p ↔ t'.parentId? c = some p := by
  rw [hHung.mem_childIds_iff, hHung.parentId?, h.links]
  by_cases hc : c = id
  · simp [hc, eq_comm]
  · simp [hc]

/- No child is listed twice. -/
theorem once
    (hHung : Hung t t' parent id key)
    (h : t.Sound)
    (p : String) : (t'.childIds p).Nodup := by
  have hOld := (h.once p).filter (· != id)
  rw [hHung.childIds]
  by_cases hParent : p = parent
  · rw [if_pos hParent, List.nodup_append]
    refine ⟨hOld, by simp, ?_⟩
    intro a ha b hb hSame
    rw [List.mem_singleton] at hb
    rw [hSame, hb] at ha
    simp at ha
  · rw [if_neg hParent, List.append_nil]
    exact hOld

/- The hung node shares its key with none of its siblings. -/
theorem hasKey_sibling
    (hHung : Hung t t' parent id key)
    {k : Option Key}
    {c : String}
    (hChild : c ∈ t.childIds parent)
    (hNe : c ≠ id)
    (hKeyId : t'.hasKey k id = true) :
    t'.hasKey k c = false := by
  rw [hHung.hasKey, if_pos rfl, beq_iff_eq] at hKeyId
  rw [hHung.hasKey, if_neg hNe, ← hKeyId]
  exact hHung.free c hChild hNe

/- Keys tell siblings apart. -/
theorem keys
    (hHung : Hung t t' parent id key)
    (h : t.Sound)
    {p c₁ c₂ : String}
    {k : Option Key}
    (h₁ : c₁ ∈ t'.childIds p)
    (h₂ : c₂ ∈ t'.childIds p)
    (hKey₁ : t'.hasKey k c₁ = true)
    (hKey₂ : t'.hasKey k c₂ = true) : c₁ = c₂ := by
  rcases (hHung.mem_childIds_iff p c₁).mp h₁ with
    ⟨hOld₁, hNe₁⟩ | ⟨hp₁, hHere₁⟩
  · rcases (hHung.mem_childIds_iff p c₂).mp h₂ with
      ⟨hOld₂, hNe₂⟩ | ⟨hp₂, hHere₂⟩
    · rw [hHung.hasKey, if_neg hNe₁] at hKey₁
      rw [hHung.hasKey, if_neg hNe₂] at hKey₂
      exact h.keys p k c₁ c₂ hOld₁ hOld₂ hKey₁ hKey₂
    · subst hp₂ hHere₂
      rw [hHung.hasKey_sibling hOld₁ hNe₁ hKey₂] at hKey₁
      cases hKey₁
  · rcases (hHung.mem_childIds_iff p c₂).mp h₂ with
      ⟨hOld₂, hNe₂⟩ | ⟨hp₂, hHere₂⟩
    · subst hp₁ hHere₁
      rw [hHung.hasKey_sibling hOld₂ hNe₂ hKey₁] at hKey₂
      cases hKey₂
    · rw [hHere₁, hHere₂]

end Hung

variable {t t' : Flow}

/- Hanging a node leaves a sound flow. -/
theorem Sound.of_hung
    {parent id : String}
    {key : Option Key}
    (h : t.Sound)
    (hHung : Hung t t' parent id key) : t'.Sound := by
  have hRootNe : t.rootId ≠ id := fun hSame =>
    hHung.notRoot hSame.symm
  refine Sound.of_views ?_ ?_ ?_ (hHung.links h)
    (hHung.once h) ?_ ?_ hHung.settings
  · rw [hHung.rootId, hHung.hasKey, if_neg hRootNe]
    exact h.hasKey_root
  · rw [hHung.rootId, hHung.parentId?, if_neg hRootNe]
    exact h.parentId?_root
  · intro x hx hNotRoot
    rw [hHung.parentId?]
    by_cases hHere : x = id
    · simp [hHere]
    · rw [if_neg hHere]
      rw [hHung.rootId] at hNotRoot
      have hOld :=
        ((hHung.contains x).mp hx).resolve_left hHere
      rcases h.exists_parentId? hOld hNotRoot with ⟨p, hp⟩
      simp [hp]
  · intro x hx
    rw [hHung.rootId]
    -- Only chains that pass the hung node have changed.
    by_cases hBelow : ∃ k, t.ancestor? k x = some id
    · rcases hBelow with ⟨k, hk⟩
      exact hHung.exists_steps_below h hk
    · have hNotBelow := not_exists.mp hBelow
      have hNe : x ≠ id := fun hSame =>
        hNotBelow 0 (congrArg some hSame)
      have hOld :=
        ((hHung.contains x).mp hx).resolve_left hNe
      rcases h.climbs x hOld with ⟨k, hk⟩
      refine ⟨k, ?_⟩
      rw [hHung.ancestor?_eq k hNotBelow]
      exact hk
  · intro p k c₁ c₂ h₁ h₂ hKey₁ hKey₂
    exact hHung.keys h h₁ h₂ hKey₁ hKey₂

------------------------------------------------------------
-- Adding a Node
------------------------------------------------------------

section Add

variable {parent id : String} {n : Node}

/- The nodes after a node has been added. -/
theorem get?_added
    (hNodes :
      t'.nodes = linkChild (t.nodes.insert id n) parent id)
    (hNe : id ≠ parent)
    (x : String) :
    t'.get? x =
      if x = id then some n
      else
        (t.get? x).map fun m =>
          { m with
            children :=
              m.children ++
                if x = parent then [id] else [] } := by
  unfold get?
  rw [hNodes, get?_linkChild, NameMap.get?_insert]
  by_cases hHere : x = id
  · simp [hHere, hNe]
  · rw [if_neg hHere, if_neg hHere]
    by_cases hThere : x = parent <;>
      cases t.nodes.get? x <;>
        simp [hThere]

/- A leaf with a new id and a free key can be hung. -/
private theorem hung_of_added
    (h : t.Sound)
    (hRoot : t'.rootId = t.rootId)
    (hNodes :
      t'.nodes = linkChild (t.nodes.insert id n) parent id)
    (hContains : t.contains parent = true)
    (hNew : t.contains id = false)
    (hParent : n.parent = some parent)
    (hLeaf : n.children = [])
    (hFree :
      ∀ c ∈ t.childIds parent, t.hasKey n.key c = false)
    (hSettings : n.kind.Admits n.settings) :
    Hung t t' parent id n.key := by
  have hNotId : ∀ x, t.contains x = true → x ≠ id := by
    intro x hx hSame
    rw [hSame, hNew] at hx
    cases hx
  have hNe : id ≠ parent := fun hSame =>
    hNotId parent hContains hSame.symm
  have hLookup := get?_added hNodes hNe
  have hNone : t.get? id = none := by
    cases hNode : t.get? id with
    | none => rfl
    | some m =>
        have hOld := (t.contains_iff id).mpr ⟨m, hNode⟩
        exact absurd rfl (hNotId id hOld)
  have hNotListed : ∀ p, id ∉ t.childIds p := by
    intro p hListed
    exact hNotId id (h.contains_of_mem_childIds hListed) rfl
  refine {
    rootId := hRoot
    contains := ?_
    parentId? := ?_
    childIds := ?_
    hasKey := ?_
    settings := ?_
    parentContained := hContains
    notRoot := (hNotId _ h.contains_root).symm
    notBelow := ?_
    free := fun c hc _ => hFree c hc }
  · intro x
    rw [contains_eq_isSome, contains_eq_isSome, hLookup]
    by_cases hHere : x = id
    · simp [hHere]
    · rw [if_neg hHere, Option.isSome_map]
      simp [hHere]
  · intro x
    unfold parentId?
    rw [hLookup]
    by_cases hHere : x = id
    · simp [hHere, hParent]
    · rw [if_neg hHere, if_neg hHere]
      cases t.get? x <;> rfl
  · intro x
    have hKept :
        (t.childIds x).filter (· != id) = t.childIds x := by
      rw [List.filter_eq_self]
      intro c hc
      have hcNe : c ≠ id := fun hSame =>
        hNotListed x (hSame ▸ hc)
      simpa using hcNe
    rw [hKept]
    unfold childIds
    rw [hLookup]
    by_cases hHere : x = id
    · subst hHere
      simp [hNone, hLeaf, hNe]
    · rw [if_neg hHere]
      cases hNode : t.get? x with
      | some m => rfl
      | none =>
          have hThere : x ≠ parent := by
            intro hSame
            rw [← hSame, contains_eq_isSome, hNode]
              at hContains
            cases hContains
          simp [hThere]
  · intro k x
    unfold hasKey
    rw [hLookup]
    by_cases hHere : x = id
    · simp [hHere]
    · rw [if_neg hHere, if_neg hHere]
      cases t.get? x <;> rfl
  · intro x m hNode
    rw [hLookup] at hNode
    by_cases hHere : x = id
    · rw [if_pos hHere] at hNode
      cases hNode
      exact hSettings
    · rw [if_neg hHere] at hNode
      rcases Option.map_eq_some_iff.mp hNode with
        ⟨m₀, hNode₀, hSame⟩
      cases hSame
      exact h.settings x m₀ hNode₀
  · intro k hk
    have hOld := h.contains_ancestor hContains hk
    exact hNotId id hOld rfl

end Add

/- An accepted addition hangs the new node. -/
theorem Sound.hung_of_add
    {parent label id : String}
    {kind : StepKind}
    {key : Option Key}
    (h : t.Sound)
    (hAdd : t.add parent kind label key = .ok (t', id)) :
    Hung t t' parent id key := by
  rcases add_eq_ok hAdd with
    ⟨p, next, hParent, hFree, hFresh, -, rfl⟩
  exact hung_of_added
    (n := .fresh kind label key (some parent)) h rfl rfl
    ((t.contains_iff parent).mpr ⟨p, hParent⟩)
    (not_contains_of_freshIdFrom? hFresh) rfl rfl hFree
    kind.admits_initialSettings

/- So it leaves a sound flow. -/
theorem Sound.add
    {parent label id : String}
    {kind : StepKind}
    {key : Option Key}
    (h : t.Sound)
    (hAdd : t.add parent kind label key = .ok (t', id)) :
    t'.Sound :=
  h.of_hung (h.hung_of_add hAdd)

------------------------------------------------------------
-- Moving a Node
------------------------------------------------------------

section Move

variable {parent id : String} {n : Node}

/- The nodes after a node has been moved. -/
theorem get?_moved
    (hNodes :
      t'.nodes =
        (linkChild (unlinkFrom? t.nodes n.parent id)
            parent id).modify id fun n =>
          { n with parent := some parent })
    (x : String) :
    t'.get? x =
      (t.get? x).map fun m =>
        { m with
          parent :=
            if x = id then some parent else m.parent
          children :=
            (if n.parent = some x then
                m.children.filter (· != id)
              else m.children) ++
              if x = parent then [id] else [] } := by
  unfold get?
  rw [hNodes, NameMap.get?_modify, get?_linkChild,
    get?_unlinkFrom?]
  cases hNode : t.nodes.get? x with
  | none => simp
  | some m =>
      split <;> split <;> split <;> simp

/- A node with a free key can be hung where it is not above. -/
theorem hung_of_moved
    (h : t.Sound)
    (hRoot : t'.rootId = t.rootId)
    (hNodes :
      t'.nodes =
        (linkChild (unlinkFrom? t.nodes n.parent id)
            parent id).modify id fun n =>
          { n with parent := some parent })
    (hNode : t.get? id = some n)
    (hNotRoot : id ≠ t.rootId)
    (hContains : t.contains parent = true)
    (hNe : id ≠ parent)
    (hBelow : parent ∉ t.descendants id)
    (hFree :
      ∀ c ∈ t.childIds parent, c ≠ id →
        t.hasKey n.key c = false) :
    Hung t t' parent id n.key := by
  have hLookup := get?_moved hNodes
  refine {
    rootId := hRoot
    contains := ?_
    parentId? := ?_
    childIds := ?_
    hasKey := ?_
    settings := ?_
    parentContained := hContains
    notRoot := hNotRoot
    notBelow := ?_
    free := hFree }
  · intro x
    rw [contains_eq_isSome, contains_eq_isSome, hLookup,
      Option.isSome_map]
    by_cases hHere : x = id
    · simp [hHere, hNode]
    · simp [hHere]
  · intro x
    unfold parentId?
    rw [hLookup]
    by_cases hHere : x = id
    · subst hHere
      simp [hNode]
    · rw [if_neg hHere]
      cases t.get? x <;> simp [hHere]
  · intro x
    -- The moved node is listed under its old parent only.
    have hListed :
        n.parent ≠ some x →
          (t.childIds x).filter (· != id) = t.childIds x := by
      intro hOther
      rw [List.filter_eq_self]
      intro c hc
      have hcNe : c ≠ id := by
        intro hSame
        have hStep := (h.links x c).mp hc
        rw [hSame, parentId?_of_get? hNode] at hStep
        exact hOther hStep
      simpa using hcNe
    unfold childIds at hListed ⊢
    rw [hLookup]
    cases hx : t.get? x with
    | none =>
        have hxNe : x ≠ parent := by
          intro hSame
          rcases (t.contains_iff parent).mp hContains with
            ⟨m, hm⟩
          rw [← hSame, hx] at hm
          cases hm
        simp [hxNe]
    | some m =>
        rw [hx] at hListed
        by_cases hLeft : n.parent = some x
        · simp [hLeft]
        · simp [hLeft, hListed hLeft]
  · intro k x
    unfold hasKey
    rw [hLookup]
    by_cases hHere : x = id
    · subst hHere
      simp [hNode]
    · rw [if_neg hHere]
      cases t.get? x <;> simp
  · intro x m hx
    rw [hLookup] at hx
    rcases Option.map_eq_some_iff.mp hx with
      ⟨m₀, hx₀, hSame⟩
    cases hSame
    exact h.settings x m₀ hx₀
  · intro k hk
    cases k with
    | zero => exact hNe (Option.some.inj hk).symm
    | succ k =>
        exact hBelow
          ((h.mem_descendants_iff id parent).mpr ⟨k, hk⟩)

end Move

/- A move to the parent that a node has changes nothing. -/
theorem eq_of_move_stays
    {id parent : String}
    (hMove : t.move id parent = .ok t')
    (hParent : t.parentId? id = some parent) : t' = t := by
  rcases move_eq_ok hMove with
    ⟨n, p, hNode, -, -, -, -, ⟨-, hSame⟩ | ⟨hOther, -⟩⟩
  · exact hSame
  · rw [parentId?_of_get? hNode] at hParent
    exact absurd hParent hOther

/- A move to another parent hangs the node there. -/
theorem Sound.hung_of_move
    {id parent : String}
    (h : t.Sound)
    (hMove : t.move id parent = .ok t')
    (hOther : t.parentId? id ≠ some parent) :
    ∃ key, Hung t t' parent id key := by
  rcases move_eq_ok hMove with
    ⟨n, p, hNode, hNotRoot, hParent, hNe, hBelow, hResult⟩
  rw [parentId?_of_get? hNode] at hOther
  rcases hResult with ⟨hStays, -⟩ | ⟨-, hFree, -, rfl⟩
  · exact absurd hStays hOther
  · exact ⟨n.key,
      hung_of_moved h rfl rfl hNode hNotRoot
        ((t.contains_iff parent).mpr ⟨p, hParent⟩) hNe hBelow
        hFree⟩

/- So both leave a sound flow. -/
theorem Sound.move
    {id parent : String}
    (h : t.Sound)
    (hMove : t.move id parent = .ok t') : t'.Sound := by
  by_cases hStays : t.parentId? id = some parent
  · rw [eq_of_move_stays hMove hStays]
    exact h
  · rcases h.hung_of_move hMove hStays with ⟨key, hHung⟩
    exact h.of_hung hHung

end Flow

end CallFlow
