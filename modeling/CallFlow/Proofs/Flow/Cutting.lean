import CallFlow.Proofs.Flow.Accepted
import CallFlow.Proofs.Flow.Sound

/-
  Deleting a node with everything below it leaves a sound
  flow.

  A node that stays has its whole chain stay, since the list
  of what is removed is closed downward.  The only link that
  is cut at one end is the one above the deleted node.

  Main declarations:
    * `Flow.Cut`
    * `Flow.Sound.of_cut`
    * `Flow.Sound.cut_of_delete`
    * `Flow.Sound.delete`
-/

namespace CallFlow

namespace Flow

variable {t t' : Flow}

------------------------------------------------------------
-- Cutting a Subtree
------------------------------------------------------------

/- A deletion removes the node and what has it above. -/
theorem Sound.mem_removed_iff
    (h : t.Sound)
    (id x : String) :
    x ∈ id :: t.descendants id ↔
      ∃ k, t.ancestor? k x = some id := by
  rw [List.mem_cons, h.mem_descendants_iff]
  constructor
  · rintro (hHere | ⟨k, hk⟩)
    · exact ⟨0, congrArg some hHere⟩
    · exact ⟨k + 1, hk⟩
  · rintro ⟨k, hk⟩
    cases k with
    | zero => exact Or.inl (Option.some.inj hk)
    | succ k => exact Or.inr ⟨k, hk⟩

/-
  A flow without a node of another flow and without what lies
  below that node.  The other nodes are the same, but for the
  node in the lists of children.
-/
structure Cut
    (t t' : Flow)
    (id : String) : Prop where
  rootId : t'.rootId = t.rootId
  notRoot : id ≠ t.rootId
  gone :
    ∀ k x, t.ancestor? k x = some id → t'.get? x = none
  kept :
    ∀ x, (∀ k, t.ancestor? k x ≠ some id) →
      t'.get? x =
        (t.get? x).map fun n =>
          { n with children := n.children.filter (· != id) }

namespace Cut

variable {id : String}

/- The root stays. -/
theorem root_kept
    (hCut : Cut t t' id)
    (h : t.Sound)
    (k : Nat) : t.ancestor? k t.rootId ≠ some id := by
  intro hk
  cases k with
  | zero => exact hCut.notRoot (Option.some.inj hk).symm
  | succ k =>
      simp [ancestor?, h.parentId?_root] at hk

/- What has a node stay was not below the deleted one. -/
theorem not_below_of_get?
    (hCut : Cut t t' id)
    {x : String}
    {n : Node}
    (hNode : t'.get? x = some n)
    (k : Nat) : t.ancestor? k x ≠ some id := by
  intro hk
  rw [hCut.gone k x hk] at hNode
  cases hNode

/- A node that stays has its parent stay. -/
theorem parent_kept
    {x p : String}
    (hKept : ∀ k, t.ancestor? k x ≠ some id)
    (hParent : t.parentId? x = some p)
    (k : Nat) : t.ancestor? k p ≠ some id := by
  rw [← ancestor?_succ hParent]
  exact hKept (k + 1)

/- A node that stays names the parent that it named. -/
theorem parentId?_kept
    (hCut : Cut t t' id)
    {x : String}
    (hKept : ∀ k, t.ancestor? k x ≠ some id) :
    t'.parentId? x = t.parentId? x := by
  unfold parentId?
  rw [hCut.kept x hKept]
  cases t.get? x <;> rfl

/- A node that stays lists its children but the deleted one. -/
theorem childIds_kept
    (hCut : Cut t t' id)
    {x : String}
    (hKept : ∀ k, t.ancestor? k x ≠ some id) :
    t'.childIds x = (t.childIds x).filter (· != id) := by
  unfold childIds
  rw [hCut.kept x hKept]
  cases t.get? x <;> rfl

/- A node that stays has its key. -/
theorem hasKey_kept
    (hCut : Cut t t' id)
    {x : String}
    (hKept : ∀ k, t.ancestor? k x ≠ some id)
    (key : Option Key) :
    t'.hasKey key x = t.hasKey key x := by
  unfold hasKey
  rw [hCut.kept x hKept]
  cases t.get? x <;> rfl

/- A node that stays keeps its chain. -/
theorem ancestor?_kept
    (hCut : Cut t t' id)
    (k : Nat)
    {x : String}
    (hKept : ∀ j, t.ancestor? j x ≠ some id) :
    t'.ancestor? k x = t.ancestor? k x :=
  ancestor?_congr
    (S := fun y => ∀ j, t.ancestor? j y ≠ some id)
    (fun _ _ hy hParent => parent_kept hy hParent)
    (fun _ hy => hCut.parentId?_kept hy) k hKept

/- Nothing that is gone lists children. -/
theorem not_below_of_mem_childIds
    (hCut : Cut t t' id)
    {p c : String}
    (hChild : c ∈ t'.childIds p)
    (k : Nat) : t.ancestor? k p ≠ some id := by
  intro hk
  rw [childIds, hCut.gone k p hk] at hChild
  cases hChild

/- The children that stay are those that were listed. -/
theorem mem_childIds
    (hCut : Cut t t' id)
    {p c : String}
    (hChild : c ∈ t'.childIds p) :
    c ∈ t.childIds p ∧ c ≠ id := by
  have hp := hCut.not_below_of_mem_childIds hChild
  rw [hCut.childIds_kept hp, List.mem_filter] at hChild
  simpa using hChild

/- A child that is still listed stays. -/
theorem child_kept
    (hCut : Cut t t' id)
    (h : t.Sound)
    {p c : String}
    (hChild : c ∈ t'.childIds p)
    (k : Nat) : t.ancestor? k c ≠ some id := by
  rcases hCut.mem_childIds hChild with ⟨hOld, hNe⟩
  intro hk
  cases k with
  | zero => exact hNe (Option.some.inj hk)
  | succ k =>
      rw [ancestor?_succ ((h.links p c).mp hOld)] at hk
      exact hCut.not_below_of_mem_childIds hChild k hk

/- The two sides of the links agree again. -/
theorem links
    (hCut : Cut t t' id)
    (h : t.Sound)
    (p c : String) :
    c ∈ t'.childIds p ↔ t'.parentId? c = some p := by
  constructor
  · intro hChild
    rw [hCut.parentId?_kept (hCut.child_kept h hChild)]
    exact (h.links p c).mp (hCut.mem_childIds hChild).1
  · intro hParent
    rcases (t'.contains_iff c).mp
      (contains_of_parentId? hParent) with ⟨n, hNode⟩
    have hc := hCut.not_below_of_get? hNode
    rw [hCut.parentId?_kept hc] at hParent
    have hNe : c ≠ id := fun hSame =>
      hc 0 (congrArg some hSame)
    rw [hCut.childIds_kept (parent_kept hc hParent),
      List.mem_filter]
    exact ⟨(h.links p c).mpr hParent, by simpa using hNe⟩

/- No child is listed twice. -/
theorem once
    (hCut : Cut t t' id)
    (h : t.Sound)
    (p : String) : (t'.childIds p).Nodup := by
  by_cases hp : ∃ k, t.ancestor? k p = some id
  · rcases hp with ⟨k, hk⟩
    rw [childIds, hCut.gone k p hk]
    exact List.nodup_nil
  · rw [hCut.childIds_kept (not_exists.mp hp)]
    exact (h.once p).filter _

end Cut

/- Cutting a subtree leaves a sound flow. -/
theorem Sound.of_cut
    {id : String}
    (h : t.Sound)
    (hCut : Cut t t' id) : t'.Sound := by
  have hRootKept := hCut.root_kept h
  have hOld : ∀ x, t'.contains x = true →
      (∀ k, t.ancestor? k x ≠ some id) ∧
        t.contains x = true := by
    intro x hx
    rcases (t'.contains_iff x).mp hx with ⟨n, hNode⟩
    have hKept := hCut.not_below_of_get? hNode
    refine ⟨hKept, ?_⟩
    rw [hCut.kept x hKept] at hNode
    rcases Option.map_eq_some_iff.mp hNode with ⟨m, hm, -⟩
    exact (t.contains_iff x).mpr ⟨m, hm⟩
  refine Sound.of_views ?_ ?_ ?_ (hCut.links h)
    (hCut.once h) ?_ ?_ ?_
  · rw [hCut.rootId, hCut.hasKey_kept hRootKept]
    exact h.hasKey_root
  · rw [hCut.rootId, hCut.parentId?_kept hRootKept]
    exact h.parentId?_root
  · intro x hx hNotRoot
    rcases hOld x hx with ⟨hKept, hContains⟩
    rw [hCut.rootId] at hNotRoot
    rw [hCut.parentId?_kept hKept]
    rcases h.exists_parentId? hContains hNotRoot with
      ⟨p, hp⟩
    simp [hp]
  · intro x hx
    rcases hOld x hx with ⟨hKept, hContains⟩
    rcases h.climbs x hContains with ⟨k, hk⟩
    refine ⟨k, ?_⟩
    rw [hCut.ancestor?_kept k hKept, hCut.rootId]
    exact hk
  · intro p key c₁ c₂ h₁ h₂ hKey₁ hKey₂
    rw [hCut.hasKey_kept (hCut.child_kept h h₁)] at hKey₁
    rw [hCut.hasKey_kept (hCut.child_kept h h₂)] at hKey₂
    exact h.keys p key c₁ c₂ (hCut.mem_childIds h₁).1
      (hCut.mem_childIds h₂).1 hKey₁ hKey₂
  · intro x n hNode
    rw [hCut.kept x (hCut.not_below_of_get? hNode)] at hNode
    rcases Option.map_eq_some_iff.mp hNode with
      ⟨m, hm, hSame⟩
    cases hSame
    exact h.settings x m hm

------------------------------------------------------------
-- Deleting a Node
------------------------------------------------------------

/- The nodes that a deletion leaves are those of a cut. -/
private theorem cut_of_deleted
    {id : String}
    {n : Node}
    (h : t.Sound)
    (hRoot : t'.rootId = t.rootId)
    (hNodes :
      t'.nodes =
        (unlinkFrom? t.nodes n.parent id).eraseAll
          (id :: t.descendants id))
    (hNode : t.get? id = some n)
    (hNotRoot : id ≠ t.rootId) : Cut t t' id := by
  refine {
    rootId := hRoot
    notRoot := hNotRoot
    gone := ?_
    kept := ?_ }
  · intro k x hk
    unfold get?
    rw [hNodes, NameMap.get?_eraseAll,
      if_pos ((h.mem_removed_iff id x).mpr ⟨k, hk⟩)]
  · intro x hKept
    have hNotRemoved : x ∉ id :: t.descendants id := by
      rw [h.mem_removed_iff]
      exact not_exists.mpr hKept
    unfold get?
    rw [hNodes, NameMap.get?_eraseAll, if_neg hNotRemoved,
      get?_unlinkFrom?]
    by_cases hAbove : n.parent = some x
    · rw [if_pos hAbove]
    · rw [if_neg hAbove]
      cases hx : t.nodes.get? x with
      | none => rfl
      | some m =>
          -- Only its parent lists the deleted node.
          have hUnlisted :
              m.children.filter (· != id) = m.children := by
            rw [List.filter_eq_self]
            intro c hc
            have hcNe : c ≠ id := by
              intro hSame
              have hListed : id ∈ t.childIds x := by
                rw [childIds, get?, hx]
                exact hSame ▸ hc
              have hStep := (h.links x id).mp hListed
              rw [parentId?, hNode] at hStep
              exact hAbove hStep
            simpa using hcNe
          rw [Option.map_some, hUnlisted]

/- An accepted deletion is the cut of a subtree. -/
theorem Sound.cut_of_delete
    {id : String}
    {removed : List String}
    (h : t.Sound)
    (hDelete : t.delete id = .ok (t', removed)) :
    Cut t t' id := by
  rcases delete_eq_ok hDelete with
    ⟨n, hNode, hNotRoot, rfl, -, rfl⟩
  exact cut_of_deleted h rfl rfl hNode hNotRoot

/- So it leaves a sound flow. -/
theorem Sound.delete
    {id : String}
    {removed : List String}
    (h : t.Sound)
    (hDelete : t.delete id = .ok (t', removed)) :
    t'.Sound :=
  h.of_cut (h.cut_of_delete hDelete)

end Flow

end CallFlow
