import CallFlow.Proofs.Flow.Accepted
import CallFlow.Proofs.Flow.Sound

/-
  Changing a node leaves a sound flow.

  No link changes.  The key of the node is free among its
  siblings if it changes, and its settings were either there
  before or are those of the new kind, with each change
  checked.

  Main declarations:
    * `Flow.Rekeyed`
    * `Flow.Sound.of_rekeyed`
    * `Flow.Sound.rekeyed_of_update`
    * `Flow.Sound.update`
-/

namespace CallFlow

namespace Flow

variable {t t' : Flow}

------------------------------------------------------------
-- Changing a Key
------------------------------------------------------------

/-
  A flow with the links of another, where one node may have
  another key.  The root may not, and among siblings the key
  is either the old one or a free one.
-/
structure Rekeyed
    (t t' : Flow)
    (id : String)
    (key : Option Key) : Prop where
  rootId : t'.rootId = t.rootId
  contains : ∀ x, t'.contains x = t.contains x
  parentId? : ∀ x, t'.parentId? x = t.parentId? x
  childIds : ∀ x, t'.childIds x = t.childIds x
  hasKey :
    ∀ k x, t'.hasKey k x =
      if x = id then key == k else t.hasKey k x
  settings :
    ∀ x n, t'.get? x = some n → n.kind.Admits n.settings
  free :
    t.hasKey key id = true ∨
      (t.parentId? id = none ∧ key = none) ∨
        ∃ p, t.parentId? id = some p ∧
          ∀ c ∈ t.childIds p, c ≠ id →
            t.hasKey key c = false

namespace Rekeyed

variable {id : String} {key : Option Key}

/- The chains are the same. -/
theorem ancestor?_eq
    (hSame : Rekeyed t t' id key)
    (k : Nat)
    (x : String) : t'.ancestor? k x = t.ancestor? k x :=
  ancestor?_congr (S := fun _ => True)
    (fun _ _ _ _ => trivial)
    (fun y _ => hSame.parentId? y) k trivial

/- A sibling with the key of the node is the node. -/
theorem eq_of_hasKey
    (hSame : Rekeyed t t' id key)
    (h : t.Sound)
    {p c : String}
    {k : Option Key}
    (hId : id ∈ t.childIds p)
    (hChild : c ∈ t.childIds p)
    (hKeyId : t'.hasKey k id = true)
    (hKeyC : t'.hasKey k c = true) : c = id := by
  refine Classical.byContradiction fun hNe => ?_
  rw [hSame.hasKey, if_pos rfl, beq_iff_eq] at hKeyId
  rw [hSame.hasKey, if_neg hNe, ← hKeyId] at hKeyC
  have hParent := (h.links p id).mp hId
  rcases hSame.free with hOld | ⟨hNone, -⟩ | ⟨q, hq, hFree⟩
  · exact hNe (h.keys p key c id hChild hId hKeyC hOld)
  · rw [hParent] at hNone
    cases hNone
  · rw [hParent] at hq
    cases hq
    rw [hFree c hChild hNe] at hKeyC
    cases hKeyC

end Rekeyed

/- Another key leaves a sound flow. -/
theorem Sound.of_rekeyed
    {id : String}
    {key : Option Key}
    (h : t.Sound)
    (hSame : Rekeyed t t' id key) : t'.Sound := by
  refine Sound.of_views ?_ ?_ ?_ ?_ ?_ ?_ ?_ hSame.settings
  · rw [hSame.rootId, hSame.hasKey]
    by_cases hRoot : t.rootId = id
    · rw [if_pos hRoot, beq_iff_eq]
      -- The root is not below anything, so it has no key.
      rcases hSame.free with hOld | ⟨-, hNone⟩ | ⟨p, hp, -⟩
      · rcases h.root with ⟨n, hNode, -, hKey⟩
        rw [← hRoot, hasKey, hNode] at hOld
        rw [← beq_iff_eq.mp hOld, hKey]
      · exact hNone
      · rw [← hRoot, h.parentId?_root] at hp
        cases hp
    · rw [if_neg hRoot]
      exact h.hasKey_root
  · rw [hSame.rootId, hSame.parentId?]
    exact h.parentId?_root
  · intro x hx hNotRoot
    rw [hSame.contains] at hx
    rw [hSame.rootId] at hNotRoot
    rw [hSame.parentId?]
    rcases h.exists_parentId? hx hNotRoot with ⟨p, hp⟩
    simp [hp]
  · intro p c
    rw [hSame.childIds, hSame.parentId?]
    exact h.links p c
  · intro p
    rw [hSame.childIds]
    exact h.once p
  · intro x hx
    rw [hSame.contains] at hx
    rcases h.climbs x hx with ⟨k, hk⟩
    refine ⟨k, ?_⟩
    rw [hSame.ancestor?_eq, hSame.rootId]
    exact hk
  · intro p k c₁ c₂ h₁ h₂ hKey₁ hKey₂
    rw [hSame.childIds] at h₁ h₂
    by_cases hId₁ : c₁ = id
    · subst hId₁
      exact (hSame.eq_of_hasKey h h₁ h₂ hKey₁ hKey₂).symm
    · by_cases hId₂ : c₂ = id
      · subst hId₂
        exact hSame.eq_of_hasKey h h₂ h₁ hKey₂ hKey₁
      · rw [hSame.hasKey, if_neg hId₁] at hKey₁
        rw [hSame.hasKey, if_neg hId₂] at hKey₂
        exact h.keys p k c₁ c₂ h₁ h₂ hKey₁ hKey₂

------------------------------------------------------------
-- Changing a Node
------------------------------------------------------------

/- The settings after a patch could be written. -/
theorem admits_patchedSettings
    {n : Node}
    {p : Patch}
    {settings : Settings}
    (hBefore : n.kind.Admits n.settings)
    (h : patchedSettings n p = .ok settings) :
    (p.kind.getD n.kind).Admits settings := by
  unfold patchedSettings at h
  have hChanged := mapError_eq_ok_iff.mp h
  refine StepKind.admits_changeAll ?_ hChanged
  by_cases hKind : p.kind.getD n.kind = n.kind
  · rw [if_pos hKind, hKind]
    exact hBefore
  · rw [if_neg hKind]
    exact (p.kind.getD n.kind).admits_initialSettings

/- A node with other settings and a free key is rekeyed. -/
private theorem rekeyed_of_changed
    {id : String}
    {n n' : Node}
    (h : t.Sound)
    (hRoot : t'.rootId = t.rootId)
    (hNodes : t'.nodes = t.nodes.insert id n')
    (hNode : t.get? id = some n)
    (hParent : n'.parent = n.parent)
    (hChildren : n'.children = n.children)
    (hSettings : n'.kind.Admits n'.settings)
    (hFree :
      n'.key = n.key ∨ (n.parent = none ∧ n'.key = none) ∨
        ∃ p, n.parent = some p ∧
          ∀ c ∈ t.childIds p, c ≠ id →
            t.hasKey n'.key c = false) :
    Rekeyed t t' id n'.key := by
  have hLookup : ∀ x, t'.get? x =
      if x = id then some n' else t.get? x := by
    intro x
    unfold get?
    rw [hNodes, NameMap.get?_insert]
  refine {
    rootId := hRoot
    contains := ?_
    parentId? := ?_
    childIds := ?_
    hasKey := ?_
    settings := ?_
    free := ?_ }
  · intro x
    rw [contains_eq_isSome, contains_eq_isSome, hLookup]
    by_cases hHere : x = id
    · simp [hHere, hNode]
    · rw [if_neg hHere]
  · intro x
    unfold parentId?
    rw [hLookup]
    by_cases hHere : x = id
    · simp [hHere, hNode, hParent]
    · rw [if_neg hHere]
  · intro x
    unfold childIds
    rw [hLookup]
    by_cases hHere : x = id
    · simp [hHere, hNode, hChildren]
    · rw [if_neg hHere]
  · intro k x
    unfold hasKey
    rw [hLookup]
    by_cases hHere : x = id
    · simp [hHere]
    · rw [if_neg hHere, if_neg hHere]
  · intro x m hx
    rw [hLookup] at hx
    by_cases hHere : x = id
    · rw [if_pos hHere] at hx
      cases hx
      exact hSettings
    · rw [if_neg hHere] at hx
      exact h.settings x m hx
  · rcases hFree with hOld | hRest
    · refine Or.inl ?_
      rw [hasKey, hNode, hOld]
      exact beq_self_eq_true n.key
    · refine Or.inr ?_
      rw [parentId?_of_get? hNode]
      exact hRest

/- An accepted change keeps the links. -/
theorem Sound.rekeyed_of_update
    {id : String}
    {p : Patch}
    (h : t.Sound)
    (hUpdate : t.update id p = .ok t') :
    ∃ key, Rekeyed t t' id key := by
  rcases update_eq_ok hUpdate with
    ⟨n, settings, key, hNode, hSettings, hKey, -, rfl⟩
  exact ⟨_,
    rekeyed_of_changed h rfl rfl hNode rfl rfl
      (admits_patchedSettings (h.settings id n hNode)
        hSettings)
      (patchedKey_eq_ok hKey)⟩

/- So it leaves a sound flow. -/
theorem Sound.update
    {id : String}
    {p : Patch}
    (h : t.Sound)
    (hUpdate : t.update id p = .ok t') : t'.Sound := by
  rcases h.rekeyed_of_update hUpdate with ⟨key, hSame⟩
  exact h.of_rekeyed hSame

end Flow

end CallFlow
