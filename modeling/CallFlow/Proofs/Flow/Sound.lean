import CallFlow.Proofs.Catalog.Settings
import CallFlow.Proofs.Flow.Ancestors
import CallFlow.Proofs.Flow.Reach

/-
  Sound flows: the links make one tree below the root, keys
  tell siblings apart, and every setting could be written.

  Where the links agree, the way down is the way up
  backwards, so the listings can be described by chains of
  parents.  The nodes whose chain of parents ends are then
  those that the root leads to.

  Main declarations:
    * `Flow.Linked`
    * `Flow.Linked.leads_iff`
    * `Flow.Linked.leads_root_iff`
    * `Flow.Sound`
    * `Flow.Sound.childByKey?_eq_some_iff`
    * `Flow.Sound.leads_iff`
    * `Flow.Sound.mem_descendants_iff`
    * `Flow.Sound.mem_preorder`
    * `Flow.Sound.not_own_ancestor`
    * `Flow.Sound.steps_lt_size`
    * `Flow.Sound.of_views`
-/

namespace CallFlow

namespace Flow

variable {t : Flow}

------------------------------------------------------------
-- Linked Flows
------------------------------------------------------------

/-
  A flow whose links agree.  The root is a node, and it is
  the only one without a parent.  The two sides of the links
  agree, with each child listed once.  Chains of parents can
  still run in circles.
-/
structure Linked (t : Flow) : Prop where
  root : t.contains t.rootId = true
  top : t.parentId? t.rootId = none
  only :
    ∀ id, t.contains id = true →
      t.parentId? id = none → id = t.rootId
  links :
    ∀ p c, c ∈ t.childIds p ↔ t.parentId? c = some p
  once : ∀ p, (t.childIds p).Nodup

namespace Linked

/- Parents are nodes. -/
theorem parents
    (h : t.Linked)
    {p c : String}
    (hParent : t.parentId? c = some p) :
    t.contains p = true := by
  rcases exists_of_mem_childIds ((h.links p c).mpr hParent)
    with ⟨n, hNode, -⟩
  exact (t.contains_iff p).mpr ⟨n, hNode⟩

/- What lies above a node is a node. -/
theorem contains_ancestor
    (h : t.Linked)
    {k : Nat}
    {id a : String}
    (hContains : t.contains id = true)
    (hk : t.ancestor? k id = some a) :
    t.contains a = true := by
  induction k generalizing id with
  | zero => exact Option.some.inj hk ▸ hContains
  | succ k ih =>
      rcases exists_parentId?_of_ancestor?_succ hk with
        ⟨p, hParent, hRest⟩
      exact ih (h.parents hParent) hRest

/- The way down is the way up backwards. -/
theorem leads_iff
    (h : t.Linked)
    (a x : String) :
    t.Leads a x ↔ ∃ k, t.ancestor? k x = some a := by
  constructor
  · intro hLeads
    induction hLeads with
    | refl => exact ⟨0, rfl⟩
    | tail _ hChild ih =>
        rcases ih with ⟨k, hk⟩
        refine ⟨k + 1, ?_⟩
        rw [ancestor?_succ ((h.links _ _).mp hChild)]
        exact hk
  · rintro ⟨k, hk⟩
    induction k generalizing x with
    | zero =>
        rw [Option.some.inj hk]
        exact Relation.ReflTransGen.refl
    | succ k ih =>
        rcases exists_parentId?_of_ancestor?_succ hk with
          ⟨p, hParent, hRest⟩
        exact (ih p hRest).tail ((h.links p x).mpr hParent)

/- The root leads to the nodes whose chain of parents ends. -/
theorem leads_root_iff
    (h : t.Linked)
    {id : String}
    (hContains : t.contains id = true) :
    t.Leads t.rootId id ↔
      ∃ k top, t.ancestor? k id = some top ∧
        t.parentId? top = none := by
  rw [h.leads_iff]
  constructor
  · rintro ⟨k, hk⟩
    exact ⟨k, t.rootId, hk, h.top⟩
  · -- The end is a node without a parent: the root.
    rintro ⟨k, top, hk, hTop⟩
    have hNode := h.contains_ancestor hContains hk
    exact ⟨k, h.only top hNode hTop ▸ hk⟩

end Linked

------------------------------------------------------------
-- Sound Flows
------------------------------------------------------------

/-
  A flow that is one tree.  The root is a node without
  parent and key, and is the only one without a parent.  The
  two sides of the links agree, with each child listed once
  and each parent a node.  Every chain of parents gets to
  the root.  No key, and no absence of one, belongs to two
  children of a node.  Every setting could be written.
-/
structure Sound (t : Flow) : Prop where
  root :
    ∃ n, t.get? t.rootId = some n ∧
      n.parent = none ∧ n.key = none
  parented :
    ∀ id n, t.get? id = some n → id ≠ t.rootId →
      n.parent ≠ none
  links :
    ∀ p c, c ∈ t.childIds p ↔ t.parentId? c = some p
  once : ∀ p, (t.childIds p).Nodup
  parents :
    ∀ p c, t.parentId? c = some p → t.contains p = true
  climbs :
    ∀ id, t.contains id = true →
      ∃ k, t.ancestor? k id = some t.rootId
  keys :
    ∀ p key c₁ c₂, c₁ ∈ t.childIds p → c₂ ∈ t.childIds p →
      t.hasKey key c₁ = true → t.hasKey key c₂ = true →
        c₁ = c₂
  settings :
    ∀ id n, t.get? id = some n → n.kind.Admits n.settings

/- A node that has a key, or has none, exists. -/
theorem contains_of_hasKey
    {key : Option Key}
    {id : String}
    (h : t.hasKey key id = true) : t.contains id = true := by
  unfold hasKey at h
  cases hNode : t.get? id with
  | none => simp [hNode] at h
  | some n => exact (t.contains_iff id).mpr ⟨n, hNode⟩

/- A child that a key selects has the key. -/
theorem of_childByKey?_eq_some
    {parent c : String}
    {key : Option Key}
    (h : t.childByKey? parent key = some c) :
    c ∈ t.childIds parent ∧ t.hasKey key c = true := by
  unfold childByKey? childByKeyExcept? at h
  have hHas := List.find?_some h
  rw [Bool.and_eq_true] at hHas
  exact ⟨List.mem_of_find?_eq_some h, hHas.2⟩

/- If a key selects no child, none has the key. -/
theorem hasKey_of_childByKey?_eq_none
    {parent c : String}
    {key : Option Key}
    (h : t.childByKey? parent key = none)
    (hChild : c ∈ t.childIds parent) :
    t.hasKey key c = false := by
  unfold childByKey? childByKeyExcept? at h
  simpa using List.find?_eq_none.mp h c hChild

namespace Sound

------------------------------------------------------------
-- The Root
------------------------------------------------------------

/- The root has no parent. -/
theorem parentId?_root
    (h : t.Sound) : t.parentId? t.rootId = none := by
  rcases h.root with ⟨n, hNode, hParent, -⟩
  rw [parentId?_of_get? hNode, hParent]

/- The root is a node. -/
theorem contains_root
    (h : t.Sound) : t.contains t.rootId = true := by
  rcases h.root with ⟨n, hNode, -⟩
  exact (t.contains_iff t.rootId).mpr ⟨n, hNode⟩

/- The root is nobody's child. -/
theorem root_not_mem_childIds
    (h : t.Sound)
    (p : String) : t.rootId ∉ t.childIds p := by
  rw [h.links, h.parentId?_root]
  simp

/- Every other node has a parent. -/
theorem exists_parentId?
    (h : t.Sound)
    {id : String}
    (hContains : t.contains id = true)
    (hNotRoot : id ≠ t.rootId) :
    ∃ p, t.parentId? id = some p := by
  rcases (t.contains_iff id).mp hContains with ⟨n, hNode⟩
  cases hParent : n.parent with
  | none =>
      exact absurd hParent (h.parented id n hNode hNotRoot)
  | some p =>
      refine ⟨p, ?_⟩
      rw [parentId?_of_get? hNode, hParent]

/- Children are nodes. -/
theorem contains_of_mem_childIds
    (h : t.Sound)
    {p c : String}
    (hChild : c ∈ t.childIds p) : t.contains c = true :=
  contains_of_parentId? ((h.links p c).mp hChild)

/- A key selects the child that has it. -/
theorem childByKey?_eq_some_iff
    (h : t.Sound)
    {p c : String}
    {key : Option Key} :
    t.childByKey? p key = some c ↔
      c ∈ t.childIds p ∧ t.hasKey key c = true := by
  constructor
  · exact of_childByKey?_eq_some
  · rintro ⟨hChild, hKey⟩
    cases hSelects : t.childByKey? p key with
    | none =>
        rw [hasKey_of_childByKey?_eq_none hSelects hChild]
          at hKey
        cases hKey
    | some d =>
        rcases of_childByKey?_eq_some hSelects with
          ⟨hListed, hHas⟩
        rw [h.keys p key d c hListed hChild hHas hKey]

/- The links of a sound flow agree. -/
theorem linked
    (h : t.Sound) : t.Linked where
  root := h.contains_root
  top := h.parentId?_root
  only := by
    intro id hContains hNoParent
    by_contra hNotRoot
    rcases h.exists_parentId? hContains hNotRoot with
      ⟨p, hParent⟩
    rw [hNoParent] at hParent
    cases hParent
  links := h.links
  once := h.once

/- What lies above a node is a node. -/
theorem contains_ancestor
    (h : t.Sound)
    {k : Nat}
    {id a : String}
    (hContains : t.contains id = true)
    (hk : t.ancestor? k id = some a) :
    t.contains a = true :=
  h.linked.contains_ancestor hContains hk

/- The root has no key. -/
theorem hasKey_root
    (h : t.Sound) : t.hasKey none t.rootId = true := by
  rcases h.root with ⟨n, hNode, -, hKey⟩
  simp [hasKey, hNode, hKey]

------------------------------------------------------------
-- Depth
------------------------------------------------------------

/- A node is never some steps above itself. -/
theorem not_own_ancestor
    (h : t.Sound)
    {id : String}
    {j : Nat}
    (hContains : t.contains id = true) :
    t.ancestor? (j + 1) id ≠ some id := by
  rcases h.climbs id hContains with ⟨k, hk⟩
  intro hBack
  have hZero :=
    eq_zero_of_ancestor?_self h.parentId?_root hk hBack
  omega

/- Nodes lie fewer steps below the root than there are nodes. -/
theorem steps_lt_size
    (h : t.Sound)
    {id : String}
    {k : Nat}
    (hk : t.ancestor? k id = some t.rootId) : k < t.size :=
  Flow.steps_lt_size h.parentId?_root h.contains_root hk

------------------------------------------------------------
-- Listings
------------------------------------------------------------

/- The way down is the way up backwards. -/
theorem leads_iff
    (h : t.Sound)
    (a x : String) :
    t.Leads a x ↔ ∃ k, t.ancestor? k x = some a :=
  h.linked.leads_iff a x

/- The descendants of a node are the nodes it is above of. -/
theorem mem_descendants_iff
    (h : t.Sound)
    (id x : String) :
    x ∈ t.descendants id ↔
      ∃ k, t.ancestor? (k + 1) x = some id := by
  rw [Flow.mem_descendants_iff]
  constructor
  · rintro ⟨c, hChild, hLeads⟩
    rcases (h.leads_iff c x).mp hLeads with ⟨k, hk⟩
    refine ⟨k, ancestor?_trans hk ?_⟩
    rw [ancestor?_succ ((h.links id c).mp hChild)]
    rfl
  · rintro ⟨k, hk⟩
    rw [ancestor?_add] at hk
    rcases Option.bind_eq_some_iff.mp hk with
      ⟨c, hBelow, hLast⟩
    rcases exists_parentId?_of_ancestor?_succ hLast with
      ⟨p, hParent, hSame⟩
    have hId : p = id := Option.some.inj hSame
    subst hId
    exact
      ⟨c, (h.links p c).mpr hParent,
        (h.leads_iff c x).mpr ⟨k, hBelow⟩⟩

/- The pre-order lists every node. -/
theorem mem_preorder
    (h : t.Sound)
    {id : String}
    (hContains : t.contains id = true) : id ∈ t.preorder :=
  (t.mem_preorder_iff id).mpr
    ⟨(h.leads_iff t.rootId id).mpr (h.climbs id hContains),
      hContains⟩

------------------------------------------------------------
-- Views
------------------------------------------------------------

/- A flow is sound if its views are those of a tree. -/
theorem of_views
    (hRootKey : t.hasKey none t.rootId = true)
    (hRootParent : t.parentId? t.rootId = none)
    (hParented :
      ∀ id, t.contains id = true → id ≠ t.rootId →
        t.parentId? id ≠ none)
    (hLinks :
      ∀ p c, c ∈ t.childIds p ↔ t.parentId? c = some p)
    (hOnce : ∀ p, (t.childIds p).Nodup)
    (hClimbs :
      ∀ id, t.contains id = true →
        ∃ k, t.ancestor? k id = some t.rootId)
    (hKeys :
      ∀ p key c₁ c₂,
        c₁ ∈ t.childIds p → c₂ ∈ t.childIds p →
          t.hasKey key c₁ = true → t.hasKey key c₂ = true →
            c₁ = c₂)
    (hSettings :
      ∀ id n, t.get? id = some n →
        n.kind.Admits n.settings) : t.Sound := by
  refine {
    root := ?_
    parented := ?_
    links := hLinks
    once := hOnce
    parents := ?_
    climbs := hClimbs
    keys := hKeys
    settings := hSettings }
  · rcases (t.contains_iff _).mp
      (contains_of_hasKey hRootKey) with ⟨n, hNode⟩
    refine ⟨n, hNode, ?_, ?_⟩
    · rw [← parentId?_of_get? hNode]
      exact hRootParent
    · simpa [hasKey, hNode] using hRootKey
  · intro id n hNode hNotRoot hParent
    apply hParented id
      ((t.contains_iff id).mpr ⟨n, hNode⟩) hNotRoot
    rw [parentId?_of_get? hNode, hParent]
  · intro p c hParent
    have hListed := (hLinks p c).mpr hParent
    rcases exists_of_mem_childIds hListed with ⟨n, hNode, -⟩
    exact (t.contains_iff p).mpr ⟨n, hNode⟩

end Sound

end Flow

end CallFlow
