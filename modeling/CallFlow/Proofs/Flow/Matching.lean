import CallFlow.Proofs.Flow.Sound
import Mathlib.Data.List.Nodup
import Mathlib.Data.Set.Function

/-
  Flows that match: the same tree under other ids.

  A renaming of the ids matches two flows of one name if it
  keeps the root and the parents, and if a node and its image
  have the same kind, settings and key.  Labels, the order of
  children, and the counters of ids and of edits are free.  If
  both flows are sound then the children of an image are the
  images of the children, so every view that knows no order
  is carried along.

  Main declarations:
    * `Node.Matches`
    * `Flow.Matches`
    * `Flow.Matches.mem_childIds_iff`
    * `Flow.Matches.childByKey?_eq`
    * `Flow.Matches.ancestor?_eq`
-/

namespace CallFlow

/-
  A node and its image: all is equal that decides what a call
  meets there, and the parent is renamed.
-/
structure Node.Matches
    (rename : String → String)
    (n n' : Node) : Prop where
  kind : n'.kind = n.kind
  settings : n'.settings = n.settings
  key : n'.key = n.key
  parent : n'.parent = n.parent.map rename

instance
    (rename : String → String)
    (n n' : Node) : Decidable (n.Matches rename n') :=
  decidable_of_iff
    (n'.kind = n.kind ∧ n'.settings = n.settings ∧
      n'.key = n.key ∧ n'.parent = n.parent.map rename)
    ⟨fun ⟨hKind, hSettings, hKey, hParent⟩ =>
        ⟨hKind, hSettings, hKey, hParent⟩,
      fun h => ⟨h.kind, h.settings, h.key, h.parent⟩⟩

namespace Flow

/-
  Two flows of one name, whose ids correspond one to one, so
  that the roots do and every node matches its image.
-/
structure Matches
    (t t' : Flow)
    (rename : String → String) : Prop where
  name : t'.name = t.name
  root : t'.rootId = rename t.rootId
  ids :
    Set.BijOn rename {id | t.contains id = true}
      {id | t'.contains id = true}
  nodes :
    ∀ id n n', t.get? id = some n →
      t'.get? (rename id) = some n' → n.Matches rename n'

variable {t t' : Flow}

/- Whether flows match can be seen from their entries. -/
theorem matches_of_entries
    {rename : String → String}
    (hName : t'.name = t.name)
    (hRoot : t'.rootId = rename t.rootId)
    (hIds : (t.nodes.names.map rename).Perm t'.nodes.names)
    (hNodes :
      ∀ e ∈ t.nodes.entries, ∀ e' ∈ t'.nodes.entries,
        e'.1 = rename e.1 → e.2.Matches rename e'.2) :
    t.Matches t' rename := by
  have hListed (id : String) :
      t.contains id = true ↔ id ∈ t.nodes.names :=
    (t.nodes.mem_names_iff id).symm
  have hListed' (id : String) :
      t'.contains id = true ↔
        ∃ x ∈ t.nodes.names, rename x = id := by
    rw [← List.mem_map, hIds.mem_iff]
    exact (t'.nodes.mem_names_iff id).symm
  refine ⟨hName, hRoot, ⟨?_, ?_, ?_⟩, ?_⟩
  · intro id hId
    exact (hListed' _).mpr ⟨id, (hListed id).mp hId, rfl⟩
  · intro id hId x hx hSame
    have hDistinct := hIds.nodup_iff.mpr t'.nodes.nodup_names
    exact List.inj_on_of_nodup_map hDistinct
      ((hListed id).mp hId) ((hListed x).mp hx) hSame
  · intro id' hId'
    rcases (hListed' id').mp hId' with ⟨id, hId, hSame⟩
    exact ⟨id, (hListed id).mpr hId, hSame⟩
  · intro id n n' hNode hNode'
    exact hNodes (id, n)
      ((t.nodes.mem_entries_iff id n).mpr hNode)
      (rename id, n')
      ((t'.nodes.mem_entries_iff _ n').mpr hNode') rfl

namespace Matches

variable {rename : String → String}
variable {id p c c' : String}

------------------------------------------------------------
-- Nodes and Parents
------------------------------------------------------------

/- The image of a node is a node that it matches. -/
theorem exists_node
    (h : t.Matches t' rename)
    {n : Node}
    (hNode : t.get? id = some n) :
    ∃ n', t'.get? (rename id) = some n' ∧
      n.Matches rename n' := by
  have hImage : t'.contains (rename id) = true :=
    h.ids.mapsTo ((t.contains_iff id).mpr ⟨n, hNode⟩)
  rcases (t'.contains_iff _).mp hImage with ⟨n', hNode'⟩
  exact ⟨n', hNode', h.nodes id n n' hNode hNode'⟩

/- Every node is the image of a node. -/
theorem exists_id
    (h : t.Matches t' rename)
    (hContains : t'.contains c' = true) :
    ∃ c, t.contains c = true ∧ rename c = c' :=
  h.ids.surjOn hContains

/- The parent of an image is the image of the parent. -/
theorem parentId?_eq
    (h : t.Matches t' rename)
    (hContains : t.contains id = true) :
    t'.parentId? (rename id) = (t.parentId? id).map rename := by
  rcases (t.contains_iff id).mp hContains with ⟨n, hNode⟩
  rcases h.exists_node hNode with ⟨n', hNode', hMatches⟩
  rw [parentId?_of_get? hNode', parentId?_of_get? hNode,
    hMatches.parent]

/- So it is for every number of steps up. -/
theorem ancestor?_eq
    (h : t.Matches t' rename)
    (hSound : t.Sound)
    (hContains : t.contains id = true)
    (k : Nat) :
    t'.ancestor? k (rename id) =
      (t.ancestor? k id).map rename := by
  induction k generalizing id with
  | zero => rfl
  | succ k ih =>
      unfold ancestor?
      rw [h.parentId?_eq hContains]
      cases hParent : t.parentId? id with
      | none => rfl
      | some p =>
          exact ih (hSound.parents p id hParent)

/- An image has the key of the node. -/
theorem hasKey_eq
    (h : t.Matches t' rename)
    (hContains : t.contains id = true)
    (key : Option Key) :
    t'.hasKey key (rename id) = t.hasKey key id := by
  rcases (t.contains_iff id).mp hContains with ⟨n, hNode⟩
  rcases h.exists_node hNode with ⟨n', hNode', hMatches⟩
  unfold hasKey
  simp only [hNode, hNode', hMatches.key]

------------------------------------------------------------
-- Children
------------------------------------------------------------

/- The children of an image are the images of the children. -/
theorem mem_childIds_iff
    (h : t.Matches t' rename)
    (hSound : t.Sound)
    (hSound' : t'.Sound)
    (hContains : t.contains p = true) :
    c' ∈ t'.childIds (rename p) ↔
      ∃ c ∈ t.childIds p, rename c = c' := by
  constructor
  · intro hChild'
    rcases h.exists_id
      (hSound'.contains_of_mem_childIds hChild') with
      ⟨c, hChild, rfl⟩
    refine ⟨c, (hSound.links p c).mpr ?_, rfl⟩
    have hParent' := (hSound'.links _ _).mp hChild'
    rw [h.parentId?_eq hChild] at hParent'
    rcases Option.map_eq_some_iff.mp hParent' with
      ⟨q, hParent, hSame⟩
    -- Nodes with one image are the same.
    rw [hParent, h.ids.injOn (hSound.parents q c hParent)
      hContains hSame]
  · rintro ⟨c, hChild, rfl⟩
    refine (hSound'.links _ _).mpr ?_
    rw [h.parentId?_eq (hSound.contains_of_mem_childIds hChild),
      (hSound.links p c).mp hChild]
    rfl

/- An image has children exactly if the node has. -/
theorem childIds_eq_nil_iff
    (h : t.Matches t' rename)
    (hSound : t.Sound)
    (hSound' : t'.Sound)
    (hContains : t.contains p = true) :
    t'.childIds (rename p) = [] ↔ t.childIds p = [] := by
  simp only [List.eq_nil_iff_forall_not_mem,
    h.mem_childIds_iff hSound hSound' hContains, not_exists,
    not_and]
  constructor
  · intro hNone c hChild
    exact hNone (rename c) c hChild rfl
  · intro hNone c' c hChild _
    exact hNone c hChild

/- A key selects the image of the child that it selects. -/
theorem childByKey?_eq
    (h : t.Matches t' rename)
    (hSound : t.Sound)
    (hSound' : t'.Sound)
    (hContains : t.contains p = true)
    (key : Option Key) :
    t'.childByKey? (rename p) key =
      (t.childByKey? p key).map rename := by
  ext c'
  rw [hSound'.childByKey?_eq_some_iff,
    h.mem_childIds_iff hSound hSound' hContains,
    Option.map_eq_some_iff]
  simp only [hSound.childByKey?_eq_some_iff]
  constructor
  · rintro ⟨⟨c, hChild, rfl⟩, hKey⟩
    rw [h.hasKey_eq
      (hSound.contains_of_mem_childIds hChild)] at hKey
    exact ⟨c, ⟨hChild, hKey⟩, rfl⟩
  · rintro ⟨c, ⟨hChild, hKey⟩, rfl⟩
    refine ⟨⟨c, hChild, rfl⟩, ?_⟩
    rwa [h.hasKey_eq
      (hSound.contains_of_mem_childIds hChild)]

end Matches

end Flow

end CallFlow
