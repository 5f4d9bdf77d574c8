import CallFlow.Proofs.Flow.HandedOut
import CallFlow.Proofs.Flow.Subtrees
import CallFlow.Proofs.Flow.Versions

/-
  A node that was added, with all that has grown below it
  since, is taken out again by one deletion.

  Edits inside the subtree of a node leave every node outside
  as it is.  The subtree takes in the nodes they add, and
  loses none.  So when its top was a new child, deleting the
  top leaves what was there before the top was added.

  Main declarations:
    * `Edit.Inside`
    * `Flow.Session`
    * `Flow.Tended`
    * `Flow.Hung.mem_subtree_iff`
    * `Flow.Sound.tended_of_apply`
    * `Flow.Sound.tended_of_session`
    * `Flow.growth_undone`
-/

namespace CallFlow

/-
  An edit inside the subtree of a node.  It adds below the
  node, changes what is in the subtree, or moves what is below
  the node to another place in the subtree.
-/
def Edit.Inside
    (t : Flow)
    (top : String) : Edit → Prop
  | .add parent _ _ _ => parent ∈ t.subtree top
  | .update id _ => id ∈ t.subtree top
  | .move id newParent =>
      id ∈ t.descendants top ∧ newParent ∈ t.subtree top
  | .delete _ => False

instance
    (t : Flow)
    (top : String) :
    (e : Edit) → Decidable (e.Inside t top)
  | .add parent _ _ _ =>
      inferInstanceAs (Decidable (parent ∈ t.subtree top))
  | .update id _ =>
      inferInstanceAs (Decidable (id ∈ t.subtree top))
  | .move id newParent =>
      inferInstanceAs
        (Decidable
          (id ∈ t.descendants top ∧
            newParent ∈ t.subtree top))
  | .delete _ => inferInstanceAs (Decidable False)

namespace Flow

/-
  Edits that are accepted one after the other, all of them
  inside the subtree of a node.
-/
def Session
    (top : String)
    (t : Flow) : List Edit → Prop
  | [] => True
  | e :: rest =>
      e.Inside t top ∧ (t.apply e).isOk = true ∧
        Session top (t.after (.apply e)) rest

instance decidableSession
    (top : String)
    (t : Flow) :
    (edits : List Edit) → Decidable (Session top t edits)
  | [] => inferInstanceAs (Decidable True)
  | e :: rest =>
      have := decidableSession top (t.after (.apply e)) rest
      inferInstanceAs (Decidable (_ ∧ _ ∧ _))

variable {t t' t'' : Flow}
variable {top : String}
variable {added added' : List String}

------------------------------------------------------------
-- Adding
------------------------------------------------------------

section Add

variable {parent label id : String}
variable {kind : StepKind}
variable {key : Option Key}

/- The id of an added node is not in use. -/
theorem not_contains_of_add
    (hAdd : t.add parent kind label key = .ok (t', id)) :
    t.contains id = false := by
  rcases add_eq_ok hAdd with ⟨p, next, -, -, hFresh, -⟩
  exact not_contains_of_freshIdFrom? hFresh

/-
  The nodes after an addition.  The new one has no children,
  its parent lists it last, and all else is as it was.
-/
theorem get?_of_add
    (hAdd : t.add parent kind label key = .ok (t', id))
    (x : String) :
    t'.get? x =
      if x = id then
        some (.fresh kind label key (some parent))
      else
        (t.get? x).map fun n =>
          { n with
            children :=
              n.children ++
                if x = parent then [id] else [] } := by
  have hNew := not_contains_of_add hAdd
  rcases add_eq_ok hAdd with
    ⟨p, next, hParent, -, -, -, rfl⟩
  refine get?_added rfl ?_ x
  rintro rfl
  rw [(t.contains_iff _).mpr ⟨p, hParent⟩] at hNew
  cases hNew

end Add

------------------------------------------------------------
-- Members of a Subtree
------------------------------------------------------------

/-
  A node that is hung inside a subtree is in it from then on.
  It may be new, or from the subtree itself.
-/
theorem Hung.mem_subtree_iff
    {parent id : String}
    {key : Option Key}
    (hHung : Hung t t' parent id key)
    (h : t.Sound)
    (hTop : t.contains top = true)
    (hParent : parent ∈ t.subtree top)
    (hFrom : t.contains id = true → id ∈ t.subtree top)
    (x : String) :
    x ∈ t'.subtree top ↔ x ∈ t.subtree top ∨ x = id := by
  have h' := h.of_hung hHung
  have hTop' : t'.contains top = true :=
    (hHung.contains top).mpr (Or.inr hTop)
  have hMember :
      t'.contains x = true →
        (x ∈ t'.subtree top ↔
          x ∈ t.subtree top ∨ x = id) := by
    refine h'.mem_subtree_iff_of_parent
      (P := fun y => y ∈ t.subtree top ∨ y = id) ?_
    intro y _
    rw [hHung.parentId?]
    by_cases hHere : y = id
    · simp [hHere, hParent]
    · rw [if_neg hHere, h.mem_subtree_iff_parent]
      simp only [hHere, or_false]
      refine or_congr_right <| exists_congr fun p =>
        and_congr_right fun hp => ?_
      -- What has a parent that is hung had it before.
      have hKept : p = id → p ∈ t.subtree top := by
        rintro rfl
        exact hFrom (h.parents _ _ hp)
      exact (or_iff_left_of_imp hKept).symm
  constructor
  · intro hx
    exact (hMember
      (h'.contains_of_mem_subtree hTop' hx)).mp hx
  · intro hx
    refine (hMember ((hHung.contains x).mpr ?_)).mpr hx
    rcases hx with hIn | hHere
    · exact Or.inr (h.contains_of_mem_subtree hTop hIn)
    · exact Or.inl hHere

------------------------------------------------------------
-- Changes Inside a Subtree
------------------------------------------------------------

/-
  A flow that differs from another inside the subtree of a
  node only.  Nodes may have been added there.
-/
structure Tended
    (top : String)
    (t t' : Flow)
    (added : List String) : Prop where
  name : t'.name = t.name
  rootId : t'.rootId = t.rootId
  contains : ∀ x, t.contains x = true → t'.contains x = true
  fresh : ∀ x ∈ added, t.contains x = false
  members :
    ∀ x, x ∈ t'.subtree top ↔ x ∈ t.subtree top ∨ x ∈ added
  parentId? : t'.parentId? top = t.parentId? top
  outside : ∀ x, x ∉ t'.subtree top → t'.get? x = t.get? x

/- Nothing is changed where nothing is done. -/
theorem Tended.refl
    (top : String)
    (t : Flow) : Tended top t t [] where
  name := rfl
  rootId := rfl
  contains := fun _ hx => hx
  fresh := nofun
  members := by simp
  parentId? := rfl
  outside := fun _ _ => rfl

/- Changes inside a subtree can be made in turn. -/
theorem Tended.trans
    (hFirst : Tended top t t' added)
    (hRest : Tended top t' t'' added') :
    Tended top t t'' (added ++ added') where
  name := hRest.name.trans hFirst.name
  rootId := hRest.rootId.trans hFirst.rootId
  contains := fun x hx =>
    hRest.contains x (hFirst.contains x hx)
  fresh := by
    intro x hx
    rcases List.mem_append.mp hx with hEarly | hLate
    · exact hFirst.fresh x hEarly
    · have hNew := hRest.fresh x hLate
      rw [Bool.eq_false_iff] at hNew ⊢
      exact mt (hFirst.contains x) hNew
  members := by
    intro x
    rw [hRest.members, hFirst.members, List.mem_append,
      or_assoc]
  parentId? := hRest.parentId?.trans hFirst.parentId?
  outside := by
    intro x hx
    have hOutside : x ∉ t'.subtree top := fun hIn =>
      hx ((hRest.members x).mpr (Or.inl hIn))
    exact (hRest.outside x hx).trans
      (hFirst.outside x hOutside)

/- Adding a node below the top, or below what is there. -/
theorem Sound.tended_of_add
    {parent label id : String}
    {kind : StepKind}
    {key : Option Key}
    (h : t.Sound)
    (hTop : t.contains top = true)
    (hAdd : t.add parent kind label key = .ok (t', id))
    (hParent : parent ∈ t.subtree top) :
    Tended top t t' [id] := by
  have hHung := h.hung_of_add hAdd
  have hNew := not_contains_of_add hAdd
  have hNeTop : top ≠ id := by
    rintro rfl
    rw [hTop] at hNew
    cases hNew
  have hMembers :=
    hHung.mem_subtree_iff h hTop hParent fun hOld => by
      rw [hNew] at hOld
      cases hOld
  refine {
    name := ?_
    rootId := hHung.rootId
    contains := fun x hx => (hHung.contains x).mpr (Or.inr hx)
    fresh := by simpa using hNew
    members := by simpa using hMembers
    parentId? := ?_
    outside := ?_ }
  · rcases add_eq_ok hAdd with ⟨p, next, -, -, -, -, rfl⟩
    rfl
  · rw [hHung.parentId?, if_neg hNeTop]
  · intro x hx
    rw [hMembers] at hx
    rcases not_or.mp hx with ⟨hOutside, hNe⟩
    have hNotParent : x ≠ parent := fun hSame =>
      hOutside (hSame ▸ hParent)
    rw [get?_of_add hAdd, if_neg hNe]
    simp [hNotParent]

/- Changing a node of the subtree. -/
theorem Sound.tended_of_update
    {id : String}
    {patch : Patch}
    (h : t.Sound)
    (hUpdate : t.update id patch = .ok t')
    (hId : id ∈ t.subtree top) : Tended top t t' [] := by
  rcases h.rekeyed_of_update hUpdate with ⟨key, hSame⟩
  have hSubtree : t'.subtree top = t.subtree top :=
    h.subtree_congr (h.of_rekeyed hSame)
      h.childIds_subset_subtree
      (fun x _ => hSame.childIds x) List.mem_cons_self
  rcases update_eq_ok hUpdate with
    ⟨n, settings, key, -, -, -, -, rfl⟩
  refine {
    name := rfl
    rootId := rfl
    contains := fun x hx => (hSame.contains x).trans hx
    fresh := nofun
    members := by simp [hSubtree]
    parentId? := hSame.parentId? top
    outside := ?_ }
  intro x hx
  have hNe : x ≠ id := by
    rintro rfl
    exact hx (hSubtree ▸ hId)
  unfold get?
  rw [NameMap.get?_insert, if_neg hNe]

/- Moving a node of the subtree to another place in it. -/
theorem Sound.tended_of_move
    {id newParent : String}
    (h : t.Sound)
    (hTop : t.contains top = true)
    (hMove : t.move id newParent = .ok t')
    (hId : id ∈ t.descendants top)
    (hParent : newParent ∈ t.subtree top) :
    Tended top t t' [] := by
  by_cases hStays : t.parentId? id = some newParent
  · rw [eq_of_move_stays hMove hStays]
    exact .refl top t
  · rcases h.hung_of_move hMove hStays with ⟨key, hHung⟩
    rcases fields_of_move hMove with ⟨hName, hRootId, -⟩
    have hIn : id ∈ t.subtree top :=
      List.mem_cons_of_mem _ hId
    have hNeTop : id ≠ top := by
      rintro rfl
      exact h.not_mem_descendants hTop hId
    have hMembers : ∀ x,
        x ∈ t'.subtree top ↔ x ∈ t.subtree top := by
      intro x
      rw [hHung.mem_subtree_iff h hTop hParent fun _ => hIn]
      exact or_iff_left_of_imp fun hHere => hHere ▸ hIn
    refine {
      name := hName
      rootId := hRootId
      contains := fun x hx =>
        (hHung.contains x).mpr (Or.inr hx)
      fresh := nofun
      members := by simpa using hMembers
      parentId? := ?_
      outside := ?_ }
    · rw [hHung.parentId?, if_neg hNeTop.symm]
    · intro x hx
      rw [hMembers] at hx
      have hNe : x ≠ id := fun hSame => hx (hSame ▸ hIn)
      have hNotParent : x ≠ newParent := fun hSame =>
        hx (hSame ▸ hParent)
      -- The parent that it leaves is in the subtree too.
      have hNotLeft : t.parentId? id ≠ some x := by
        intro hLeft
        rcases h.mem_subtree_iff_parent.mp hIn with
          hSame | ⟨p, hp, hInside⟩
        · exact hNeTop hSame
        · rw [hLeft] at hp
          cases hp
          exact hx hInside
      rw [get?_of_move hMove hStays]
      simp [hNe, hNotParent, hNotLeft]

/- Every accepted edit inside the subtree. -/
theorem Sound.tended_of_apply
    {e : Edit}
    {made : Option String}
    (h : t.Sound)
    (hTop : t.contains top = true)
    (hInside : e.Inside t top)
    (hApply : t.apply e = .ok (t', made)) :
    Tended top t t' made.toList := by
  cases e with
  | add parent kind label key =>
      rcases bind_eq_ok_iff.mp hApply with
        ⟨⟨t₁, id⟩, hAdd, hDone⟩
      cases hDone
      exact h.tended_of_add hTop hAdd hInside
  | update id patch =>
      rcases bind_eq_ok_iff.mp hApply with
        ⟨t₁, hUpdate, hDone⟩
      cases hDone
      exact h.tended_of_update hUpdate hInside
  | move id newParent =>
      rcases bind_eq_ok_iff.mp hApply with
        ⟨t₁, hMove, hDone⟩
      cases hDone
      exact h.tended_of_move hTop hMove hInside.1 hInside.2
  | delete id => exact hInside.elim

/- So a session adds to the subtree what it hands out. -/
theorem Sound.tended_of_session
    {edits : List Edit}
    (h : t.Sound)
    (hTop : t.contains top = true)
    (hSession : Session top t edits) :
    Tended top t (t.run (edits.map .apply))
      (t.handedOut (edits.map .apply)) := by
  induction edits generalizing t with
  | nil => exact .refl top t
  | cons e rest ih =>
      rcases hSession with ⟨hInside, hOk, hRest⟩
      rcases hApply : t.apply e with err | ⟨t', made⟩
      · rw [hApply] at hOk
        cases hOk
      · have hStep := h.tended_of_apply hTop hInside hApply
        have hAfter : t.after (.apply e) = t' := by
          show t.kept ((t.apply e).map Prod.fst) = t'
          rw [hApply]
          rfl
        have hGiven : t.given (.apply e) = made := by
          show made? (t.apply e) = made
          rw [hApply]
          rfl
        rw [hAfter] at hRest
        have hLater :=
          ih (h.apply hApply) (hStep.contains top hTop) hRest
        rw [← hAfter, ← hGiven] at hStep
        rw [← hAfter] at hLater
        exact hStep.trans hLater

------------------------------------------------------------
-- Growing and Deleting
------------------------------------------------------------

section Growth

variable {t₀ t₁ : Flow}
variable {parent label : String}
variable {kind : StepKind}
variable {key : Option Key}

/- A node that was just added has nothing below it. -/
theorem Sound.subtree_of_add
    (h : t.Sound)
    (hAdd : t.add parent kind label key = .ok (t₀, top)) :
    t₀.subtree top = [top] := by
  have hLeaf : t₀.childIds top = [] := by
    unfold childIds
    rw [get?_of_add hAdd, if_pos rfl]
    rfl
  rw [(h.add hAdd).subtree_eq top, hLeaf]
  rfl

/- The top stays where it was added. -/
theorem Sound.parentId?_grown
    (h : t.Sound)
    (hAdd : t.add parent kind label key = .ok (t₀, top))
    (hTended : Tended top t₀ t₁ added) :
    t₁.parentId? top = some parent := by
  rw [hTended.parentId?, (h.hung_of_add hAdd).parentId?,
    if_pos rfl]

/- What has grown was not there before. -/
theorem Sound.get?_eq_none_of_grown
    (h : t.Sound)
    (hAdd : t.add parent kind label key = .ok (t₀, top))
    (hTended : Tended top t₀ t₁ added)
    {x : String}
    (hx : x ∈ t₁.subtree top) : t.get? x = none := by
  have hNew : t.contains x = false := by
    rw [hTended.members, h.subtree_of_add hAdd,
      List.mem_singleton] at hx
    rcases hx with rfl | hAdded
    · exact not_contains_of_add hAdd
    · have hFresh := hTended.fresh x hAdded
      rw [Bool.eq_false_iff] at hFresh ⊢
      exact mt
        (fun hOld =>
          ((h.hung_of_add hAdd).contains x).mpr (Or.inr hOld))
        hFresh
  simpa [contains_eq_isSome] using hNew

/-
  Without what has grown, and without its top among the
  children of a node, the nodes are those from before.
-/
theorem Sound.nodes_of_delete_grown
    {removed : List String}
    (h : t.Sound)
    (hAdd : t.add parent kind label key = .ok (t₀, top))
    (hTended : Tended top t₀ t₁ added)
    (hDelete : t₁.delete top = .ok (t', removed)) :
    t'.nodes = t.nodes := by
  have hParent := h.parentId?_grown hAdd hTended
  have hNodes := get?_of_delete hDelete
  have hRemoved : removed = t₁.subtree top := by
    rcases delete_eq_ok hDelete with ⟨n, -, -, hRun, -⟩
    exact hRun
  subst hRemoved
  refine NameMap.ext_get? fun x => ?_
  show t'.get? x = t.get? x
  rw [hNodes, hParent]
  by_cases hIn : x ∈ t₁.subtree top
  · rw [if_pos hIn, h.get?_eq_none_of_grown hAdd hTended hIn]
  · have hNe : x ≠ top := by
      rintro rfl
      exact hIn List.mem_cons_self
    rw [if_neg hIn, hTended.outside x hIn,
      get?_of_add hAdd, if_neg hNe]
    cases hNode : t.get? x with
    | none => rfl
    | some n =>
        -- The top was no child of anything before.
        have hKept : n.children.filter (· != top) =
            n.children := by
          rw [List.filter_eq_self]
          intro c hChild
          rw [← childIds_of_get? hNode] at hChild
          have hOld := h.contains_of_mem_childIds hChild
          have hNeTop : c ≠ top := by
            rintro rfl
            rw [not_contains_of_add hAdd] at hOld
            cases hOld
          simpa using hNeTop
        by_cases hHere : x = parent
        · simp [hHere, hKept]
        · simp [hHere, Ne.symm hHere]

/- So is all of the flow but its counters. -/
theorem Sound.eq_of_delete_grown
    {removed : List String}
    (h : t.Sound)
    (hAdd : t.add parent kind label key = .ok (t₀, top))
    (hTended : Tended top t₀ t₁ added)
    (hDelete : t₁.delete top = .ok (t', removed)) :
    t' =
      { t with
        nextId := t'.nextId
        version := t'.version } := by
  have hNodes := h.nodes_of_delete_grown hAdd hTended hDelete
  have hRootId := (h.hung_of_add hAdd).rootId
  have hName : t₀.name = t.name := by
    rcases add_eq_ok hAdd with ⟨p, next, -, -, -, -, rfl⟩
    rfl
  have hLeft : t'.name = t₁.name ∧ t'.rootId = t₁.rootId := by
    rcases delete_eq_ok hDelete with ⟨n, -, -, -, -, rfl⟩
    exact ⟨rfl, rfl⟩
  rw [hTended.name, hTended.rootId, hName, hRootId] at hLeft
  cases t'
  simp_all

/-
  The top can be deleted, as it has a parent, as long as there
  is a next version.
-/
theorem Sound.exists_delete_grown
    (h : t.Sound)
    (h₁ : t₁.Sound)
    (hNext : t₁.HasNext)
    (hAdd : t.add parent kind label key = .ok (t₀, top))
    (hTended : Tended top t₀ t₁ added) :
    ∃ t', t₁.delete top = .ok (t', t₁.subtree top) := by
  have hParent := h.parentId?_grown hAdd hTended
  refine
    exists_delete hNext (contains_of_parentId? hParent) ?_
  rintro rfl
  rw [h₁.parentId?_root] at hParent
  cases hParent

/- What is removed is what was added. -/
theorem Sound.subtree_perm_grown
    (h : t.Sound)
    (h₁ : t₁.Sound)
    (hAdd : t.add parent kind label key = .ok (t₀, top))
    (hTended : Tended top t₀ t₁ added)
    (hOnce : (top :: added).Nodup) :
    (t₁.subtree top).Perm (top :: added) := by
  have hParent := h.parentId?_grown hAdd hTended
  have hNodup :=
    h₁.nodup_subtree (contains_of_parentId? hParent)
  refine (List.perm_ext_iff_of_nodup hNodup hOnce).mpr ?_
  intro x
  rw [hTended.members, h.subtree_of_add hAdd,
    List.mem_singleton, List.mem_cons]

/- A deletion is one version on, and counts no ids. -/
theorem counters_of_delete
    {id : String}
    {removed : List String}
    (hDelete : t.delete id = .ok (t', removed)) :
    t'.nextId = t.nextId ∧ t'.version = t.version + 1 := by
  rcases delete_eq_ok hDelete with ⟨n, -, -, -, -, rfl⟩
  exact ⟨rfl, rfl⟩

/- The version after the addition counts it. -/
theorem toNat_version_of_add
    (hAdd : t.add parent kind label key = .ok (t₀, top)) :
    t₀.version.toNat = t.version.toNat + 1 := by
  rcases add_eq_ok hAdd with ⟨p, next, -, -, -, hNext, rfl⟩
  exact hNext.toNat_succ

/- From before the addition, the counters have gone up. -/
theorem counters_of_grown
    {removed : List String}
    (hAdd : t.add parent kind label key = .ok (t₀, top))
    (calls : List Call)
    (hNext : (t₀.run calls).HasNext)
    (hDelete : (t₀.run calls).delete top = .ok (t', removed)) :
    t.nextId < t'.nextId ∧
      t'.version.toNat =
        t.version.toNat + t₀.changes calls + 2 := by
  rcases counters_of_delete hDelete with ⟨hNextId, hVersion⟩
  constructor
  · rcases hands_of_add hAdd with ⟨k, hLeast, -, hTaken, -⟩
    have hFirst : t.nextId.toNat ≤ k := hLeast.1.le
    have hRest := t₀.nextId_le_run calls
    rw [hNextId, UInt64.lt_iff_toNat_lt]
    omega
  · rw [hVersion, hNext.toNat_succ, t₀.version_run calls,
      toNat_version_of_add hAdd]
    omega

end Growth

/-
  A node is added to a flow that a program can get to, and
  then come accepted edits inside its subtree.  With a version
  left for it, deleting the node is accepted and leaves the
  flow from before: its name, its root and its nodes, with all
  lists of children.  Only the number of the next id and the
  version have gone up.  What is removed is the node and what
  was added below it, each once.
-/
theorem growth_undone
    {t₀ : Flow}
    {parent label : String}
    {kind : StepKind}
    {key : Option Key}
    {edits : List Edit}
    (hReachable : t.Reachable)
    (hAdd : t.add parent kind label key = .ok (t₀, top))
    (hSession : Session top t₀ edits)
    (hRoom :
      t.version.toNat +
          t₀.changes (edits.map Call.apply) + 2 <
        UInt64.size) :
    let calls := edits.map Call.apply
    ∃ t' removed,
      (t₀.run calls).delete top = .ok (t', removed) ∧
      t' =
        { t with
          nextId := t'.nextId
          version := t'.version } ∧
      t.nextId < t'.nextId ∧
      t'.version.toNat =
        t.version.toNat + t₀.changes calls + 2 ∧
      t.version < t'.version ∧
      removed.Nodup ∧
      removed.Perm (top :: t₀.handedOut calls) := by
  intro calls
  have h := hReachable.sound
  have hTop : t₀.contains top = true :=
    ((h.hung_of_add hAdd).contains top).mpr (Or.inl rfl)
  have hTended := (h.add hAdd).tended_of_session hTop hSession
  have h₁ := sound_run (h.add hAdd) calls
  have hNext : (t₀.run calls).HasNext := by
    unfold HasNext
    rw [t₀.version_run calls, toNat_version_of_add hAdd,
      Nat.add_right_comm t.version.toNat, Nat.add_assoc]
    exact hRoom
  have hOnce : (top :: t₀.handedOut calls).Nodup := by
    have hAll := t.nodup_handedOut
      (.add parent kind label key :: calls)
    simpa [handedOut, given, after, left, hAdd, Except.map]
      using hAll
  have hPerm := h.subtree_perm_grown h₁ hAdd hTended hOnce
  rcases h.exists_delete_grown h₁ hNext hAdd hTended with
    ⟨t', hDelete⟩
  rcases counters_of_grown hAdd calls hNext hDelete with
    ⟨hNextId, hVersion⟩
  refine
    ⟨t', _, hDelete,
      h.eq_of_delete_grown hAdd hTended hDelete, hNextId,
      hVersion, ?_, hPerm.nodup_iff.mpr hOnce, hPerm⟩
  rw [UInt64.lt_iff_toNat_lt, hVersion]
  omega

/-
  A submenu grows beside an entry of the root.  It gets
  entries and a menu of its own, an entry is moved into this
  menu, and a label is changed.  Then the submenu is deleted.
-/
theorem growth_undone_submenu :
    let t := (Flow.new "Hotline").run
      [.add firstRootId .agent "Sales" (some (.digit 1))]
    let t₀ := t.after
      (.add firstRootId .playback "More" (some (.digit 2)))
    let edits : List Edit :=
      [.add "n2" .playback "Offices" (some .star),
        .add "n2" .hangup "Bye" none,
        .add "n3" .agent "North" (some (.digit 1)),
        .move "n4" "n3",
        .update "n2" { Patch.empty with label := some "All" }]
    let t₁ := t₀.run (edits.map .apply)
    t.Reachable ∧
      t.add firstRootId .playback "More" (some (.digit 2)) =
        .ok (t₀, "n2") ∧
      Session "n2" t₀ edits ∧
      t₁.preorder =
        [firstRootId, "n1", "n2", "n3", "n5", "n4"] ∧
      ∃ t' removed,
        t₁.delete "n2" = .ok (t', removed) ∧
          t'.nodes = t.nodes ∧
          t.version < t'.version ∧
          removed.Perm ["n2", "n3", "n4", "n5"] := by
  intro t t₀ edits t₁
  have hReachable : t.Reachable :=
    ⟨Flow.new "Hotline", _, Or.inl ⟨"Hotline", rfl⟩, rfl⟩
  have hAdd :
      t.add firstRootId .playback "More" (some (.digit 2)) =
        .ok (t₀, "n2") := by decide +kernel
  have hSession : Session "n2" t₀ edits := by decide +kernel
  have hRoom :
      t.version.toNat + t₀.changes (edits.map .apply) + 2 <
        UInt64.size := by decide +kernel
  have hAdded :
      t₀.handedOut (edits.map .apply) = ["n3", "n4", "n5"] := by
    decide +kernel
  rcases growth_undone hReachable hAdd hSession hRoom with
    ⟨t', removed, hDelete, hSame, -, -, hVersion, -, hPerm⟩
  rw [hAdded] at hPerm
  have hNodes : t'.nodes = t.nodes := by rw [hSame]
  exact
    ⟨hReachable, hAdd, hSession, by decide +kernel, t',
      removed, hDelete, hNodes, hVersion, hPerm⟩

end Flow

end CallFlow
