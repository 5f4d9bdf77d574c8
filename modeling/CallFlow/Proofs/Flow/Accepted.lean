import CallFlow.Flow.Apply
import CallFlow.Proofs.Results

/-
  What it takes for an edit to be accepted, and the flow that
  an accepted edit leaves.

  Each edit has one lemma that says everything about it: its
  guards hold, there is a next version, and the new flow is
  the old one with certain nodes at that version.  The
  lookups in the new nodes follow.

  Main declarations:
    * `Flow.commit_eq_ok_iff`
    * `Flow.commit_eq_error_iff`
    * `Flow.add_eq_ok`
    * `Flow.update_eq_ok`
    * `Flow.move_eq_ok`
    * `Flow.delete_eq_ok`
    * `Flow.get?_linkChild`
    * `Flow.get?_unlinkFrom?`
-/

namespace CallFlow

namespace Flow

variable {t t' : Flow}

------------------------------------------------------------
-- Guards
------------------------------------------------------------

/- A node that has to exist is found exactly if it does. -/
theorem node_eq_ok_iff
    {id : String}
    {n : Node} :
    t.node id = .ok n ↔ t.get? id = some n := by
  unfold node
  cases t.get? id <;> simp

/- The lists at a node are given exactly if it exists. -/
theorem listAt_eq
    (t : Flow)
    (list : Flow → String → List String)
    (id : String) :
    t.listAt list id =
      if t.contains id then .ok (list t id)
      else .error (.nodeNotFound id) := by
  unfold listAt node contains NameMap.contains get?
  cases t.nodes.get? id <;> rfl

/- A key is free if no other child is selected by it. -/
theorem checkKey_eq_ok_iff
    {parent : String}
    {key : Option Key}
    {ignored : Option String}
    {u : Unit} :
    t.checkKey parent key ignored = .ok u ↔
      ∀ c ∈ t.childIds parent, some c ≠ ignored →
        t.hasKey key c = false := by
  have hFind :
      t.childByKeyExcept? parent key ignored = none ↔
        ∀ c ∈ t.childIds parent, some c ≠ ignored →
          t.hasKey key c = false := by
    unfold childByKeyExcept?
    rw [List.find?_eq_none]
    simp
  rw [← hFind]
  unfold checkKey
  cases t.childByKeyExcept? parent key ignored with
  | none => simp
  | some c => cases key <;> simp

/- An id that is handed out is not in use. -/
theorem not_contains_of_freshIdFrom?
    {turns : Nat}
    {n next : UInt64}
    {id : String}
    (h : t.freshIdFrom? turns n = some (id, next)) :
    t.contains id = false := by
  induction turns generalizing n with
  | zero => cases h
  | succ turns ih =>
      unfold freshIdFrom? at h
      split at h
      · split at h
        · exact ih h
        · rename_i hFree
          cases h
          simpa using hFree
      · cases h

/- The key after a patch is the old one or a free one. -/
theorem patchedKey_eq_ok
    {id : String}
    {n : Node}
    {change : Option (Option Key)}
    {key : Option Key}
    (h : t.patchedKey id n change = .ok key) :
    key = n.key ∨ (n.parent = none ∧ key = none) ∨
      ∃ p, n.parent = some p ∧
        ∀ c ∈ t.childIds p, c ≠ id →
          t.hasKey key c = false := by
  unfold patchedKey at h
  split at h
  · cases h
    exact Or.inl rfl
  · split at h
    · cases h
      exact Or.inl rfl
    · split at h
      · rename_i hParent
        split at h
        · cases h
        · rename_i hNone
          cases h
          refine Or.inr (Or.inl ⟨hParent, ?_⟩)
          simpa using hNone
      · rename_i p hParent
        rcases bind_eq_ok_iff.mp h with ⟨u, hFree, hKey⟩
        cases hKey
        refine Or.inr (Or.inr ⟨p, hParent, ?_⟩)
        intro c hc hNe
        refine checkKey_eq_ok_iff.mp hFree c hc ?_
        simpa using hNe

------------------------------------------------------------
-- What Edits Write
------------------------------------------------------------

/- Everything about a node that is written as a new one. -/
theorem added_eq_ok
    {parent label id : String}
    {kind : StepKind}
    {key : Option Key}
    (h : t.added parent kind label key = .ok (t', id)) :
    ∃ p next, t.get? parent = some p ∧
      (∀ c ∈ t.childIds parent, t.hasKey key c = false) ∧
      t.freshId? = some (id, next) ∧
      t' =
        { t with
          nodes :=
            linkChild
              (t.nodes.insert id
                (Node.fresh kind label key (some parent)))
              parent id
          nextId := next } := by
  unfold added at h
  rcases bind_eq_ok_iff.mp h with ⟨p, hParent, h⟩
  rcases bind_eq_ok_iff.mp h with ⟨u, hFree, h⟩
  split at h
  · cases h
  · rename_i id' next hFresh
    cases h
    refine
      ⟨p, next, node_eq_ok_iff.mp hParent, ?_, hFresh, rfl⟩
    intro c hc
    exact checkKey_eq_ok_iff.mp hFree c hc (by simp)

/- Everything about a node that is written over. -/
theorem updated_eq_ok
    {id : String}
    {p : Patch}
    (h : t.updated id p = .ok t') :
    ∃ n settings key, t.get? id = some n ∧
      patchedSettings n p = .ok settings ∧
      t.patchedKey id n p.key = .ok key ∧
      t' =
        { t with
          nodes :=
            t.nodes.insert id
              { n with
                kind := p.kind.getD n.kind
                label := p.label.getD n.label
                settings := settings
                key := key } } := by
  unfold updated at h
  rcases bind_eq_ok_iff.mp h with ⟨n, hNode, h⟩
  rcases bind_eq_ok_iff.mp h with ⟨settings, hSettings, h⟩
  rcases bind_eq_ok_iff.mp h with ⟨key, hKey, h⟩
  cases h
  exact
    ⟨n, settings, key, node_eq_ok_iff.mp hNode, hSettings,
      hKey, rfl⟩

/- Everything about a node that is hung up elsewhere. -/
theorem moved_eq_ok
    {id newParent : String}
    {written : Option Flow}
    (h : t.moved id newParent = .ok written) :
    ∃ n p, t.get? id = some n ∧ id ≠ t.rootId ∧
      t.get? newParent = some p ∧ id ≠ newParent ∧
      newParent ∉ t.descendants id ∧
      ((n.parent = some newParent ∧ written = none) ∨
        n.parent ≠ some newParent ∧
          (∀ c ∈ t.childIds newParent, c ≠ id →
            t.hasKey n.key c = false) ∧
          written =
            some
              { t with
                nodes :=
                  (linkChild
                      (unlinkFrom? t.nodes n.parent id)
                      newParent id).modify id fun n =>
                    { n with
                      parent := some newParent } }) := by
  unfold moved at h
  rcases bind_eq_ok_iff.mp h with ⟨n, hNode, h⟩
  split at h
  · cases h
  · rename_i hNotRoot
    rcases bind_eq_ok_iff.mp h with ⟨p, hParent, h⟩
    split at h
    · cases h
    · rename_i hNoCycle
      rcases not_or.mp hNoCycle with ⟨hNe, hBelow⟩
      refine
        ⟨n, p, node_eq_ok_iff.mp hNode, hNotRoot,
          node_eq_ok_iff.mp hParent, hNe, hBelow, ?_⟩
      split at h
      · rename_i hStays
        cases h
        exact Or.inl ⟨hStays, rfl⟩
      · rename_i hLeaves
        rcases bind_eq_ok_iff.mp h with ⟨u, hFree, h⟩
        cases h
        refine Or.inr ⟨hLeaves, ?_, rfl⟩
        intro c hc hNe
        refine checkKey_eq_ok_iff.mp hFree c hc ?_
        simpa using hNe

/- Everything about a node that is taken out. -/
theorem deleted_eq_ok
    {id : String}
    {removed : List String}
    (h : t.deleted id = .ok (t', removed)) :
    ∃ n, t.get? id = some n ∧ id ≠ t.rootId ∧
      removed = id :: t.descendants id ∧
      t' =
        { t with
          nodes :=
            (unlinkFrom? t.nodes n.parent id).eraseAll
              removed } := by
  unfold deleted at h
  rcases bind_eq_ok_iff.mp h with ⟨n, hNode, h⟩
  split at h
  · cases h
  · rename_i hNotRoot
    cases h
    exact ⟨n, node_eq_ok_iff.mp hNode, hNotRoot, rfl, rfl⟩

------------------------------------------------------------
-- Commits
------------------------------------------------------------

/- The next version, where there is one, is one more. -/
theorem HasNext.toNat_succ
    (h : t.HasNext) :
    (t.version + 1).toNat = t.version.toNat + 1 := by
  rw [UInt64.toNat_add]
  exact Nat.mod_eq_of_lt h

/- So it is greater. -/
theorem HasNext.lt_succ
    (h : t.HasNext) : t.version < t.version + 1 := by
  rw [UInt64.lt_iff_toNat_lt, h.toNat_succ]
  exact Nat.lt_succ_self _

/- A commit leads to the next version, if there is one. -/
theorem commit_eq_ok_iff :
    t.commit = .ok t' ↔
      t.HasNext ∧ t' = { t with version := t.version + 1 } := by
  unfold commit
  split
  · rename_i hNext
    rw [Except.ok.injEq, and_iff_right hNext]
    exact eq_comm
  · rename_i hLast
    exact iff_of_false nofun fun h => hLast h.1

/- It stops at the last version, and leaves what is there. -/
theorem commit_eq_error_iff
    {f : EditFailure} :
    t.commit = .error f ↔ ¬ t.HasNext ∧ f = .stopped t := by
  unfold commit
  split
  · rename_i hNext
    exact iff_of_false nofun fun h => h.1 hNext
  · rename_i hLast
    rw [Except.error.injEq, and_iff_right hLast]
    exact eq_comm

------------------------------------------------------------
-- Edits
------------------------------------------------------------

/- Everything about a node that is added. -/
theorem add_eq_ok
    {parent label id : String}
    {kind : StepKind}
    {key : Option Key}
    (h : t.add parent kind label key = .ok (t', id)) :
    ∃ p next, t.get? parent = some p ∧
      (∀ c ∈ t.childIds parent, t.hasKey key c = false) ∧
      t.freshId? = some (id, next) ∧ t.HasNext ∧
      t' =
        { t with
          nodes :=
            linkChild
              (t.nodes.insert id
                (Node.fresh kind label key (some parent)))
              parent id
          nextId := next
          version := t.version + 1 } := by
  rcases bind_eq_ok_iff.mp h with ⟨⟨w, id⟩, hAdded, h⟩
  rcases bind_eq_ok_iff.mp h with ⟨w', hCommit, hDone⟩
  cases hDone
  rcases added_eq_ok (mapError_eq_ok_iff.mp hAdded) with
    ⟨p, next, hParent, hFree, hFresh, rfl⟩
  rcases commit_eq_ok_iff.mp hCommit with ⟨hNext, rfl⟩
  exact ⟨p, next, hParent, hFree, hFresh, hNext, rfl⟩

/- Everything about a node that is changed. -/
theorem update_eq_ok
    {id : String}
    {p : Patch}
    (h : t.update id p = .ok t') :
    ∃ n settings key, t.get? id = some n ∧
      patchedSettings n p = .ok settings ∧
      t.patchedKey id n p.key = .ok key ∧ t.HasNext ∧
      t' =
        { t with
          nodes :=
            t.nodes.insert id
              { n with
                kind := p.kind.getD n.kind
                label := p.label.getD n.label
                settings := settings
                key := key }
          version := t.version + 1 } := by
  rcases bind_eq_ok_iff.mp h with ⟨w, hUpdated, hCommit⟩
  rcases updated_eq_ok (mapError_eq_ok_iff.mp hUpdated) with
    ⟨n, settings, key, hNode, hSettings, hKey, rfl⟩
  rcases commit_eq_ok_iff.mp hCommit with ⟨hNext, rfl⟩
  exact
    ⟨n, settings, key, hNode, hSettings, hKey, hNext, rfl⟩

/- Everything about a node that is moved. -/
theorem move_eq_ok
    {id newParent : String}
    (h : t.move id newParent = .ok t') :
    ∃ n p, t.get? id = some n ∧ id ≠ t.rootId ∧
      t.get? newParent = some p ∧ id ≠ newParent ∧
      newParent ∉ t.descendants id ∧
      ((n.parent = some newParent ∧ t' = t) ∨
        n.parent ≠ some newParent ∧
          (∀ c ∈ t.childIds newParent, c ≠ id →
            t.hasKey n.key c = false) ∧ t.HasNext ∧
          t' =
            { t with
              nodes :=
                (linkChild (unlinkFrom? t.nodes n.parent id)
                    newParent id).modify id fun n =>
                  { n with parent := some newParent }
              version := t.version + 1 }) := by
  rcases bind_eq_ok_iff.mp h with ⟨written, hMoved, h⟩
  rcases moved_eq_ok (mapError_eq_ok_iff.mp hMoved) with
    ⟨n, p, hNode, hNotRoot, hParent, hNe, hBelow,
      ⟨hStays, rfl⟩ | ⟨hLeaves, hFree, rfl⟩⟩
  · cases h
    exact
      ⟨n, p, hNode, hNotRoot, hParent, hNe, hBelow,
        Or.inl ⟨hStays, rfl⟩⟩
  · rcases commit_eq_ok_iff.mp h with ⟨hNext, rfl⟩
    exact
      ⟨n, p, hNode, hNotRoot, hParent, hNe, hBelow,
        Or.inr ⟨hLeaves, hFree, hNext, rfl⟩⟩

/- Everything about a node that is deleted. -/
theorem delete_eq_ok
    {id : String}
    {removed : List String}
    (h : t.delete id = .ok (t', removed)) :
    ∃ n, t.get? id = some n ∧ id ≠ t.rootId ∧
      removed = id :: t.descendants id ∧ t.HasNext ∧
      t' =
        { t with
          nodes :=
            (unlinkFrom? t.nodes n.parent id).eraseAll
              removed
          version := t.version + 1 } := by
  rcases bind_eq_ok_iff.mp h with ⟨⟨w, removed⟩, hDeleted, h⟩
  rcases bind_eq_ok_iff.mp h with ⟨w', hCommit, hDone⟩
  cases hDone
  rcases deleted_eq_ok (mapError_eq_ok_iff.mp hDeleted) with
    ⟨n, hNode, hNotRoot, hRemoved, rfl⟩
  rcases commit_eq_ok_iff.mp hCommit with ⟨hNext, rfl⟩
  exact ⟨n, hNode, hNotRoot, hRemoved, hNext, rfl⟩

------------------------------------------------------------
-- Lookups After Linking
------------------------------------------------------------

/- Linking appends to one list of children. -/
theorem get?_linkChild
    (nodes : NameMap Node)
    (parent child x : String) :
    (linkChild nodes parent child).get? x =
      if x = parent then
        (nodes.get? x).map fun n =>
          { n with children := n.children ++ [child] }
      else nodes.get? x :=
  nodes.get?_modify parent x _

/- Unlinking filters the list of the parent, if any. -/
theorem get?_unlinkFrom?
    (nodes : NameMap Node)
    (parent : Option String)
    (child x : String) :
    (unlinkFrom? nodes parent child).get? x =
      if parent = some x then
        (nodes.get? x).map fun n =>
          { n with children := n.children.filter (· != child) }
      else nodes.get? x := by
  cases parent with
  | none => simp [unlinkFrom?]
  | some p =>
      unfold unlinkFrom? unlinkChild
      rw [NameMap.get?_modify]
      by_cases hHere : x = p
      · simp [hHere]
      · have hHere' : ¬ p = x := fun h => hHere h.symm
        simp [hHere, hHere']

end Flow

end CallFlow
