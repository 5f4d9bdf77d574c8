import CallFlow.Proofs.Flow.InPlace
import CallFlow.Proofs.Flow.Rejected
import CallFlow.Proofs.Flow.Reporting
import CallFlow.Proofs.Flow.Runs

/-
  The guards of edits are exact: an edit is rejected exactly
  if the flow that it would write unchecked has an error.

  Each guard looks at a few nodes only, and each speaks of
  one thing that the check of the whole flow would report.
  So every rejection is traced to a problem of the unchecked
  flow, for each edit in the order of its guards.  In the
  other direction an accepted edit leaves a sound flow, and
  sound flows have no errors.

  Main declarations:
    * `EditError.Names`
    * `Flow.Sound.exists_named_of_error`
    * `Flow.guards_exact`
-/

namespace CallFlow

------------------------------------------------------------
-- Rejections and Problems
------------------------------------------------------------

namespace EditError

/- A rejection names a problem, with what it is about. -/
inductive Names : EditError → Problem → Prop where
  | duplicateKey
      (parent : String)
      (key : Key)
      (children : List String) :
      Names (.duplicateKey parent key)
        (.duplicateKey parent key children)
  | duplicateFallback
      (parent : String)
      (children : List String) :
      Names (.duplicateFallback parent)
        (.duplicateFallback parent children)
  | wouldCycle
      {node newParent : String}
      {members : List String}
      (hNode : node ∈ members)
      (hParent : newParent ∈ members) :
      Names (.wouldCycle node newParent) (.cycle members)
  | cannotDeleteRoot
      (root : String) :
      Names (.cannotDeleteRoot root) (.rootMissing root)
  | cannotMoveRoot
      (root parent : String) :
      Names (.cannotMoveRoot root)
        (.rootHasParent root parent)
  | rootKey
      (root : String)
      (key : Key) :
      Names (.rootKey root) (.rootKey root key)
  | param
      (node : String)
      (e : ParamError) : Names (.param e) (.param node e)

/- Problems that a rejection can name are errors. -/
theorem Names.isError
    {err : EditError}
    {p : Problem}
    (h : err.Names p) : p.finding.isError = true := by
  cases h with
  | param node e => cases e <;> rfl
  | _ => rfl

/- A key that is taken is named as a shared one. -/
theorem names_sharedKey_of_checkKey
    {t : Flow}
    {parent : String}
    {key : Option Key}
    {ignored : Option String}
    {err : EditError}
    (h : t.checkKey parent key ignored = .error err)
    (children : List String) :
    err.Names (Flow.sharedKey parent children key) := by
  unfold Flow.checkKey at h
  cases hFound :
      t.childByKeyExcept? parent key ignored with
  | none => simp [hFound] at h
  | some c =>
      rw [hFound] at h
      cases key with
      | none =>
          cases h
          exact .duplicateFallback parent children
      | some k =>
          cases h
          exact .duplicateKey parent k children

end EditError

------------------------------------------------------------
-- Rejected Edits
------------------------------------------------------------

namespace Flow

variable {t t' : Flow}
variable {err : EditError}

/-
  A key that is taken by a child other than one is shared,
  in a flow where that one is a child with the key.
-/
private theorem exists_named_of_checkKey
    {parent : String}
    {key : Option Key}
    {ignored : Option String}
    (hTaken : t.checkKey parent key ignored = .error err)
    (id : String)
    (hListed : id ∈ t'.childIds parent)
    (hKey : t'.hasKey key id = true)
    (hKept :
      ∀ c ∈ t.childIds parent, some c ≠ ignored →
        c ∈ t'.childIds parent ∧ c ≠ id ∧
          t'.hasKey key c = t.hasKey key c) :
    ∃ p ∈ t'.problems, err.Names p := by
  rcases exists_of_checkKey_eq_error hTaken with
    ⟨c, hc, hNe, hSame⟩
  rcases hKept c hc hNe with ⟨hStays, hOther, hKeyKept⟩
  refine ⟨_, sharedKey_mem_problems hListed hStays
    (Ne.symm hOther) hKey (hKeyKept.trans hSame), ?_⟩
  exact EditError.names_sharedKey_of_checkKey hTaken _

namespace Sound

/- A new node is rejected for its key. -/
private theorem exists_named_of_add
    {parent label : String}
    {kind : StepKind}
    {key : Option Key}
    (h : t.Sound)
    (hContains : t.contains parent = true)
    (hFresh : t.freshId?.isSome = true)
    (hAdded : t.added parent kind label key = .error err) :
    ∃ p ∈ (t.unchecked (.add parent kind label key)).problems,
      err.Names p := by
  rcases (t.contains_iff parent).mp hContains with
    ⟨n, hParent⟩
  rcases Option.isSome_iff_exists.mp hFresh with
    ⟨⟨id, next⟩, hId⟩
  have hTaken := added_eq_error hParent hId hAdded
  have hNew : t.contains id = false :=
    not_contains_of_freshIdFrom? hId
  have hNotId : ∀ x, t.contains x = true → x ≠ id := by
    intro x hx hSame
    rw [hSame, hNew] at hx
    cases hx
  have hNodes :
      (t.unchecked (.add parent kind label key)).nodes = _ :=
    congrArg Flow.nodes
      (unchecked_add hId parent kind label key)
  have hLookup :=
    get?_added hNodes (hNotId parent hContains).symm
  refine exists_named_of_checkKey hTaken id ?_ ?_ ?_
  · have hNe := hNotId parent hContains
    simp [childIds, hLookup, hNe, hParent]
  · simp [hasKey, hLookup, Node.fresh]
  · intro c hc _
    have hNe := hNotId c (h.contains_of_mem_childIds hc)
    have hOld := childIds_of_get? hParent ▸ hc
    refine ⟨?_, hNe, ?_⟩
    · simp [childIds, hLookup, hNotId parent hContains,
        hParent, hOld]
    · unfold hasKey
      rw [hLookup, if_neg hNe]
      cases t.get? c <;> rfl

/- The nodes after a change that nothing was checked for. -/
private theorem get?_unchecked_update
    {id : String}
    {n : Node}
    (hNode : t.get? id = some n)
    (patch : Patch)
    (x : String) :
    (t.unchecked (.update id patch)).get? x =
      if x = id then some (patch.overwrite n)
      else t.get? x := by
  rw [unchecked_update hNode]
  exact t.nodes.get?_insert id x _

/- Such a change keeps the children of every node. -/
private theorem childIds_unchecked_update
    {id : String}
    {n : Node}
    (hNode : t.get? id = some n)
    (patch : Patch)
    (x : String) :
    (t.unchecked (.update id patch)).childIds x =
      t.childIds x := by
  unfold childIds
  rw [get?_unchecked_update hNode]
  by_cases hx : x = id
  · rw [if_pos hx, hx, hNode]
    rfl
  · rw [if_neg hx]

/- A change is rejected for a value, or for a key. -/
private theorem exists_named_of_update
    {id : String}
    {n : Node}
    {patch : Patch}
    (h : t.Sound)
    (hNode : t.get? id = some n)
    (hKnown :
      ∀ name, patch.settings.get? name = some none →
        ((patch.kindOf n).param? name).isSome = true)
    (hUpdated : t.updated id patch = .error err) :
    ∃ p ∈ (t.unchecked (.update id patch)).problems,
      err.Names p := by
  have hLookup := get?_unchecked_update hNode patch
  have hHere :
      (t.unchecked (.update id patch)).get? id =
        some (patch.overwrite n) := by
    rw [hLookup, if_pos rfl]
  have hRootId :
      (t.unchecked (.update id patch)).rootId = t.rootId := by
    rw [unchecked_update hNode]
  rcases updated_eq_error hNode hUpdated with
    hSettings | hKey
  · rcases exists_of_patchedSettings_eq_error hKnown
      hSettings with ⟨name, v, e, rfl, hValue, hCheck⟩
    exact
      ⟨_, param_mem_problems hHere hValue hCheck,
        .param id e⟩
  · rcases of_patchedKey_eq_error hKey with
      ⟨key, hParent, hChange, rfl⟩ |
        ⟨parent, key, hParent, hChange, hTaken⟩
    · -- Only the root has no parent.
      have hRoot : id = t.rootId :=
        Classical.byContradiction fun hNe =>
          h.parented id n hNode hNe hParent
      have hKeyed : (patch.overwrite n).key = some key :=
        congrArg (·.getD n.key) hChange
      have hMem :=
        rootKey_mem_problems
          (t := t.unchecked (.update id patch))
          (by rw [hRootId, ← hRoot, hHere]) hKeyed
      rw [hRootId, ← hRoot] at hMem
      exact ⟨_, hMem, .rootKey id key⟩
    · have hKeyed : (patch.overwrite n).key = key :=
        congrArg (·.getD n.key) hChange
      have hChildIds := childIds_unchecked_update hNode patch
      refine exists_named_of_checkKey hTaken id ?_ ?_ ?_
      · rw [hChildIds, h.links, parentId?_of_get? hNode]
        exact hParent
      · simp [hasKey, hHere, hKeyed]
      · intro c hc hOther
        have hNe : c ≠ id := by simpa using hOther
        refine ⟨?_, hNe, ?_⟩
        · rw [hChildIds]
          exact hc
        · unfold hasKey
          rw [hLookup, if_neg hNe]

/- The nodes after a move that nothing was checked for. -/
private theorem get?_unchecked_move
    {id : String}
    {n : Node}
    (hNode : t.get? id = some n)
    (newParent x : String) :
    (t.unchecked (.move id newParent)).get? x =
      (t.get? x).map fun m =>
        { m with
          parent :=
            if x = id then some newParent else m.parent
          children :=
            (if n.parent = some x then
                m.children.filter (· != id)
              else m.children) ++
              if x = newParent then [id] else [] } :=
  get?_moved
    (congrArg Flow.nodes (unchecked_move hNode newParent)) x

/- The parents after such a move. -/
private theorem parentId?_unchecked_move
    {id : String}
    {n : Node}
    (hNode : t.get? id = some n)
    (newParent x : String) :
    (t.unchecked (.move id newParent)).parentId? x =
      if x = id then some newParent else t.parentId? x := by
  unfold parentId?
  rw [get?_unchecked_move hNode]
  by_cases hHere : x = id
  · simp [hHere, hNode]
  · rw [if_neg hHere]
    cases t.get? x <;> simp [hHere]

/-
  The way up to a node is kept when that node is moved.  It
  does not pass the node on the way, as nothing is above
  itself.
-/
private theorem ancestor?_unchecked_move
    {id x : String}
    {n : Node}
    {k : Nat}
    (h : t.Sound)
    (hNode : t.get? id = some n)
    (newParent : String)
    (hk : t.ancestor? k x = some id) :
    (t.unchecked (.move id newParent)).ancestor? k x =
      some id := by
  induction k generalizing x with
  | zero => exact hk
  | succ k ih =>
      rcases exists_parentId?_of_ancestor?_succ hk with
        ⟨p, hParent, hRest⟩
      have hNe : x ≠ id := by
        intro hSame
        rw [hSame] at hk
        exact h.not_own_ancestor
          ((t.contains_iff id).mpr ⟨n, hNode⟩) hk
      have hKept :
          (t.unchecked (.move id newParent)).parentId? x =
            some p := by
        rw [parentId?_unchecked_move hNode, if_neg hNe]
        exact hParent
      rw [ancestor?_succ hKept]
      exact ih hRest

/- A move is rejected for the root, a cycle, or a key. -/
private theorem exists_named_of_move
    {id newParent : String}
    (h : t.Sound)
    (hContains : t.contains id = true)
    (hParent : t.contains newParent = true)
    (hMoved : t.moved id newParent = .error err) :
    ∃ p ∈ (t.unchecked (.move id newParent)).problems,
      err.Names p := by
  rcases (t.contains_iff id).mp hContains with ⟨n, hNode⟩
  rcases (t.contains_iff newParent).mp hParent with
    ⟨m, hNewParent⟩
  have hUnder :
      (t.unchecked (.move id newParent)).parentId? id =
        some newParent := by
    rw [parentId?_unchecked_move hNode, if_pos rfl]
  rcases moved_eq_error hNode hNewParent hMoved with
    ⟨hRoot, rfl⟩ | ⟨hCycle, rfl⟩ | ⟨hLeaves, hTaken⟩
  · have hRootId :
        (t.unchecked (.move id newParent)).rootId = id :=
      hRoot.symm
    have hMem :=
      rootHasParent_mem_problems
        (t := t.unchecked (.move id newParent))
        (by rw [hRootId, hUnder])
    rw [hRootId] at hMem
    exact ⟨_, hMem, .cannotMoveRoot id newParent⟩
  · have hBack : ∃ k, t.ancestor? k newParent = some id := by
      rcases hCycle with hSame | hBelow
      · exact ⟨0, congrArg some hSame.symm⟩
      · rcases (h.mem_descendants_iff id newParent).mp
          hBelow with ⟨k, hk⟩
        exact ⟨k + 1, hk⟩
    rcases hBack with ⟨k, hk⟩
    rcases exists_cycle_mem_problems hUnder
      (h.ancestor?_unchecked_move hNode newParent hk) with
      ⟨members, hId, hNew, hMem⟩
    exact ⟨_, hMem, .wouldCycle hId hNew⟩
  · have hLookup := get?_unchecked_move hNode newParent
    refine exists_named_of_checkKey hTaken id ?_ ?_ ?_
    · simp [childIds, hLookup, hNewParent]
    · simp [hasKey, hLookup, hNode]
    · intro c hc hOther
      have hNe : c ≠ id := by simpa using hOther
      have hOld := childIds_of_get? hNewParent ▸ hc
      refine ⟨?_, hNe, ?_⟩
      · simp [childIds, hLookup, hNewParent, hLeaves, hOld]
      · unfold hasKey
        rw [hLookup]
        cases t.get? c <;> rfl

/- A deletion is rejected for the root. -/
private theorem exists_named_of_delete
    {id : String}
    (hContains : t.contains id = true)
    (hDeleted : t.deleted id = .error err) :
    ∃ p ∈ (t.unchecked (.delete id)).problems,
      err.Names p := by
  rcases (t.contains_iff id).mp hContains with ⟨n, hNode⟩
  rcases deleted_eq_error hNode hDeleted with ⟨hRoot, rfl⟩
  have hRootId : (t.unchecked (.delete id)).rootId = id :=
    hRoot.symm
  have hGone :
      (t.unchecked (.delete id)).get? id = none := by
    rw [unchecked_delete hNode]
    refine (NameMap.get?_eraseAll _ _ id).trans ?_
    rw [if_pos List.mem_cons_self]
  have hMem :=
    rootMissing_mem_problems
      (t := t.unchecked (.delete id))
      (by rw [hRootId, hGone])
  rw [hRootId] at hMem
  exact ⟨_, hMem, .cannotDeleteRoot id⟩

/-
  Every rejection names a problem of the flow that the edit
  would write unchecked.
-/
theorem exists_named_of_rejected
    {e : Edit}
    (h : t.Sound)
    (hKnown : e.Known t)
    (hApply : t.apply e = .error (.rejected err)) :
    ∃ p ∈ (t.unchecked e).problems, err.Names p := by
  have hWritten := apply_eq_rejected_iff.mp hApply
  cases e with
  | add parent kind label key =>
      rcases bind_eq_error_iff.mp hWritten with
        hAdded | ⟨_, _, ⟨⟩⟩
      exact h.exists_named_of_add hKnown.1 hKnown.2 hAdded
  | update id patch =>
      rcases hKnown with ⟨n, hNode, hUnset⟩
      rcases bind_eq_error_iff.mp hWritten with
        hUpdated | ⟨_, _, ⟨⟩⟩
      exact h.exists_named_of_update hNode hUnset hUpdated
  | move id newParent =>
      rcases bind_eq_error_iff.mp hWritten with
        hMoved | ⟨_, _, ⟨⟩⟩
      exact h.exists_named_of_move hKnown.1 hKnown.2 hMoved
  | delete id =>
      rcases bind_eq_error_iff.mp hWritten with
        hDeleted | ⟨_, _, ⟨⟩⟩
      exact exists_named_of_delete hKnown hDeleted

------------------------------------------------------------
-- Accepted Edits
------------------------------------------------------------

/- A move to the end of the list that a node is in is sound. -/
private theorem unchecked_of_stays
    {id newParent : String}
    (h : t.Sound)
    (hMove : t.move id newParent = .ok t')
    (hStays : t.parentId? id = some newParent) :
    (t.unchecked (.move id newParent)).Sound := by
  rcases move_eq_ok hMove with
    ⟨n, m, hNode, hNotRoot, hParent, hNe, hBelow, -⟩
  have hNodes :
      (t.unchecked (.move id newParent)).nodes = _ :=
    congrArg Flow.nodes (unchecked_move hNode newParent)
  apply h.of_hung
  refine hung_of_moved h rfl hNodes hNode hNotRoot
    ((t.contains_iff newParent).mpr ⟨m, hParent⟩) hNe hBelow
    ?_
  intro c hc hOther
  refine Bool.eq_false_iff.mpr fun hSame => hOther ?_
  have hOwn : t.hasKey n.key id = true := by
    simp [hasKey, hNode]
  exact h.keys newParent n.key c id hc
    ((h.links newParent id).mpr hStays) hSame hOwn

/- What an accepted edit writes is sound also unchecked. -/
theorem unchecked
    {e : Edit}
    {made : Option String}
    (h : t.Sound)
    (hApply : t.apply e = .ok (t', made)) :
    (t.unchecked e).Sound := by
  rcases eq_unchecked_of_apply hApply with
    hSame | ⟨id, newParent, rfl, hStays, -⟩
  · have hAfter := (h.apply hApply).atVersion t.version
    rw [hSame, atVersion_atVersion, ← t.version_unchecked e]
      at hAfter
    exact hAfter
  · rcases bind_eq_ok_iff.mp hApply with ⟨t₁, hMove, -⟩
    exact h.unchecked_of_stays hMove hStays

end Sound

------------------------------------------------------------
-- Exactness
------------------------------------------------------------

/-
  An edit of known nodes is accepted exactly if the check
  finds no error in what it would write unchecked, as long as
  there is a next version.  An accepted edit leaves that flow
  one version on, or changes nothing where a node is moved
  under its own parent.  A rejection names a problem of the
  flow that it prevents, and the stored flow is as it was,
  with every field.  At the last version an edit that is not
  rejected can stop: the check finds no error in what it has
  written, which is left as it would be unchecked.
-/
theorem guards_exact
    (hReachable : t.Reachable)
    {e : Edit}
    (hKnown : e.Known t) :
    (t.HasNext →
      ((∃ t' made, t.apply e = .ok (t', made)) ↔
        ∀ f ∈ (t.unchecked e).findings,
          f.isError = false)) ∧
      (∀ t' made, t.apply e = .ok (t', made) →
        (Procedure.perform e).run t = .ok made t' ∧
          (t' = (t.unchecked e).atVersion (t.version + 1) ∨
            ∃ id parent, e = .move id parent ∧
              t.parentId? id = some parent ∧ t' = t)) ∧
      (∀ err, t.apply e = .error (.rejected err) →
        (Procedure.perform e).run t =
            .error (.rejected err) t ∧
          ∃ p ∈ (t.unchecked e).problems,
            err.Names p ∧
              p.finding ∈ (t.unchecked e).findings ∧
              p.finding.isError = true) ∧
      ∀ left, t.apply e = .error (.stopped left) →
        ¬ t.HasNext ∧ left = t.unchecked e ∧
          (∀ f ∈ (t.unchecked e).findings,
            f.isError = false) ∧
          (Procedure.perform e).run t =
            .error (.stopped left) left := by
  have hSound := hReachable.sound
  have hRun := Procedure.run_perform t e
  have hRejected : ∀ err,
      t.apply e = .error (.rejected err) →
        ∃ p ∈ (t.unchecked e).problems, err.Names p :=
    fun err hApply =>
      hSound.exists_named_of_rejected hKnown hApply
  refine ⟨fun hNext => ⟨?_, ?_⟩, ?_, ?_, ?_⟩
  · rintro ⟨t', made, hApply⟩
    exact (hSound.unchecked hApply).clean
  · intro hClean
    rcases hApply : t.apply e with (err | left) | r
    · rcases hRejected err hApply with ⟨p, hMem, hNames⟩
      have hNoError :=
        hClean p.finding (List.mem_map_of_mem hMem)
      rw [hNames.isError] at hNoError
      cases hNoError
    · exact absurd hNext (eq_unchecked_of_stopped hApply).1
    · exact ⟨r.1, r.2, rfl⟩
  · intro t' made hApply
    rw [hApply] at hRun
    exact ⟨hRun, eq_unchecked_of_apply hApply⟩
  · intro err hApply
    rw [hApply] at hRun
    rcases hRejected err hApply with ⟨p, hMem, hNames⟩
    exact
      ⟨hRun, p, hMem, hNames, List.mem_map_of_mem hMem,
        hNames.isError⟩
  · intro left hApply
    rw [hApply] at hRun
    rcases eq_unchecked_of_stopped hApply with
      ⟨hLast, hLeft⟩
    refine ⟨hLast, hLeft, ?_, hRun⟩
    rw [← hLeft]
    exact (hSound.stopped hApply).clean

/-
  A flow with an entry for a key.  A second entry for the key
  is refused, and would have been found out.
-/
theorem guards_exact_entry :
    let t :=
      (Flow.new unnamed).run
        [.add firstRootId .background "Sales" (some .star)]
    let e : Edit := .add firstRootId .hangup "Bye" (some .star)
    let err : EditError := .duplicateKey firstRootId .star
    t.Reachable ∧ e.Known t ∧
      (Procedure.perform e).run t =
          .error (.rejected err) t ∧
      ∃ p ∈ (t.unchecked e).problems,
        err.Names p ∧
          p.finding ∈ (t.unchecked e).findings ∧
          p.finding.isError = true := by
  intro t e err
  have hReachable : t.Reachable :=
    ⟨Flow.new unnamed, _, Or.inl ⟨unnamed, rfl⟩, rfl⟩
  have hKnown : e.Known t :=
    ⟨by decide +kernel, by decide +kernel⟩
  have hApply : t.apply e = .error (.rejected err) := by
    decide +kernel
  exact
    ⟨hReachable, hKnown,
      (guards_exact hReachable hKnown).2.2.1 err hApply⟩

end Flow

end CallFlow
