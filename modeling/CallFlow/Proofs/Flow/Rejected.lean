import CallFlow.Proofs.Flow.Unchecked

/-
  What it takes for an edit of known nodes to be rejected,
  which is decided before it writes anything.

  Each edit has one lemma that says which of its guards has
  failed, and each guard one that says what it has seen.  A
  patch is rejected for a value that would be overwritten, so
  the value is found in the node that is left unchecked.

  Main declarations:
    * `Flow.added_eq_error`
    * `Flow.updated_eq_error`
    * `Flow.moved_eq_error`
    * `Flow.deleted_eq_error`
-/

namespace CallFlow

------------------------------------------------------------
-- Guards
------------------------------------------------------------

/- A rejected change is a value that cannot be written. -/
theorem StepKind.exists_of_foldlM_eq_error
    {k : StepKind}
    {entries : List (String × Option Value)}
    {s : Settings}
    {e : ParamError}
    (hKnown :
      ∀ name, (name, none) ∈ entries →
        (k.param? name).isSome = true)
    (h : entries.foldlM k.change s = .error e) :
    ∃ name v, (name, some v) ∈ entries ∧
      k.check name v = .error e := by
  induction entries generalizing s with
  | nil => cases h
  | cons entry rest ih =>
      rw [List.foldlM_cons] at h
      rcases bind_eq_error_iff.mp h with
        hFirst | ⟨next, -, hRest⟩
      · rcases entry with ⟨name, value⟩
        cases value with
        | some v =>
            refine ⟨name, v, List.mem_cons_self, ?_⟩
            rcases bind_eq_error_iff.mp hFirst with
              hCheck | ⟨u, -, hDone⟩
            · exact hCheck
            · cases hDone
        | none =>
            have hParam := hKnown name List.mem_cons_self
            simp only [change, hParam, if_true] at hFirst
            cases hFirst
      · have hKnownRest :
            ∀ name, (name, none) ∈ rest →
              (k.param? name).isSome = true :=
          fun name hName =>
            hKnown name (List.mem_cons_of_mem _ hName)
        rcases ih hKnownRest hRest with
          ⟨name, v, hMem, hCheck⟩
        exact ⟨name, v, List.mem_cons_of_mem _ hMem, hCheck⟩

namespace Flow

variable {t t' : Flow}
variable {err : EditError}

/- Settings are rejected for one that is overwritten. -/
theorem exists_of_patchedSettings_eq_error
    {n : Node}
    {p : Patch}
    (hKnown :
      ∀ name, p.settings.get? name = some none →
        ((p.kindOf n).param? name).isSome = true)
    (h : patchedSettings n p = .error err) :
    ∃ name v e, err = .param e ∧
      (p.overwrite n).settings.get? name = some v ∧
      (p.kindOf n).check name v = .error e := by
  unfold patchedSettings at h
  cases hAll :
      (p.kindOf n).changeAll (p.settingsBefore n)
        p.settings with
  | ok s =>
      unfold Patch.settingsBefore Patch.kindOf at hAll
      simp only [hAll] at h
      cases h
  | error e =>
      have hErr : err = .param e := by
        unfold Patch.settingsBefore Patch.kindOf at hAll
        simp only [hAll] at h
        cases h
        rfl
      rcases StepKind.exists_of_foldlM_eq_error
        (fun name hMem => hKnown name
          ((p.settings.mem_entries_iff name none).mp hMem))
        hAll with ⟨name, v, hMem, hCheck⟩
      exact
        ⟨name, v, e, hErr,
          Settings.get?_foldl_overwrite p.settings.ordered
            hMem _, hCheck⟩

/- A key is rejected on the root, or where it is taken. -/
theorem of_patchedKey_eq_error
    {id : String}
    {n : Node}
    {change : Option (Option Key)}
    (h : t.patchedKey id n change = .error err) :
    (∃ key, n.parent = none ∧ change = some (some key) ∧
        err = .rootKey id) ∨
      ∃ parent key, n.parent = some parent ∧
        change = some key ∧
        t.checkKey parent key (some id) = .error err := by
  unfold patchedKey at h
  split at h
  · cases h
  · rename_i key
    split at h
    · cases h
    · split at h
      · rename_i hParent
        split at h
        · rename_i hSome
          cases h
          rcases Option.isSome_iff_exists.mp hSome with
            ⟨k, rfl⟩
          exact Or.inl ⟨k, hParent, rfl, rfl⟩
        · cases h
      · rename_i parent hParent
        refine Or.inr ⟨parent, key, hParent, rfl, ?_⟩
        rcases bind_eq_error_iff.mp h with
          hTaken | ⟨u, -, hDone⟩
        · exact hTaken
        · cases hDone

/- A key is rejected if another child is selected by it. -/
theorem exists_of_checkKey_eq_error
    {parent : String}
    {key : Option Key}
    {ignored : Option String}
    (h : t.checkKey parent key ignored = .error err) :
    ∃ c ∈ t.childIds parent, some c ≠ ignored ∧
      t.hasKey key c = true := by
  refine Classical.byContradiction fun hNone => ?_
  have hFree : t.checkKey parent key ignored = .ok () := by
    apply checkKey_eq_ok_iff.mpr
    intro c hc hNe
    refine Bool.eq_false_iff.mpr fun hSame => ?_
    exact hNone ⟨c, hc, hNe, hSame⟩
  rw [h] at hFree
  cases hFree

------------------------------------------------------------
-- Edits
------------------------------------------------------------

/- A new node is rejected for its key. -/
theorem added_eq_error
    {parent label : String}
    {kind : StepKind}
    {key : Option Key}
    {p : Node}
    {fresh : String × UInt64}
    (hParent : t.get? parent = some p)
    (hFresh : t.freshId? = some fresh)
    (h : t.added parent kind label key = .error err) :
    t.checkKey parent key none = .error err := by
  unfold added at h
  rw [node_eq_ok_iff.mpr hParent, hFresh] at h
  rcases bind_eq_error_iff.mp h with hNode | ⟨n, -, h⟩
  · cases hNode
  · rcases bind_eq_error_iff.mp h with hTaken | ⟨u, -, h⟩
    · exact hTaken
    · cases h

/- A change is rejected for a setting, or for a key. -/
theorem updated_eq_error
    {id : String}
    {n : Node}
    {p : Patch}
    (hNode : t.get? id = some n)
    (h : t.updated id p = .error err) :
    patchedSettings n p = .error err ∨
      t.patchedKey id n p.key = .error err := by
  unfold updated at h
  rw [node_eq_ok_iff.mpr hNode] at h
  rcases bind_eq_error_iff.mp h with hFound | ⟨m, hFound, h⟩
  · cases hFound
  · cases hFound
    rcases bind_eq_error_iff.mp h with hSettings | ⟨s, -, h⟩
    · exact Or.inl hSettings
    · rcases bind_eq_error_iff.mp h with hKey | ⟨key, -, h⟩
      · exact Or.inr hKey
      · cases h

/- A move is rejected for the root, a cycle, or a key. -/
theorem moved_eq_error
    {id newParent : String}
    {n p : Node}
    (hNode : t.get? id = some n)
    (hParent : t.get? newParent = some p)
    (h : t.moved id newParent = .error err) :
    (id = t.rootId ∧ err = .cannotMoveRoot id) ∨
      ((id = newParent ∨ newParent ∈ t.descendants id) ∧
        err = .wouldCycle id newParent) ∨
      (n.parent ≠ some newParent ∧
        t.checkKey newParent n.key (some id) =
          .error err) := by
  unfold moved at h
  rw [node_eq_ok_iff.mpr hNode,
    node_eq_ok_iff.mpr hParent] at h
  rcases bind_eq_error_iff.mp h with hFound | ⟨m, hFound, h⟩
  · cases hFound
  · cases hFound
    split at h
    · rename_i hRoot
      cases h
      exact Or.inl ⟨hRoot, rfl⟩
    · rcases bind_eq_error_iff.mp h with hNone | ⟨q, -, h⟩
      · cases hNone
      · split at h
        · rename_i hCycle
          cases h
          exact Or.inr (Or.inl ⟨hCycle, rfl⟩)
        · split at h
          · cases h
          · rename_i hLeaves
            refine Or.inr (Or.inr ⟨hLeaves, ?_⟩)
            rcases bind_eq_error_iff.mp h with
              hTaken | ⟨u, -, h⟩
            · exact hTaken
            · cases h

/- A deletion is rejected for the root. -/
theorem deleted_eq_error
    {id : String}
    {n : Node}
    (hNode : t.get? id = some n)
    (h : t.deleted id = .error err) :
    id = t.rootId ∧ err = .cannotDeleteRoot id := by
  unfold deleted at h
  rw [node_eq_ok_iff.mpr hNode] at h
  rcases bind_eq_error_iff.mp h with hFound | ⟨m, hFound, h⟩
  · cases hFound
  · split at h
    · rename_i hRoot
      cases h
      exact ⟨hRoot, rfl⟩
    · cases h

end Flow

end CallFlow
