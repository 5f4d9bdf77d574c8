import CallFlow.Proofs.Flow.Circles

/-
  What the check reports about a flow that is broken in one
  certain way, whatever else is wrong with it.

  The check goes through all of its parts on every flow, so
  each of these problems is found in the flow at large and
  not only where the rest of the flow is sound.

  Main declarations:
    * `Flow.rootMissing_mem_problems`
    * `Flow.rootHasParent_mem_problems`
    * `Flow.rootKey_mem_problems`
    * `Flow.sharedKey_mem_problems`
    * `Flow.param_mem_problems`
    * `Flow.exists_cycle_mem_problems`
-/

namespace CallFlow

namespace Flow

variable {t : Flow}

/- A problem is found by one of the parts of the check. -/
theorem mem_problems_iff
    (t : Flow)
    (p : Problem) :
    p ∈ t.problems ↔
      p ∈ t.rootProblems ∨ p ∈ t.linkProblems ∨
        p ∈ t.cycleProblems ∨ p ∈ t.reachProblems ∨
          p ∈ t.keyProblems ∨ p ∈ t.paramProblems ∨
            p ∈ t.leafProblems := by
  unfold problems
  simp only [List.mem_append, or_assoc]

------------------------------------------------------------
-- The Root
------------------------------------------------------------

/- A root that is no node is reported. -/
theorem rootMissing_mem_problems
    (h : t.get? t.rootId = none) :
    .rootMissing t.rootId ∈ t.problems := by
  apply (t.mem_problems_iff _).mpr
  refine Or.inl (List.mem_append_left _ ?_)
  rw [h]
  exact List.mem_singleton_self _

/- A parent of the root is reported. -/
theorem rootHasParent_mem_problems
    {p : String}
    (h : t.parentId? t.rootId = some p) :
    .rootHasParent t.rootId p ∈ t.problems := by
  rcases Option.bind_eq_some_iff.mp h with
    ⟨n, hNode, hParent⟩
  apply (t.mem_problems_iff _).mpr
  refine Or.inl (List.mem_append_left _ ?_)
  simp only [hNode, hParent]
  exact List.mem_singleton_self _

/- A key of the root is reported. -/
theorem rootKey_mem_problems
    {n : Node}
    {key : Key}
    (hRoot : t.get? t.rootId = some n)
    (hKey : n.key = some key) :
    .rootKey t.rootId key ∈ t.problems := by
  have hFound :
      (t.get? t.rootId).bind Node.key = some key := by
    rw [hRoot, Option.bind_some, hKey]
  have hMem : .rootKey t.rootId key ∈ t.keyProblems := by
    refine List.mem_append_left _ ?_
    rw [hFound]
    exact List.mem_singleton_self _
  rw [mem_problems_iff]
  simp only [hMem, true_or, or_true]

------------------------------------------------------------
-- Keys and Settings
------------------------------------------------------------

/- Two children of a node with a key in common are reported. -/
theorem sharedKey_mem_problems
    {p a b : String}
    {key : Option Key}
    (ha : a ∈ t.childIds p)
    (hb : b ∈ t.childIds p)
    (hNe : a ≠ b)
    (hKeyA : t.hasKey key a = true)
    (hKeyB : t.hasKey key b = true) :
    sharedKey p ((t.childIds p).filter (t.hasKey key)) key ∈
      t.problems := by
  have hTwo :
      2 ≤ ((t.childIds p).filter (t.hasKey key)).length := by
    refine Nat.lt_of_not_le fun hOne => hNe ?_
    exact eq_of_length_filter_le_one hOne ha hb hKeyA hKeyB
  have hListed : p ∈ t.nodes.names := by
    rcases exists_of_mem_childIds ha with ⟨n, hNode, -⟩
    exact (t.nodes.mem_names_iff p).mpr
      ((t.contains_iff p).mpr ⟨n, hNode⟩)
  have hTried : key ∈ none :: Key.all.map some := by
    cases key with
    | none => exact List.mem_cons_self
    | some k =>
        exact List.mem_cons_of_mem _
          (List.mem_map_of_mem (Key.mem_all k))
  have hMem :
      sharedKey p ((t.childIds p).filter (t.hasKey key)) key ∈
        t.keyProblems := by
    refine List.mem_append_right _ ?_
    refine List.mem_flatMap.mpr ⟨p, hListed, ?_⟩
    refine List.mem_flatMap.mpr ⟨key, hTried, ?_⟩
    rw [if_pos hTwo]
    exact List.mem_singleton_self _
  rw [mem_problems_iff]
  simp only [hMem, true_or, or_true]

/- A setting that could not be written is reported. -/
theorem param_mem_problems
    {id name : String}
    {n : Node}
    {v : Value}
    {e : ParamError}
    (hNode : t.get? id = some n)
    (hValue : n.settings.get? name = some v)
    (hCheck : n.kind.check name v = .error e) :
    .param id e ∈ t.problems := by
  have hSetting : .param id e ∈ settingProblems id n := by
    refine List.mem_filterMap.mpr ⟨(name, v), ?_, ?_⟩
    · exact (n.settings.mem_entries_iff name v).mpr hValue
    · simp only [hCheck]
  have hMem : .param id e ∈ t.paramProblems := by
    refine List.mem_flatMap.mpr ⟨(id, n), ?_, ?_⟩
    · exact (t.nodes.mem_entries_iff id n).mpr hNode
    · exact List.mem_append_left _ hSetting
  rw [mem_problems_iff]
  simp only [hMem, true_or, or_true]

------------------------------------------------------------
-- Cycles
------------------------------------------------------------

/-
  A node that some parent below it makes its own ancestor is
  reported, in a cycle that both belong to.
-/
theorem exists_cycle_mem_problems
    {id p : String}
    {k : Nat}
    (hParent : t.parentId? id = some p)
    (hBack : t.ancestor? k p = some id) :
    ∃ members, id ∈ members ∧ p ∈ members ∧
      .cycle members ∈ t.problems := by
  have hAbove : t.Above id id :=
    ⟨k, (ancestor?_succ hParent k).trans hBack⟩
  rcases exists_circle_of_above hAbove with
    ⟨ring, hCircle, hId⟩
  have hMem :=
    (t.mem_cycleProblems_iff _).mpr ⟨ring, hCircle, rfl⟩
  refine
    ⟨inNameOrder ring, (mem_inNameOrder_iff ring id).mpr hId,
      (mem_inNameOrder_iff ring p).mpr
        (hCircle.mem_of_parentId? hId hParent), ?_⟩
  rw [mem_problems_iff]
  simp only [hMem, true_or, or_true]

end Flow

end CallFlow
