import CallFlow.Proofs.Flow.Codes
import CallFlow.Proofs.Flow.Sound

/-
  The check of a flow finds an error exactly in flows that
  are not sound.

  Each part of the check that reports errors finds nothing
  under a condition of its own.  Only together do these
  conditions make a flow one tree: the part for cycles, for
  example, says that every chain of parents ends, and the
  parts for roots and links say that it ends at the root.

  Main declarations:
    * `Flow.Clean`
    * `Flow.rootProblems_eq_nil_iff`
    * `Flow.linkProblems_eq_nil_iff`
    * `Flow.cycleProblems_eq_nil_iff`
    * `Flow.reachProblems_eq_nil_iff`
    * `Flow.keyProblems_eq_nil_iff`
    * `Flow.linked_iff`
    * `Flow.sound_of_clean`
    * `Flow.Sound.clean`
    * `Flow.error_free_iff_sound`
-/

namespace CallFlow

/- A name is in the ordered list exactly if it was given. -/
theorem mem_inNameOrder_iff
    (names : List String)
    (name : String) :
    name ∈ inNameOrder names ↔ name ∈ names := by
  unfold inNameOrder
  rw [NameMap.mem_names_iff, NameMap.contains_ofList_iff]
  simp

namespace Flow

variable {t : Flow}

------------------------------------------------------------
-- Errors and Warnings
------------------------------------------------------------

/- No finding about a flow is an error. -/
def Clean
    (t : Flow) : Prop :=
  ∀ f ∈ t.findings, f.isError = false

/- A flow that is not clean is one with an error. -/
theorem clean_iff_any_isError
    (t : Flow) :
    t.Clean ↔ t.findings.any Finding.isError = false := by
  simp [Clean, List.any_eq_false]

/- The problems of a part of the check that are errors. -/
private def errors
    (problems : List Problem) : List Problem :=
  problems.filter fun p => p.finding.isError

/- A flow is clean if no part of the check finds errors. -/
private theorem clean_iff_errors_eq_nil
    (t : Flow) :
    t.Clean ↔ errors t.problems = [] := by
  simp [Clean, errors, findings, List.filter_eq_nil_iff]

private theorem errors_append
    (l₁ l₂ : List Problem) :
    errors (l₁ ++ l₂) = errors l₁ ++ errors l₂ :=
  List.filter_append l₁ l₂

/- Where all codes are those of errors, none is left out. -/
private theorem errors_eq_self
    {codes : List Code}
    {l : List Problem}
    (h : Problem.Coded codes l)
    (hErrors : ∀ c ∈ codes, c.severity = .error) :
    errors l = l := by
  apply List.filter_eq_self.mpr
  intro p hp
  exact beq_iff_eq.mpr (hErrors p.code (h p hp))

/- Where all are those of warnings, all are left out. -/
private theorem errors_eq_nil
    {codes : List Code}
    {l : List Problem}
    (h : Problem.Coded codes l)
    (hWarnings : ∀ c ∈ codes, c.severity = .warning) :
    errors l = [] := by
  apply List.filter_eq_nil_iff.mpr
  intro p hp hError
  have hSeverity : p.code.severity = .error :=
    beq_iff_eq.mp hError
  rw [hWarnings p.code (h p hp)] at hSeverity
  cases hSeverity

------------------------------------------------------------
-- Roots
------------------------------------------------------------

private theorem errors_rootProblems
    (t : Flow) :
    errors t.rootProblems = t.rootProblems :=
  errors_eq_self t.coded_rootProblems (by decide)

/-
  The root is a node without a parent, and there is no other
  such node.
-/
theorem rootProblems_eq_nil_iff
    (t : Flow) :
    t.rootProblems = [] ↔
      (∃ n, t.get? t.rootId = some n ∧ n.parent = none) ∧
        ∀ id, t.contains id = true →
          t.parentId? id = none → id = t.rootId := by
  have hOthers :
      (t.nodes.names.filter fun id =>
          (t.parentId? id).isNone && id != t.rootId) = [] ↔
        ∀ id, t.contains id = true →
          t.parentId? id = none → id = t.rootId := by
    rw [List.filter_eq_nil_iff]
    constructor
    · intro h id hContains hParent
      have hId :=
        h id ((t.nodes.mem_names_iff id).mpr hContains)
      simpa [hParent] using hId
    · intro h id hMem
      have hContains := (t.nodes.mem_names_iff id).mp hMem
      cases hParent : t.parentId? id with
      | none => simp [h id hContains hParent]
      | some p => simp
  unfold rootProblems
  rw [List.append_eq_nil_iff, ← hOthers]
  apply and_congr
  · cases hRoot : t.get? t.rootId with
    | none => simp
    | some n => cases hParent : n.parent <;> simp [hParent]
  · split
    · rename_i hEmpty
      simpa using hEmpty
    · rename_i hSome
      simpa using hSome

------------------------------------------------------------
-- Links
------------------------------------------------------------

private theorem errors_linkProblems
    (t : Flow) :
    errors t.linkProblems = t.linkProblems :=
  errors_eq_self t.coded_linkProblems (by decide)

/- The parent that a node names is a node that lists it. -/
private theorem parentProblems_eq_nil_iff
    (t : Flow)
    (id : String)
    (n : Node) :
    t.parentProblems id n = [] ↔
      ∀ p, n.parent = some p → id ∈ t.childIds p := by
  unfold parentProblems
  cases hParent : n.parent with
  | none => simp
  | some p =>
      cases hNode : t.get? p with
      | none => simp [childIds, hNode]
      | some parent =>
          by_cases hListed : id ∈ parent.children <;>
            simp [childIds, hNode, hListed]

/- A listed child is a node that names its parent. -/
private theorem childProblems_eq_nil_iff
    (t : Flow)
    (id c : String)
    (n : Node) :
    t.childProblems id n c = [] ↔
      t.parentId? c = some id ∧ n.children.count c ≤ 1 := by
  unfold childProblems parentId?
  cases hNode : t.get? c with
  | none => simp
  | some m =>
      by_cases hParent : m.parent = some id <;>
        simp [hParent]

/- Each node is looked at from both sides of its links. -/
private theorem linkProblems_eq_nil_iff_forall
    (t : Flow) :
    t.linkProblems = [] ↔
      ∀ id n, t.get? id = some n →
        (∀ p, n.parent = some p → id ∈ t.childIds p) ∧
          ∀ c ∈ n.children,
            t.parentId? c = some id ∧
              n.children.count c ≤ 1 := by
  unfold linkProblems
  rw [List.flatMap_eq_nil_iff]
  constructor
  · intro h id n hNode
    have hEntry :=
      h (id, n) ((t.nodes.mem_entries_iff id n).mpr hNode)
    rw [List.append_eq_nil_iff, parentProblems_eq_nil_iff,
      List.flatMap_eq_nil_iff] at hEntry
    refine ⟨hEntry.1, ?_⟩
    intro c hc
    have hChild :=
      hEntry.2 c ((mem_inNameOrder_iff _ c).mpr hc)
    exact (t.childProblems_eq_nil_iff id c n).mp hChild
  · rintro h ⟨id, n⟩ hEntry
    rcases h id n ((t.nodes.mem_entries_iff id n).mp hEntry)
      with ⟨hParent, hChildren⟩
    rw [List.append_eq_nil_iff, parentProblems_eq_nil_iff,
      List.flatMap_eq_nil_iff]
    refine ⟨hParent, ?_⟩
    intro c hc
    apply (t.childProblems_eq_nil_iff id c n).mpr
    exact hChildren c ((mem_inNameOrder_iff _ c).mp hc)

/- The two sides of the links agree, child by child. -/
theorem linkProblems_eq_nil_iff
    (t : Flow) :
    t.linkProblems = [] ↔
      (∀ p c, c ∈ t.childIds p ↔ t.parentId? c = some p) ∧
        ∀ p, (t.childIds p).Nodup := by
  rw [linkProblems_eq_nil_iff_forall]
  constructor
  · intro h
    constructor
    · intro p c
      constructor
      · intro hChild
        rcases exists_of_mem_childIds hChild with
          ⟨n, hNode, hListed⟩
        exact ((h p n hNode).2 c hListed).1
      · intro hParent
        rcases Option.bind_eq_some_iff.mp hParent with
          ⟨n, hNode, hNamed⟩
        exact (h c n hNode).1 p hNamed
    · intro p
      apply List.nodup_iff_count.mpr
      intro c
      by_cases hChild : c ∈ t.childIds p
      · rcases exists_of_mem_childIds hChild with
          ⟨n, hNode, hListed⟩
        rw [childIds_of_get? hNode]
        exact ((h p n hNode).2 c hListed).2
      · rw [List.count_eq_zero_of_not_mem hChild]
        exact Nat.zero_le 1
  · rintro ⟨hLinks, hOnce⟩ id n hNode
    have hListed := childIds_of_get? hNode
    constructor
    · intro p hParent
      rw [hLinks, parentId?_of_get? hNode]
      exact hParent
    · intro c hChild
      constructor
      · rw [← hLinks, hListed]
        exact hChild
      · rw [← hListed]
        exact List.nodup_iff_count.mp (hOnce id) c

------------------------------------------------------------
-- Cycles and Reach
------------------------------------------------------------

private theorem errors_cycleProblems
    (t : Flow) :
    errors t.cycleProblems = t.cycleProblems :=
  errors_eq_self t.coded_cycleProblems (by decide)

/- Every chain of parents ends. -/
theorem cycleProblems_eq_nil_iff
    (t : Flow) :
    t.cycleProblems = [] ↔
      ∀ id, t.contains id = true →
        ∃ k top, t.ancestor? k id = some top ∧
          t.parentId? top = none := by
  unfold cycleProblems
  rw [List.map_eq_nil_iff]
  constructor
  · intro h id hContains
    apply (t.loop?_eq_none_iff id).mp
    cases hLoop : t.loop? id with
    | none => rfl
    | some members =>
        have hFound :
            members ∈
              (t.nodes.names.filterMap t.loop?).eraseDups := by
          rw [List.mem_eraseDups]
          exact List.mem_filterMap.mpr
            ⟨id, (t.nodes.mem_names_iff id).mpr hContains,
              hLoop⟩
        rw [h] at hFound
        cases hFound
  · intro h
    have hNone : t.nodes.names.filterMap t.loop? = [] := by
      apply List.filterMap_eq_nil_iff.mpr
      intro id hMem
      exact (t.loop?_eq_none_iff id).mpr
        (h id ((t.nodes.mem_names_iff id).mp hMem))
    rw [hNone]
    rfl

private theorem errors_reachProblems
    (t : Flow) :
    errors t.reachProblems = t.reachProblems :=
  errors_eq_self t.coded_reachProblems (by decide)

/- The root, if it is a node, leads to every node. -/
theorem reachProblems_eq_nil_iff
    (t : Flow) :
    t.reachProblems = [] ↔
      (t.contains t.rootId = true →
        ∀ id, t.contains id = true → id ∈ t.preorder) := by
  unfold reachProblems
  split
  · rename_i hRoot
    rw [List.map_eq_nil_iff, List.filter_eq_nil_iff]
    constructor
    · intro h _ id hContains
      simpa using
        h id ((t.nodes.mem_names_iff id).mpr hContains)
    · intro h id hMem
      have hReached :=
        h hRoot id ((t.nodes.mem_names_iff id).mp hMem)
      simpa using hReached
  · rename_i hNoRoot
    simp [hNoRoot]

------------------------------------------------------------
-- Keys
------------------------------------------------------------

private theorem errors_keyProblems
    (t : Flow) :
    errors t.keyProblems = t.keyProblems :=
  errors_eq_self t.coded_keyProblems (by decide)

/- The root has no key, and each key belongs to one child. -/
theorem keyProblems_eq_nil_iff
    (t : Flow) :
    t.keyProblems = [] ↔
      (t.get? t.rootId).bind Node.key = none ∧
        ∀ p key,
          ((t.childIds p).filter (t.hasKey key)).length ≤
            1 := by
  unfold keyProblems
  rw [List.append_eq_nil_iff]
  apply and_congr
  · cases (t.get? t.rootId).bind Node.key <;> simp
  · rw [List.flatMap_eq_nil_iff]
    constructor
    · intro h p key
      by_cases hContains : t.contains p = true
      · have hSiblings :=
          h p ((t.nodes.mem_names_iff p).mpr hContains)
        unfold siblingProblems at hSiblings
        rw [List.flatMap_eq_nil_iff] at hSiblings
        have hKey :
            key ∈ none :: Key.all.map some := by
          cases key with
          | none => exact List.mem_cons_self
          | some k =>
              exact List.mem_cons_of_mem _
                (List.mem_map_of_mem (Key.mem_all k))
        have hShared := hSiblings key hKey
        by_cases hTwo :
            2 ≤ ((t.childIds p).filter (t.hasKey key)).length
        · simp [hTwo] at hShared
        · omega
      · have hNone : t.get? p = none := by
          cases hNode : t.get? p with
          | none => rfl
          | some n =>
              exact absurd
                ((t.contains_iff p).mpr ⟨n, hNode⟩)
                hContains
        simp [childIds, hNone]
    · intro h p _
      unfold siblingProblems
      rw [List.flatMap_eq_nil_iff]
      intro key _
      have hOne := h p key
      rw [if_neg (by omega)]

------------------------------------------------------------
-- Settings
------------------------------------------------------------

/- Only settings that cannot be written are errors. -/
private theorem errors_paramProblems
    (t : Flow) :
    errors t.paramProblems =
      t.nodes.entries.flatMap fun e =>
        settingProblems e.1 e.2 := by
  unfold paramProblems errors
  rw [List.filter_flatMap]
  congr 1
  funext e
  have hSettings :
      errors (settingProblems e.1 e.2) =
        settingProblems e.1 e.2 :=
    errors_eq_self (coded_settingProblems e.1 e.2) (by decide)
  have hMissing :
      errors
        ((e.2.kind.missingParams e.2.settings).map
          (.missingParam e.1 e.2.kind e.2.label)) = [] :=
    errors_eq_nil (coded_missingParams e.1 e.2) (by decide)
  have hBoth := errors_append (settingProblems e.1 e.2)
    ((e.2.kind.missingParams e.2.settings).map
      (.missingParam e.1 e.2.kind e.2.label))
  rw [hSettings, hMissing, List.append_nil] at hBoth
  exact hBoth

/- Children of a step that ends the call are no error. -/
private theorem errors_leafProblems
    (t : Flow) : errors t.leafProblems = [] :=
  errors_eq_nil t.coded_leafProblems (by decide)

/- Every setting of a node could be written. -/
theorem settingProblems_eq_nil_iff
    (id : String)
    (n : Node) :
    settingProblems id n = [] ↔
      n.kind.Admits n.settings := by
  unfold settingProblems
  rw [List.filterMap_eq_nil_iff]
  constructor
  · intro h name v hValue
    have hEntry :=
      h (name, v)
        ((n.settings.mem_entries_iff name v).mpr hValue)
    split at hEntry
    · rename_i hCheck
      exact hCheck
    · cases hEntry
  · rintro h ⟨name, v⟩ hEntry
    have hCheck :=
      h name v
        ((n.settings.mem_entries_iff name v).mp hEntry)
    simp [hCheck]

------------------------------------------------------------
-- The Whole Check
------------------------------------------------------------

/- A clean flow passes every part of the check for errors. -/
theorem clean_iff
    (t : Flow) :
    t.Clean ↔
      t.rootProblems = [] ∧ t.linkProblems = [] ∧
        t.cycleProblems = [] ∧ t.reachProblems = [] ∧
          t.keyProblems = [] ∧
            ∀ id n, t.get? id = some n →
              settingProblems id n = [] := by
  have hSettings :
      (t.nodes.entries.flatMap fun e =>
          settingProblems e.1 e.2) = [] ↔
        ∀ id n, t.get? id = some n →
          settingProblems id n = [] := by
    rw [List.flatMap_eq_nil_iff]
    constructor
    · intro h id n hNode
      exact h (id, n)
        ((t.nodes.mem_entries_iff id n).mpr hNode)
    · rintro h ⟨id, n⟩ hEntry
      exact h id n ((t.nodes.mem_entries_iff id n).mp hEntry)
  rw [clean_iff_errors_eq_nil, ← hSettings]
  unfold problems
  simp only [errors_append, errors_rootProblems,
    errors_linkProblems, errors_cycleProblems,
    errors_reachProblems, errors_keyProblems,
    errors_paramProblems, errors_leafProblems,
    List.append_nil, List.append_eq_nil_iff, and_assoc]

/- Two children with a key in common make a shared key. -/
theorem eq_of_length_filter_le_one
    {l : List String}
    {p : String → Bool}
    {a b : String}
    (hLength : (l.filter p).length ≤ 1)
    (ha : a ∈ l)
    (hb : b ∈ l)
    (hpa : p a = true)
    (hpb : p b = true) : a = b := by
  have hA : a ∈ l.filter p := List.mem_filter.mpr ⟨ha, hpa⟩
  have hB : b ∈ l.filter p := List.mem_filter.mpr ⟨hb, hpb⟩
  cases hList : l.filter p with
  | nil =>
      rw [hList] at hA
      cases hA
  | cons x rest =>
      rw [hList] at hA hB hLength
      have hRest : rest = [] := by
        apply List.eq_nil_of_length_eq_zero
        rw [List.length_cons] at hLength
        omega
      subst hRest
      rw [List.mem_singleton] at hA hB
      rw [hA, hB]

/- The first two parts of the check find what is linked. -/
theorem linked_iff
    (t : Flow) :
    t.Linked ↔ t.rootProblems = [] ∧ t.linkProblems = [] := by
  rw [rootProblems_eq_nil_iff, linkProblems_eq_nil_iff]
  constructor
  · intro h
    rcases (t.contains_iff t.rootId).mp h.root with
      ⟨n, hNode⟩
    have hNoParent := h.top
    rw [parentId?_of_get? hNode] at hNoParent
    exact ⟨⟨⟨n, hNode, hNoParent⟩, h.only⟩, h.links, h.once⟩
  · rintro ⟨⟨⟨n, hNode, hNoParent⟩, hOnly⟩, hAgree, hOnce⟩
    exact {
      root := (t.contains_iff t.rootId).mpr ⟨n, hNode⟩
      top := (parentId?_of_get? hNode).trans hNoParent
      only := hOnly
      links := hAgree
      once := hOnce }

/- A clean flow is sound. -/
theorem sound_of_clean
    (h : t.Clean) : t.Sound := by
  rcases (t.clean_iff).mp h with
    ⟨hRoots, hLinks, hCycles, hReach, hKeys, hSettings⟩
  have hLinked := (t.linked_iff).mpr ⟨hRoots, hLinks⟩
  rcases (t.keyProblems_eq_nil_iff).mp hKeys with
    ⟨hNoKey, hOneChild⟩
  rcases (t.contains_iff t.rootId).mp hLinked.root with
    ⟨root, hRoot⟩
  have hNoParent := hLinked.top
  rw [parentId?_of_get? hRoot] at hNoParent
  refine {
    root := ⟨root, hRoot, hNoParent, ?_⟩
    parented := ?_
    links := hLinked.links
    once := hLinked.once
    parents := fun p c => hLinked.parents
    climbs := ?_
    keys := ?_
    settings := ?_ }
  · simpa [hRoot] using hNoKey
  · intro id n hNode hNotRoot hParent
    apply hNotRoot
    refine hLinked.only id ?_ ?_
    · exact (t.contains_iff id).mpr ⟨n, hNode⟩
    · simp [parentId?, hNode, hParent]
  · intro id hContains
    rw [← hLinked.leads_iff,
      hLinked.leads_root_iff hContains]
    exact (t.cycleProblems_eq_nil_iff).mp hCycles id
      hContains
  · intro p key c₁ c₂ h₁ h₂ hKey₁ hKey₂
    exact eq_of_length_filter_le_one (hOneChild p key)
      h₁ h₂ hKey₁ hKey₂
  · intro id n hNode
    exact (settingProblems_eq_nil_iff id n).mp
      (hSettings id n hNode)

/- A sound flow is clean. -/
theorem Sound.clean
    (h : t.Sound) : t.Clean := by
  apply (t.clean_iff).mpr
  rcases (t.linked_iff).mp h.linked with ⟨hRoots, hLinks⟩
  refine ⟨hRoots, hLinks, ?_, ?_, ?_, ?_⟩
  · apply (t.cycleProblems_eq_nil_iff).mpr
    intro id hContains
    rcases h.climbs id hContains with ⟨k, hk⟩
    exact ⟨k, t.rootId, hk, h.parentId?_root⟩
  · apply (t.reachProblems_eq_nil_iff).mpr
    intro _ id hContains
    exact h.mem_preorder hContains
  · apply (t.keyProblems_eq_nil_iff).mpr
    constructor
    · rcases h.root with ⟨n, hNode, -, hKey⟩
      simp [hNode, hKey]
    · intro p key
      -- Distinct children with one key would be equal.
      have hNodup :=
        (h.once p).filter (t.hasKey key)
      cases hList : (t.childIds p).filter (t.hasKey key) with
      | nil => simp
      | cons a rest =>
          cases rest with
          | nil => simp
          | cons b rest =>
              rw [hList] at hNodup
              have hMem :
                  ∀ x ∈ a :: b :: rest,
                    x ∈ t.childIds p ∧
                      t.hasKey key x = true := by
                intro x hx
                rw [← hList] at hx
                exact List.mem_filter.mp hx
              rcases hMem a (by simp) with ⟨ha, hKeyA⟩
              rcases hMem b (by simp) with ⟨hb, hKeyB⟩
              have hSame :=
                h.keys p key a b ha hb hKeyA hKeyB
              subst hSame
              simp at hNodup
  · intro id n hNode
    apply (settingProblems_eq_nil_iff id n).mpr
    exact h.settings id n hNode

/-
  The check decides soundness: it reports no error about a
  flow exactly if the flow is sound.
-/
theorem error_free_iff_sound
    (t : Flow) :
    (∀ f ∈ t.findings, f.isError = false) ↔ t.Sound :=
  ⟨sound_of_clean, Sound.clean⟩

end Flow

end CallFlow
