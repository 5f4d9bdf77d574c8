import CallFlow.Proofs.Flow.Circles

/-
  Nodes that the root does not lead to, and cycles.

  The check looks for the one along the lists of children and
  for the other along the chains of parents.  Where the links
  agree, both look at the same ways from two ends.  A node is
  not led to exactly if its chain of parents does not end,
  and such a chain runs into a circle, since nodes are but
  finitely many.

  Main declarations:
    * `Flow.runs_into_circle_iff`
    * `Flow.mem_findings_unreachable_iff`
    * `Flow.perm_preorder_iff`
    * `Flow.Linked.unreachable_about_iff`
    * `Flow.Linked.exists_unreachable_iff_cycle`
    * `Flow.unreachable_iff_cycle`
-/

namespace CallFlow

namespace Flow

variable {t : Flow}

------------------------------------------------------------
-- Chains That Do Not End
------------------------------------------------------------

/- A chain of parents runs into a circle, or it ends. -/
theorem runs_into_circle_iff
    (t : Flow)
    (id : String) :
    (∃ ring, t.Circle ring ∧
        ∃ m ∈ ring, ∃ k, t.ancestor? k id = some m) ↔
      ¬ ∃ k top, t.ancestor? k id = some top ∧
        t.parentId? top = none := by
  rw [← loop?_eq_none_iff]
  constructor
  · rintro ⟨ring, hRing, m, hm, k, hk⟩
    rw [hRing.loop?_eq hm hk]
    exact Option.some_ne_none _
  · intro hLoop
    rcases Option.ne_none_iff_exists'.mp hLoop with
      ⟨members, hMembers⟩
    rcases exists_circle_of_loop? hMembers with
      ⟨ring, hRing, -, hRuns⟩
    exact ⟨ring, hRing, hRuns⟩

/- The circle is reported with all of its ids. -/
theorem runs_into_circle_iff_findings
    (t : Flow)
    (id : String) :
    (∃ ring, t.Circle ring ∧
        ∃ m ∈ ring, ∃ k, t.ancestor? k id = some m) ↔
      ∃ f ∈ t.findings, f.code = .cycle ∧
        ∃ m ∈ f.nodes, ∃ k, t.ancestor? k id = some m := by
  constructor
  · rintro ⟨ring, hRing, m, hm, hRuns⟩
    rcases (t.mem_findings_cycle_iff _).mpr
      ⟨ring, hRing, rfl⟩ with ⟨hf, hCode⟩
    exact ⟨_, hf, hCode, m,
      (mem_inNameOrder_iff ring m).mpr hm, hRuns⟩
  · rintro ⟨f, hf, hCode, m, hm, hRuns⟩
    rcases (t.mem_findings_cycle_iff f).mp ⟨hf, hCode⟩ with
      ⟨ring, hRing, rfl⟩
    exact ⟨ring, hRing, m,
      (mem_inNameOrder_iff ring m).mp hm, hRuns⟩

------------------------------------------------------------
-- Nodes That Are Not Listed
------------------------------------------------------------

/- Unreachable nodes are reported if the root is a node. -/
theorem mem_findings_unreachable_iff
    (hRoot : t.contains t.rootId = true)
    (f : Finding) :
    f ∈ t.findings ∧ f.code = .unreachable ↔
      ∃ id, t.contains id = true ∧ id ∉ t.preorder ∧
        f = (Problem.unreachable id).finding := by
  rw [mem_findings_iff_of_filter t.findings_unreachable]
  unfold reachProblems
  rw [if_pos hRoot]
  constructor
  · rintro ⟨p, hp, rfl⟩
    rcases List.mem_map.mp hp with ⟨id, hMem, rfl⟩
    rw [List.mem_filter, NameMap.mem_names_iff] at hMem
    exact ⟨id, hMem.1, by simpa using hMem.2, rfl⟩
  · rintro ⟨id, hContains, hNot, rfl⟩
    refine ⟨_, List.mem_map.mpr ⟨id, ?_, rfl⟩, rfl⟩
    rw [List.mem_filter, NameMap.mem_names_iff]
    exact ⟨hContains, by simpa using hNot⟩

/- So a node is reported exactly if it is not listed. -/
theorem exists_unreachable_about_iff
    (hRoot : t.contains t.rootId = true)
    (id : String) :
    (∃ f ∈ t.findings,
        f.code = .unreachable ∧ f.nodes = [id]) ↔
      t.contains id = true ∧ id ∉ t.preorder := by
  constructor
  · rintro ⟨f, hf, hCode, hNodes⟩
    rcases (mem_findings_unreachable_iff hRoot f).mp
      ⟨hf, hCode⟩ with ⟨id', hContains, hNot, rfl⟩
    rw [List.singleton_inj.mp hNodes] at hContains hNot
    exact ⟨hContains, hNot⟩
  · rintro ⟨hContains, hNot⟩
    rcases (mem_findings_unreachable_iff hRoot _).mpr
      ⟨id, hContains, hNot, rfl⟩ with ⟨hf, hCode⟩
    exact ⟨_, hf, hCode, rfl⟩

/- Each of these findings is about one node. -/
theorem exists_unreachable_iff
    (hRoot : t.contains t.rootId = true) :
    (∃ f ∈ t.findings, f.code = .unreachable) ↔
      ∃ id, ∃ f ∈ t.findings,
        f.code = .unreachable ∧ f.nodes = [id] := by
  constructor
  · rintro ⟨f, hf, hCode⟩
    rcases (mem_findings_unreachable_iff hRoot f).mp
      ⟨hf, hCode⟩ with ⟨id, -, -, rfl⟩
    exact ⟨id, _, hf, hCode, rfl⟩
  · rintro ⟨id, f, hf, hCode, -⟩
    exact ⟨f, hf, hCode⟩

/- If none is reported, each node is listed once. -/
theorem perm_preorder_iff
    (hRoot : t.contains t.rootId = true) :
    t.preorder.Perm t.nodes.names ↔
      ¬ ∃ f ∈ t.findings, f.code = .unreachable := by
  rw [List.perm_ext_iff_of_nodup t.nodup_preorder
    t.nodes.nodup_names, exists_unreachable_iff hRoot]
  simp only [exists_unreachable_about_iff hRoot, not_exists,
    NameMap.mem_names_iff]
  refine forall_congr' fun id => ?_
  have hNode : id ∈ t.preorder → t.contains id = true :=
    fun hListed => ((t.mem_preorder_iff id).mp hListed).2
  constructor
  · rintro h ⟨hContains, hNot⟩
    exact hNot (h.mpr hContains)
  · intro h
    refine ⟨hNode, fun hContains => ?_⟩
    by_contra hNot
    exact h ⟨hContains, hNot⟩

namespace Linked

/-
  A node is reported exactly if its chain of parents runs
  into a cycle that is reported.
-/
theorem unreachable_about_iff
    (h : t.Linked)
    (id : String) :
    (∃ f ∈ t.findings,
        f.code = .unreachable ∧ f.nodes = [id]) ↔
      ∃ f ∈ t.findings, f.code = .cycle ∧
        ∃ m ∈ f.nodes, ∃ k, t.ancestor? k id = some m := by
  rw [exists_unreachable_about_iff h.root,
    ← runs_into_circle_iff_findings, mem_preorder_iff]
  constructor
  · rintro ⟨hContains, hNot⟩
    refine (t.runs_into_circle_iff id).mpr ?_
    rw [← h.leads_root_iff hContains]
    exact fun hLeads => hNot ⟨hLeads, hContains⟩
  · intro hRuns
    have hContains : t.contains id = true := by
      rcases hRuns with ⟨ring, hRing, m, hm, k, hk⟩
      exact hRing.contains_of_ancestor? hm hk
    refine ⟨hContains, fun hListed => ?_⟩
    exact (t.runs_into_circle_iff id).mp hRuns
      ((h.leads_root_iff hContains).mp hListed.1)

/- There are such nodes exactly if there are cycles. -/
theorem exists_unreachable_iff_cycle
    (h : t.Linked) :
    (∃ f ∈ t.findings, f.code = .unreachable) ↔
      ∃ f ∈ t.findings, f.code = .cycle := by
  rw [exists_unreachable_iff h.root]
  simp only [h.unreachable_about_iff]
  constructor
  · rintro ⟨-, f, hf, hCode, -⟩
    exact ⟨f, hf, hCode⟩
  · -- A cycle has ids, and their chains start on it.
    rintro ⟨f, hf, hCode⟩
    rcases (t.mem_findings_cycle_iff f).mp ⟨hf, hCode⟩ with
      ⟨ring, hRing, rfl⟩
    rcases List.exists_mem_of_ne_nil ring hRing.nonempty
      with ⟨m, hm⟩
    exact ⟨m, _, hf, hCode, m,
      (mem_inNameOrder_iff ring m).mpr hm, 0, rfl⟩

end Linked

------------------------------------------------------------
-- Both Checks
------------------------------------------------------------

/-
  In a flow whose root and links are in order, just the nodes
  whose chain of parents runs into a reported cycle are
  reported as unreachable.  So there are nodes of this sort
  if and only if there are cycles, and if there are neither,
  then the pre-order lists every node once.
-/
theorem unreachable_iff_cycle
    (hRoots : t.rootProblems = [])
    (hLinks : t.linkProblems = []) :
    (∀ id,
      (∃ f ∈ t.findings,
          f.code = .unreachable ∧ f.nodes = [id]) ↔
        ∃ f ∈ t.findings, f.code = .cycle ∧
          ∃ m ∈ f.nodes, ∃ k, t.ancestor? k id = some m) ∧
    ((∃ f ∈ t.findings, f.code = .unreachable) ↔
      ∃ f ∈ t.findings, f.code = .cycle) ∧
    (t.preorder.Perm t.nodes.names ↔
      ∀ f ∈ t.findings,
        f.code ≠ .unreachable ∧ f.code ≠ .cycle) := by
  have hLinked := (t.linked_iff).mpr ⟨hRoots, hLinks⟩
  have hBoth := hLinked.exists_unreachable_iff_cycle
  refine ⟨hLinked.unreachable_about_iff, hBoth, ?_⟩
  rw [perm_preorder_iff hLinked.root]
  constructor
  · intro h f hf
    exact ⟨fun hCode => h ⟨f, hf, hCode⟩,
      fun hCode => h (hBoth.mpr ⟨f, hf, hCode⟩)⟩
  · rintro h ⟨f, hf, hCode⟩
    exact (h f hf).1 hCode

/-
  A flow of a root and, apart from it, two nodes that are
  each other's parents, with another one below them.
-/
def adrift : Flow where
  name := ""
  rootId := "r"
  nodes := NameMap.ofList
    [("r", ⟨.playback, "", .empty, none, none, []⟩),
      ("a", ⟨.playback, "", .empty, none, some "b", ["b"]⟩),
      ("b", ⟨.playback, "", .empty, none, some "a",
        ["a", "c"]⟩),
      ("c", ⟨.playback, "", .empty, none, some "b", []⟩)]
  nextId := 1
  version := 0

/- The node below is reported, since they are. -/
theorem unreachable_iff_cycle_adrift :
    adrift.rootProblems = [] ∧ adrift.linkProblems = [] ∧
      (Problem.cycle ["a", "b"]).finding ∈ adrift.findings ∧
        ∃ f ∈ adrift.findings,
          f.code = .unreachable ∧ f.nodes = ["c"] := by
  have hRoots : adrift.rootProblems = [] := by decide
  have hLinks : adrift.linkProblems = [] := by decide
  have hCycle :
      (Problem.cycle ["a", "b"]).finding ∈
        adrift.findings := by decide
  refine ⟨hRoots, hLinks, hCycle, ?_⟩
  refine ((unreachable_iff_cycle hRoots hLinks).1 "c").mpr ?_
  exact ⟨_, hCycle, rfl, "b", by decide, 1, by decide⟩

end Flow

end CallFlow
