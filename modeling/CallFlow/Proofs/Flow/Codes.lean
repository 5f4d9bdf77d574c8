import CallFlow.Flow.Check

/-
  The codes that the parts of the check report under.

  No two parts share a code, so the findings with a code are
  found by one part of the check.

  Main declarations:
    * `Problem.Coded`
    * `Flow.coded_rootProblems`
    * `Flow.coded_linkProblems`
    * `Flow.coded_keyProblems`
    * `Flow.coded_settingProblems`
    * `Flow.findings_cycle`
    * `Flow.findings_unreachable`
-/

namespace CallFlow

namespace Problem

/- Problems that have some codes and no others. -/
def Coded
    (codes : List Code)
    (problems : List Problem) : Prop :=
  ∀ p ∈ problems, p.code ∈ codes

namespace Coded

variable {codes : List Code}
variable {l l' : List Problem}

theorem nil : Coded codes [] :=
  nofun

theorem singleton
    {p : Problem}
    (h : p.code ∈ codes) : Coded codes [p] := by
  intro q hq
  rw [List.mem_singleton.mp hq]
  exact h

theorem append
    (h : Coded codes l)
    (h' : Coded codes l') : Coded codes (l ++ l') := by
  intro p hp
  rcases List.mem_append.mp hp with hp | hp
  · exact h p hp
  · exact h' p hp

theorem flatMap
    {α : Type}
    {items : List α}
    {f : α → List Problem}
    (h : ∀ a ∈ items, Coded codes (f a)) :
    Coded codes (items.flatMap f) := by
  intro p hp
  rcases List.mem_flatMap.mp hp with ⟨a, ha, hp⟩
  exact h a ha p hp

theorem map
    {α : Type}
    {items : List α}
    {f : α → Problem}
    (h : ∀ a ∈ items, (f a).code ∈ codes) :
    Coded codes (items.map f) := by
  intro p hp
  rcases List.mem_map.mp hp with ⟨a, ha, rfl⟩
  exact h a ha

/- Problems of two sorts. -/
theorem join
    {codes' : List Code}
    (h : Coded codes l)
    (h' : Coded codes' l') :
    Coded (codes ++ codes') (l ++ l') := by
  refine .append (fun p hp => ?_) fun p hp => ?_
  · exact List.mem_append_left codes' (h p hp)
  · exact List.mem_append_right codes (h' p hp)

/- Problems with other codes are not among these. -/
theorem filter_eq_nil
    (h : Coded codes l)
    {c : Code}
    (hOther : c ∉ codes) :
    (l.filter fun p => p.code == c) = [] := by
  rw [List.filter_eq_nil_iff]
  intro p hp hSame
  exact hOther (beq_iff_eq.mp hSame ▸ h p hp)

/- If there is just one code, all problems have it. -/
theorem filter_eq_self
    {c : Code}
    (h : Coded [c] l) :
    (l.filter fun p => p.code == c) = l := by
  rw [List.filter_eq_self]
  intro p hp
  exact beq_iff_eq.mpr (List.mem_singleton.mp (h p hp))

end Coded

end Problem

namespace Flow

open Problem

variable {t : Flow}

------------------------------------------------------------
-- Parts of the Check
------------------------------------------------------------

theorem coded_rootProblems
    (t : Flow) :
    Coded [.rootMissing, .rootHasParent, .multipleRoots]
      t.rootProblems := by
  refine .append ?_ ?_
  · split
    · exact .singleton (by simp [code])
    · split
      · exact .singleton (by simp [code])
      · exact .nil
  · split
    · exact .nil
    · exact .singleton (by simp [code])

/- What is said of the link from a node to its parent. -/
private theorem coded_parentProblems
    (t : Flow)
    (id : String)
    (n : Node) :
    Coded [.danglingParent, .danglingChild, .backReference]
      (t.parentProblems id n) := by
  unfold parentProblems
  split
  · exact .nil
  · split
    · exact .singleton (by simp [code])
    · split
      · exact .nil
      · exact .singleton (by simp [code])

/- What is said of the link from a node to a child. -/
private theorem coded_childProblems
    (t : Flow)
    (id : String)
    (n : Node)
    (child : String) :
    Coded [.danglingParent, .danglingChild, .backReference]
      (t.childProblems id n child) := by
  unfold childProblems
  split
  · exact .singleton (by simp [code])
  · split
    · exact .singleton (by simp [code])
    · split
      · exact .singleton (by simp [code])
      · exact .nil

theorem coded_linkProblems
    (t : Flow) :
    Coded [.danglingParent, .danglingChild, .backReference]
      t.linkProblems := by
  refine .flatMap fun e _ => .append ?_ ?_
  · exact t.coded_parentProblems e.1 e.2
  · exact .flatMap fun c _ =>
      t.coded_childProblems e.1 e.2 c

theorem coded_cycleProblems
    (t : Flow) : Coded [.cycle] t.cycleProblems :=
  .map fun _ _ => List.mem_cons_self

theorem coded_reachProblems
    (t : Flow) : Coded [.unreachable] t.reachProblems := by
  unfold reachProblems
  split
  · exact .map fun _ _ => List.mem_cons_self
  · exact .nil

theorem coded_keyProblems
    (t : Flow) :
    Coded [.rootKey, .duplicateKey, .duplicateFallback]
      t.keyProblems := by
  refine .append ?_ (.flatMap fun id _ =>
    .flatMap fun key _ => ?_)
  · split
    · exact .singleton (by simp [code])
    · exact .nil
  · dsimp only
    split
    · cases key <;>
        exact .singleton (by simp [sharedKey, code])
    · exact .nil

theorem coded_settingProblems
    (id : String)
    (n : Node) :
    Coded
      [.unknownParameter, .parameterKind, .parameterRange,
        .unsafeText]
      (settingProblems id n) := by
  intro p hp
  rcases List.mem_filterMap.mp hp with ⟨s, -, hs⟩
  split at hs
  · cases hs
  · rename_i e _
    cases hs
    cases e <;> simp [code, ParamError.code]

theorem coded_missingParams
    (id : String)
    (n : Node) :
    Coded [.missingParameter]
      ((n.kind.missingParams n.settings).map
        (.missingParam id n.kind n.label)) :=
  .map fun _ _ => List.mem_cons_self

theorem coded_leafProblems
    (t : Flow) :
    Coded [.leafWithChildren] t.leafProblems := by
  intro p hp
  rcases List.mem_filterMap.mp hp with ⟨e, -, he⟩
  split at he
  · cases he
    exact List.mem_cons_self
  · cases he

/- Both sorts of problems with the settings of nodes. -/
theorem coded_paramProblems
    (t : Flow) :
    Coded
      [.unknownParameter, .parameterKind, .parameterRange,
        .unsafeText, .missingParameter]
      t.paramProblems :=
  .flatMap fun e _ =>
    (coded_settingProblems e.1 e.2).join
      (coded_missingParams e.1 e.2)

------------------------------------------------------------
-- Findings with a Code
------------------------------------------------------------

/-
  The findings with a code are those of one part of the check
  if the parts before and after it have other codes.
-/
private theorem findings_of_part
    {before part after : List Problem}
    {codes codes' : List Code}
    {c : Code}
    (h : t.problems = before ++ part ++ after)
    (hBefore : Coded codes before)
    (hPart : Coded [c] part)
    (hAfter : Coded codes' after)
    (hNotBefore : c ∉ codes)
    (hNotAfter : c ∉ codes') :
    (t.findings.filter fun f => f.code == c) =
      part.map finding := by
  have hFilter :
      (t.problems.filter fun p => p.code == c) = part := by
    rw [h, List.filter_append, List.filter_append,
      hBefore.filter_eq_nil hNotBefore, hPart.filter_eq_self,
      hAfter.filter_eq_nil hNotAfter, List.nil_append,
      List.append_nil]
  unfold findings
  rw [List.filter_map]
  exact congrArg (List.map finding) hFilter

/- The findings of cycles come from looking for cycles. -/
theorem findings_cycle
    (t : Flow) :
    (t.findings.filter fun f => f.code == .cycle) =
      t.cycleProblems.map finding := by
  have hParts :
      t.problems =
        (t.rootProblems ++ t.linkProblems) ++
          t.cycleProblems ++
            (t.reachProblems ++ (t.keyProblems ++
              (t.paramProblems ++ t.leafProblems))) := by
    simp only [problems, List.append_assoc]
  exact findings_of_part hParts
    (t.coded_rootProblems.join t.coded_linkProblems)
    t.coded_cycleProblems
    (t.coded_reachProblems.join (t.coded_keyProblems.join
      (t.coded_paramProblems.join t.coded_leafProblems)))
    (by decide) (by decide)

/- Those of unreachable nodes come from looking for them. -/
theorem findings_unreachable
    (t : Flow) :
    (t.findings.filter fun f => f.code == .unreachable) =
      t.reachProblems.map finding := by
  have hParts :
      t.problems =
        (t.rootProblems ++ (t.linkProblems ++
            t.cycleProblems)) ++
          t.reachProblems ++
            (t.keyProblems ++
              (t.paramProblems ++ t.leafProblems)) := by
    simp only [problems, List.append_assoc]
  exact findings_of_part hParts
    (t.coded_rootProblems.join (t.coded_linkProblems.join
      t.coded_cycleProblems))
    t.coded_reachProblems
    (t.coded_keyProblems.join
      (t.coded_paramProblems.join t.coded_leafProblems))
    (by decide) (by decide)

/- The findings with a code, one by one. -/
theorem mem_findings_iff_of_filter
    {c : Code}
    {part : List Problem}
    (h :
      (t.findings.filter fun f => f.code == c) =
        part.map finding)
    (f : Finding) :
    f ∈ t.findings ∧ f.code = c ↔
      ∃ p ∈ part, p.finding = f := by
  rw [← List.mem_map, ← h, List.mem_filter, beq_iff_eq]

end Flow

end CallFlow
