import CallFlow.Proofs.Flow.Patching
import CallFlow.Proofs.Flow.Subtrees

/-
  Edits of independent nodes can be made in either order.

  What an edit does to a flow can be said node by node: a
  change overwrites one node, and a deletion drops the nodes
  of one subtree and takes its top out of all lists of
  children.  Any two such effects commute.  What is left to
  see is that an edit does the same, and is accepted alike,
  before and after the other one.  That depends on the subtree
  of its node only, and of two nodes neither of which is below
  the other each has its subtree left alone.

  Main declarations:
    * `NodeEdit`
    * `Flow.edit`
    * `NodeEdit.effect`
    * `NodeEdit.effect_comm`
    * `Flow.Affected`
    * `Flow.Sound.get?_of_edit_apart`
    * `Flow.Sound.exists_edit_apart_iff`
    * `Flow.independent_edits_commute`
-/

namespace CallFlow

/-
  What is done to one node: it is changed by a patch that says
  nothing about its key, or deleted with everything below it.
-/
inductive NodeEdit where
  | change (p : Patch) (keyless : p.key = none)
  | delete

namespace Flow

/- Change or delete a node, with the ids that are removed. -/
def edit
    (t : Flow)
    (id : String) :
    NodeEdit → Except EditFailure (Flow × List String)
  | .change p _ => do return (← t.update id p, [])
  | .delete => t.delete id

/- The ids that an edit of a node removes. -/
def removedBy
    (t : Flow)
    (id : String) : NodeEdit → List String
  | .change _ _ => []
  | .delete => t.subtree id

end Flow

------------------------------------------------------------
-- Effects on Nodes
------------------------------------------------------------

namespace NodeEdit

/- What an edit asks of the node. -/
def Fits
    (rootId id : String)
    (n : Node) : NodeEdit → Prop
  | change p _ =>
      ∀ entry ∈ p.settings.entries, (p.kindOf n).Allows entry
  | delete => id ≠ rootId

/-
  What becomes of a node by an edit of one whose subtree is
  given.
-/
def effect
    (id : String)
    (run : List String)
    (x : String)
    (n : Node) : NodeEdit → Option Node
  | change p _ => some (if x = id then p.overwrite n else n)
  | delete =>
      if x ∈ run then none
      else
        some
          { n with children := n.children.filter (· != id) }

/-
  Effects commute: a patch leaves the children of a node, and
  two nodes can be taken out of a list in either order.
-/
theorem effect_comm
    {A B : NodeEdit}
    {a b : String}
    (hNe : a ≠ b)
    (runA runB : List String)
    (x : String)
    (n : Node) :
    ((A.effect a runA x n).bind fun m =>
        B.effect b runB x m) =
      (B.effect b runB x n).bind fun m =>
        A.effect a runA x m := by
  cases A with
  | change p hp =>
      cases B with
      | change q hq =>
          by_cases hA : x = a
          · have hB : x ≠ b := fun hSame =>
              hNe (hA.symm.trans hSame)
            simp [effect, hA, hA ▸ hB]
          · simp [effect, hA]
      | delete =>
          by_cases hRun : x ∈ runB
          · simp [effect, hRun]
          · by_cases hA : x = a
            · simp only [effect, if_neg hRun, if_pos hA]
              rfl
            · simp [effect, hRun, hA]
  | delete =>
      cases B with
      | change q hq =>
          by_cases hRun : x ∈ runA
          · simp [effect, hRun]
          · by_cases hB : x = b
            · simp only [effect, if_neg hRun, if_pos hB]
              rfl
            · simp [effect, hRun, hB]
      | delete =>
          by_cases hRunA : x ∈ runA <;>
            by_cases hRunB : x ∈ runB <;>
              simp [effect, hRunA, hRunB, Bool.and_comm]

end NodeEdit

namespace Flow

variable {t t' t'' t₁ t₂ : Flow}
variable {A B : NodeEdit}
variable {a b id : String}
variable {gone goneA goneB : List String}

/- A flow one version on, with an effect on each node. -/
structure Affected
    (t t' : Flow)
    (effect : String → Node → Option Node) : Prop where
  name : t'.name = t.name
  rootId : t'.rootId = t.rootId
  nextId : t'.nextId = t.nextId
  version : t'.version = t.version + 1
  get? : ∀ x, t'.get? x = (t.get? x).bind (effect x)

/- Two effects that commute leave the same in either order. -/
theorem Affected.comm
    {f g : String → Node → Option Node}
    {t₁' t₂' : Flow}
    (hFirst : Affected t t₁ f)
    (hSecond : Affected t₁ t₂ g)
    (hFirst' : Affected t t₁' g)
    (hSecond' : Affected t₁' t₂' f)
    (hComm :
      ∀ x n, (f x n).bind (g x) = (g x n).bind (f x)) :
    t₂' = t₂ := by
  have hNodes : t₂'.nodes = t₂.nodes := by
    apply NameMap.ext_get?
    intro x
    show t₂'.get? x = t₂.get? x
    rw [hSecond'.get?, hFirst'.get?, hSecond.get?,
      hFirst.get?, Option.bind_assoc, Option.bind_assoc]
    simp only [hComm]
  have hName := hSecond'.name.trans hFirst'.name
  have hRootId := hSecond'.rootId.trans hFirst'.rootId
  have hNextId := hSecond'.nextId.trans hFirst'.nextId
  have hVersion := hSecond'.version
  rw [hFirst'.version, ← hFirst.version, ← hSecond.version]
    at hVersion
  rw [← hFirst.name, ← hSecond.name] at hName
  rw [← hFirst.rootId, ← hSecond.rootId] at hRootId
  rw [← hFirst.nextId, ← hSecond.nextId] at hNextId
  cases t₂'
  cases t₂
  simp_all

------------------------------------------------------------
-- Edits of Nodes
------------------------------------------------------------

/- Everything about an edit of a node that is accepted. -/
theorem Sound.of_edit_eq_ok
    (h : t.Sound)
    (hEdit : t.edit id A = .ok (t', gone)) :
    ∃ n, t.get? id = some n ∧ A.Fits t.rootId id n ∧
      t.HasNext ∧ gone = t.removedBy id A ∧
      Affected t t' fun x n =>
        A.effect id (t.subtree id) x n := by
  cases A with
  | change p hKeyless =>
      rcases bind_eq_ok_iff.mp hEdit with
        ⟨t₁, hUpdate, ⟨⟩⟩
      rcases update_eq_ok_iff.mp hUpdate with
        ⟨n, hNode, hSettings, -, hNext, hResult⟩
      refine ⟨n, hNode, hSettings, hNext, rfl, ?_⟩
      have hNodes := get?_of_update hNode hUpdate
      subst hResult
      refine ⟨rfl, rfl, rfl, rfl, fun x => ?_⟩
      rw [hNodes]
      by_cases hHere : x = id
      · simp [NodeEdit.effect, hHere, hNode]
      · simp [NodeEdit.effect, hHere]
  | delete =>
      have hCut := h.cut_of_delete hEdit
      rcases delete_eq_ok hEdit with
        ⟨n, hNode, hNotRoot, rfl, hNext, hResult⟩
      refine ⟨n, hNode, hNotRoot, hNext, rfl, ?_⟩
      subst hResult
      refine ⟨rfl, rfl, rfl, rfl, fun x => ?_⟩
      by_cases hRun : x ∈ t.subtree id
      · rcases h.mem_subtree_iff.mp hRun with ⟨k, hk⟩
        rw [hCut.gone k x hk]
        simp [NodeEdit.effect, hRun]
      · have hKept : ∀ k, t.ancestor? k x ≠ some id :=
          not_exists.mp (mt h.mem_subtree_iff.mpr hRun)
        rw [hCut.kept x hKept]
        cases t.get? x <;> simp [NodeEdit.effect, hRun]

/- What fits a node is accepted if there is a next version. -/
theorem exists_edit
    {n : Node}
    (hNext : t.HasNext)
    (hNode : t.get? id = some n)
    (hFits : A.Fits t.rootId id n) :
    ∃ t', t.edit id A = .ok (t', t.removedBy id A) := by
  cases A with
  | change p hKeyless =>
      have hKey : t.AllowsKey id n p.key :=
        hKeyless ▸ t.allowsKey_none id n
      have hUpdate : t.update id p = .ok _ :=
        update_eq_ok_iff.mpr
          ⟨n, hNode, hFits, hKey, hNext, rfl⟩
      exact ⟨_, bind_eq_ok_iff.mpr ⟨_, hUpdate, rfl⟩⟩
  | delete =>
      exact exists_delete hNext
        ((t.contains_iff id).mpr ⟨n, hNode⟩) hFits

/-
  Whether an edit is accepted, and what it removes, depends on
  its node and on the ids below, where there is a next
  version.
-/
theorem Sound.exists_edit_iff
    (h : t.Sound) :
    (∃ t', t.edit id A = .ok (t', gone)) ↔
      t.HasNext ∧
        ∃ n, t.get? id = some n ∧ A.Fits t.rootId id n ∧
          gone = t.removedBy id A := by
  constructor
  · rintro ⟨t', hEdit⟩
    rcases h.of_edit_eq_ok hEdit with
      ⟨n, hNode, hFits, hNext, hGone, -⟩
    exact ⟨hNext, n, hNode, hFits, hGone⟩
  · rintro ⟨hNext, n, hNode, hFits, rfl⟩
    exact exists_edit hNext hNode hFits

/- What an accepted edit does to each node. -/
theorem Sound.affected_of_edit
    (h : t.Sound)
    (hEdit : t.edit id A = .ok (t', gone)) :
    Affected t t' fun x n =>
      A.effect id (t.subtree id) x n := by
  rcases h.of_edit_eq_ok hEdit with
    ⟨-, -, -, -, -, hAffected⟩
  exact hAffected

/- An edit of a node leaves a sound flow. -/
theorem Sound.edit
    (h : t.Sound)
    (hEdit : t.edit id A = .ok (t', gone)) : t'.Sound := by
  cases A with
  | change p hKeyless =>
      rcases bind_eq_ok_iff.mp hEdit with
        ⟨t₁, hUpdate, ⟨⟩⟩
      exact h.update hUpdate
  | delete => exact h.delete hEdit

------------------------------------------------------------
-- Independent Nodes
------------------------------------------------------------

/-
  Subtrees of nodes neither of which is below the other have
  no node in common: of two nodes above another one is above
  the other.
-/
theorem Sound.not_mem_subtree_of_apart
    {x : String}
    (h : t.Sound)
    (hA : a ∉ t.subtree b)
    (hB : b ∉ t.subtree a)
    (hx : x ∈ t.subtree a) : x ∉ t.subtree b := by
  rw [h.mem_subtree_iff] at *
  rcases hx with ⟨j, hj⟩
  rintro ⟨k, hk⟩
  rcases Nat.le_total j k with hLe | hLe
  · refine hA ⟨k - j, ?_⟩
    rw [← Nat.add_sub_cancel' hLe, ancestor?_add, hj] at hk
    exact hk
  · refine hB ⟨j - k, ?_⟩
    rw [← Nat.add_sub_cancel' hLe, ancestor?_add, hk] at hj
    exact hj

/- An edit of a node leaves the subtrees of others alone. -/
theorem Sound.get?_of_edit_apart
    (h : t.Sound)
    (hA : a ∉ t.subtree b)
    (hB : b ∉ t.subtree a)
    (hEdit : t.edit b B = .ok (t', gone)) :
    ∀ x ∈ t.subtree a, t'.get? x = t.get? x := by
  intro x hx
  rw [(h.affected_of_edit hEdit).get?]
  cases hNode : t.get? x with
  | none => rfl
  | some n =>
      cases B with
      | change p hKeyless =>
          have hNe : x ≠ b := fun hSame => hB (hSame ▸ hx)
          simp [NodeEdit.effect, hNe]
      | delete =>
          have hOutside :=
            h.not_mem_subtree_of_apart hA hB hx
          have hUnlisted : b ∉ n.children := by
            rw [← childIds_of_get? hNode]
            exact fun hChild =>
              hB (h.childIds_subset_subtree x hx b hChild)
          have hChildren :
              n.children.filter (· != b) = n.children := by
            rw [List.filter_eq_self]
            intro c hChild
            have hNe : c ≠ b := fun hSame =>
              hUnlisted (hSame ▸ hChild)
            simpa using hNe
          simp [NodeEdit.effect, hOutside, hChildren]

/- So their subtrees list the same. -/
theorem Sound.subtree_of_edit_apart
    (h : t.Sound)
    (hA : a ∉ t.subtree b)
    (hB : b ∉ t.subtree a)
    (hEdit : t.edit b B = .ok (t', gone)) :
    t'.subtree a = t.subtree a := by
  have hSame := h.get?_of_edit_apart hA hB hEdit
  refine h.subtree_congr (h.edit hEdit)
    h.childIds_subset_subtree (fun x hx => ?_)
    List.mem_cons_self
  unfold childIds
  rw [hSame x hx]

/- And what is removed with them is the same. -/
theorem Sound.removedBy_of_edit_apart
    (h : t.Sound)
    (hA : a ∉ t.subtree b)
    (hB : b ∉ t.subtree a)
    (hEdit : t.edit b B = .ok (t', gone)) :
    t'.removedBy a A = t.removedBy a A := by
  cases A with
  | change p hKeyless => rfl
  | delete => exact h.subtree_of_edit_apart hA hB hEdit

/-
  So an edit of a node is accepted after an edit of the other
  one, and removes the same, exactly if it does so before that
  and there is a version after both.
-/
theorem Sound.exists_edit_apart_iff
    (h : t.Sound)
    (hA : a ∉ t.subtree b)
    (hB : b ∉ t.subtree a)
    (hEdit : t.edit b B = .ok (t', goneB)) :
    (∃ t'', t'.edit a A = .ok (t'', goneA)) ↔
      t'.HasNext ∧ ∃ t'', t.edit a A = .ok (t'', goneA) := by
  rcases h.of_edit_eq_ok hEdit with ⟨-, -, -, hNext, -⟩
  rw [(h.edit hEdit).exists_edit_iff, h.exists_edit_iff,
    h.get?_of_edit_apart hA hB hEdit a List.mem_cons_self,
    (h.affected_of_edit hEdit).rootId,
    h.removedBy_of_edit_apart hA hB hEdit,
    and_iff_right hNext]

/-
  Two nodes of a flow that a program can get to, neither of
  them below the other, are each changed, but for their keys,
  or deleted.  What is accepted in one order is accepted in
  the other one, removes the same and leaves the same flow.
-/
theorem independent_edits_commute
    (hReachable : t.Reachable)
    (hNe : a ≠ b)
    (hNotBelow : a ∉ t.descendants b)
    (hNotAbove : b ∉ t.descendants a)
    (hFirst : t.edit a A = .ok (t₁, goneA))
    (hSecond : t₁.edit b B = .ok (t₂, goneB)) :
    ∃ t₁', t.edit b B = .ok (t₁', goneB) ∧
      t₁'.edit a A = .ok (t₂, goneA) := by
  have h := hReachable.sound
  have hA : a ∉ t.subtree b := by
    simp [subtree, hNe, hNotBelow]
  have hB : b ∉ t.subtree a := by
    simp [subtree, hNe.symm, hNotAbove]
  rcases (h.exists_edit_apart_iff hB hA hFirst).mp
    ⟨t₂, hSecond⟩ with ⟨hNext, t₁', hFirst'⟩
  -- The first edit leads to the same version, whichever it is.
  have hNext' : t₁'.HasNext := by
    unfold HasNext at *
    rwa [(h.affected_of_edit hFirst').version,
      ← (h.affected_of_edit hFirst).version]
  rcases (h.exists_edit_apart_iff hA hB hFirst').mpr
    ⟨hNext', t₁, hFirst⟩ with ⟨t₂', hSecond'⟩
  -- Each edit does the same, whether it comes first or second.
  have hAffectedB := (h.edit hFirst).affected_of_edit hSecond
  rw [h.subtree_of_edit_apart hB hA hFirst] at hAffectedB
  have hAffectedA :=
    (h.edit hFirst').affected_of_edit hSecond'
  rw [h.subtree_of_edit_apart hA hB hFirst'] at hAffectedA
  have hSame : t₂' = t₂ :=
    (h.affected_of_edit hFirst).comm hAffectedB
      (h.affected_of_edit hFirst') hAffectedA
      fun x n => NodeEdit.effect_comm hNe _ _ x n
  exact ⟨t₁', hFirst', hSame ▸ hSecond'⟩

/-
  Two entries of the root are deleted, one of them a menu with
  an entry of its own.
-/
theorem independent_edits_commute_siblings :
    let t := (Flow.new "Hotline").run
      [.add firstRootId .playback "More" (some (.digit 1)),
        .add "n1" .hangup "Bye" none,
        .add firstRootId .agent "Sales" (some (.digit 2)),
        .add firstRootId .agent "Office" (some (.digit 3))]
    let t₁ := t.after (.delete "n1")
    let t₂ := t₁.after (.delete "n3")
    t.Reachable ∧
      "n1" ∉ t.descendants "n3" ∧ "n3" ∉ t.descendants "n1" ∧
      t.edit "n1" .delete = .ok (t₁, ["n1", "n2"]) ∧
      t₁.edit "n3" .delete = .ok (t₂, ["n3"]) ∧
      t₂.preorder = [firstRootId, "n4"] ∧
      ∃ t₁', t.edit "n3" .delete = .ok (t₁', ["n3"]) ∧
        t₁'.edit "n1" .delete = .ok (t₂, ["n1", "n2"]) := by
  intro t t₁ t₂
  have hReachable : t.Reachable :=
    ⟨Flow.new "Hotline", _, Or.inl ⟨"Hotline", rfl⟩, rfl⟩
  have hNotBelow : "n1" ∉ t.descendants "n3" := by
    decide +kernel
  have hNotAbove : "n3" ∉ t.descendants "n1" := by
    decide +kernel
  have hFirst :
      t.edit "n1" .delete = .ok (t₁, ["n1", "n2"]) := by rfl
  have hSecond : t₁.edit "n3" .delete = .ok (t₂, ["n3"]) := by
    rfl
  exact
    ⟨hReachable, hNotBelow, hNotAbove, hFirst, hSecond,
      by decide +kernel,
      independent_edits_commute hReachable (by decide)
        hNotBelow hNotAbove hFirst hSecond⟩

end Flow

end CallFlow
