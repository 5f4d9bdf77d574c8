import CallFlow.Flow.Check
import CallFlow.Proofs.NameMap

/-
  Chains of parents.

  A chain that ends at a node without a parent never comes
  back to one of its nodes, and is shorter than there are
  nodes.  A chain that does not end comes back, and the check
  for cycles finds out within its bound.

  Main declarations:
    * `Flow.contains_iff`
    * `Flow.parentId?_of_get?`
    * `Flow.childIds_of_get?`
    * `Flow.ancestor?`
    * `Flow.steps_unique`
    * `Flow.steps_lt_size`
    * `Flow.ancestor?_congr`
    * `Flow.loop?_eq_none_iff`
-/

namespace CallFlow

namespace Flow

variable {t : Flow}

/- A flow contains the ids that a node is found under. -/
theorem contains_eq_isSome
    (t : Flow)
    (id : String) :
    t.contains id = (t.get? id).isSome :=
  rfl

/- Each of these ids is that of a node. -/
theorem contains_iff
    (t : Flow)
    (id : String) :
    t.contains id = true ↔ ∃ n, t.get? id = some n :=
  t.nodes.contains_iff id

/- A node names its parent. -/
theorem parentId?_of_get?
    {id : String}
    {n : Node}
    (h : t.get? id = some n) : t.parentId? id = n.parent := by
  unfold parentId?
  rw [h, Option.bind_some]

/- A node lists its children. -/
theorem childIds_of_get?
    {id : String}
    {n : Node}
    (h : t.get? id = some n) :
    t.childIds id = n.children := by
  unfold childIds
  rw [h]

/- What is a child is listed by a node. -/
theorem exists_of_mem_childIds
    {p c : String}
    (h : c ∈ t.childIds p) :
    ∃ n, t.get? p = some n ∧ c ∈ n.children := by
  unfold childIds at h
  cases hNode : t.get? p with
  | none => simp [hNode] at h
  | some n =>
      rw [hNode] at h
      exact ⟨n, rfl, h⟩

------------------------------------------------------------
-- Steps Upward
------------------------------------------------------------

/- The id that a number of steps to parents leads to. -/
def ancestor?
    (t : Flow) : Nat → String → Option String
  | 0, id => some id
  | steps + 1, id =>
      (t.parentId? id).bind (ancestor? t steps)

@[simp] theorem ancestor?_zero
    (t : Flow)
    (id : String) : t.ancestor? 0 id = some id :=
  rfl

/- One step up comes before the others. -/
theorem ancestor?_succ
    {id p : String}
    (hParent : t.parentId? id = some p)
    (steps : Nat) :
    t.ancestor? (steps + 1) id = t.ancestor? steps p := by
  simp [ancestor?, hParent]

/- Steps that lead anywhere start with the step to a parent. -/
theorem exists_parentId?_of_ancestor?_succ
    {steps : Nat}
    {id a : String}
    (h : t.ancestor? (steps + 1) id = some a) :
    ∃ p, t.parentId? id = some p ∧
      t.ancestor? steps p = some a :=
  Option.bind_eq_some_iff.mp h

/- Steps can be taken in two parts. -/
theorem ancestor?_add
    (t : Flow)
    (j k : Nat)
    (id : String) :
    t.ancestor? (j + k) id =
      (t.ancestor? j id).bind (t.ancestor? k) := by
  induction j generalizing id with
  | zero => simp
  | succ j ih =>
      rw [Nat.succ_add]
      cases hParent : t.parentId? id with
      | none => simp [ancestor?, hParent]
      | some p =>
          rw [ancestor?_succ hParent, ancestor?_succ hParent]
          exact ih p

/- Steps after steps. -/
theorem ancestor?_trans
    {j k : Nat}
    {id a b : String}
    (hFirst : t.ancestor? j id = some a)
    (hSecond : t.ancestor? k a = some b) :
    t.ancestor? (j + k) id = some b := by
  rw [ancestor?_add, hFirst]
  exact hSecond

/- Whatever has a parent is a node. -/
theorem contains_of_parentId?
    {id p : String}
    (h : t.parentId? id = some p) : t.contains id = true := by
  rcases Option.bind_eq_some_iff.mp h with ⟨n, hNode, -⟩
  exact (t.contains_iff id).mpr ⟨n, hNode⟩

------------------------------------------------------------
-- Chains That End
------------------------------------------------------------

/- The end of a chain is always the same number of steps up. -/
theorem steps_unique
    {id top : String}
    {j k : Nat}
    (hTop : t.parentId? top = none)
    (hj : t.ancestor? j id = some top)
    (hk : t.ancestor? k id = some top) : j = k := by
  induction j generalizing id k with
  | zero =>
      cases k with
      | zero => rfl
      | succ k =>
          rcases exists_parentId?_of_ancestor?_succ hk with
            ⟨p, hParent, -⟩
          have hSame : id = top := Option.some.inj hj
          rw [hSame, hTop] at hParent
          cases hParent
  | succ j ih =>
      rcases exists_parentId?_of_ancestor?_succ hj with
        ⟨p, hParent, hRest⟩
      cases k with
      | zero =>
          have hSame : id = top := Option.some.inj hk
          rw [hSame, hTop] at hParent
          cases hParent
      | succ k =>
          rw [ancestor?_succ hParent] at hk
          rw [ih hRest hk]

/- A chain that ends never comes back to where it was. -/
theorem eq_zero_of_ancestor?_self
    {id top : String}
    {j k : Nat}
    (hTop : t.parentId? top = none)
    (hk : t.ancestor? k id = some top)
    (hj : t.ancestor? j id = some id) : j = 0 := by
  have hBoth : t.ancestor? (j + k) id = some top :=
    ancestor?_trans hj hk
  have hSteps := steps_unique hTop hBoth hk
  omega

/- The listed ancestors are some steps up. -/
theorem exists_steps_of_mem_ancestorsWithin
    {k : Nat}
    {id a : String}
    (h : a ∈ t.ancestorsWithin k id) :
    ∃ j, t.ancestor? (j + 1) id = some a := by
  induction k generalizing id with
  | zero => simp [ancestorsWithin] at h
  | succ k ih =>
      cases hParent : t.parentId? id with
      | none => simp [ancestorsWithin, hParent] at h
      | some p =>
          rw [ancestorsWithin, hParent] at h
          rcases List.mem_cons.mp h with hFirst | hRest
          · refine ⟨0, ?_⟩
            rw [ancestor?_succ hParent, hFirst]
            rfl
          · rcases ih hRest with ⟨j, hj⟩
            refine ⟨j + 1, ?_⟩
            rw [ancestor?_succ hParent]
            exact hj

/-
  A chain that ends lists distinct nodes, one more than it
  has steps.
-/
private theorem chain_properties
    {id top : String}
    {k : Nat}
    (hTop : t.parentId? top = none)
    (hContains : t.contains top = true)
    (hk : t.ancestor? k id = some top) :
    (id :: t.ancestorsWithin k id).Nodup ∧
      (∀ a ∈ id :: t.ancestorsWithin k id,
        t.contains a = true) ∧
      (t.ancestorsWithin k id).length = k := by
  induction k generalizing id with
  | zero =>
      have hSame : id = top := Option.some.inj hk
      subst hSame
      simpa [ancestorsWithin] using hContains
  | succ k ih =>
      rcases exists_parentId?_of_ancestor?_succ hk with
        ⟨p, hParent, hRest⟩
      rcases ih hRest with ⟨hNodup, hNodes, hLength⟩
      have hList :
          t.ancestorsWithin (k + 1) id =
            p :: t.ancestorsWithin k p := by
        simp [ancestorsWithin, hParent]
      refine ⟨?_, ?_, ?_⟩
      · refine List.nodup_cons.mpr ⟨?_, hList ▸ hNodup⟩
        intro hBack
        rcases exists_steps_of_mem_ancestorsWithin hBack with
          ⟨j, hj⟩
        have hZero := eq_zero_of_ancestor?_self hTop hk hj
        omega
      · intro a ha
        rcases List.mem_cons.mp ha with hFirst | hRest
        · exact hFirst ▸ contains_of_parentId? hParent
        · exact hNodes a (hList ▸ hRest)
      · rw [hList, List.length_cons, hLength]

/- A chain that ends has fewer steps than there are nodes. -/
theorem steps_lt_size
    {id top : String}
    {k : Nat}
    (hTop : t.parentId? top = none)
    (hContains : t.contains top = true)
    (hk : t.ancestor? k id = some top) : k < t.size := by
  rcases chain_properties hTop hContains hk with
    ⟨hNodup, hNodes, hLength⟩
  have hBound := t.nodes.length_le_size hNodup hNodes
  rw [List.length_cons, hLength] at hBound
  exact hBound

/-
  Two flows with the same parents on a set of nodes that is
  closed upward have the same chains there.
-/
theorem ancestor?_congr
    {t' : Flow}
    {S : String → Prop}
    (hClosed :
      ∀ id p, S id → t.parentId? id = some p → S p)
    (hSame : ∀ id, S id → t'.parentId? id = t.parentId? id)
    (k : Nat)
    {id : String}
    (hId : S id) :
    t'.ancestor? k id = t.ancestor? k id := by
  induction k generalizing id with
  | zero => rfl
  | succ k ih =>
      unfold ancestor?
      rw [hSame id hId]
      cases hParent : t.parentId? id with
      | none => rfl
      | some p => exact ih (hClosed id p hId hParent)

------------------------------------------------------------
-- Chains That Loop
------------------------------------------------------------

/-
  No loop is found on a chain that ends: the ids on the path
  lie below the current one, so none of them is met again.
-/
private theorem loopWithin?_eq_none
    {top id : String}
    {path : List String}
    {k : Nat}
    (steps : Nat)
    (hTop : t.parentId? top = none)
    (hk : t.ancestor? k id = some top)
    (hPath :
      ∀ y ∈ path, ∃ j, t.ancestor? (j + 1) y = some id) :
    t.loopWithin? steps path id = none := by
  induction steps generalizing path id k with
  | zero => rfl
  | succ steps ih =>
      have hNew : id ∉ path := by
        intro hMem
        rcases hPath id hMem with ⟨j, hj⟩
        have hZero := eq_zero_of_ancestor?_self hTop hk hj
        omega
      unfold loopWithin?
      rw [if_neg (by simpa using hNew)]
      cases hParent : t.parentId? id with
      | none => rfl
      | some p =>
          cases k with
          | zero =>
              have hSame : id = top := Option.some.inj hk
              rw [hSame, hTop] at hParent
              cases hParent
          | succ k =>
              rw [ancestor?_succ hParent] at hk
              refine ih hk ?_
              intro y hy
              rcases List.mem_cons.mp hy with hHere | hBelow
              · refine ⟨0, ?_⟩
                rw [hHere, ancestor?_succ hParent]
                rfl
              · rcases hPath y hBelow with ⟨j, hj⟩
                refine ⟨j + 1, ancestor?_trans hj ?_⟩
                rw [ancestor?_succ hParent]
                rfl

/-
  A chain on which no loop is found ends: the path holds
  distinct nodes, so the steps do not run out before.
-/
private theorem exists_end_of_loopWithin?_eq_none
    {id : String}
    {path : List String}
    {steps : Nat}
    (hNone : t.loopWithin? steps path id = none)
    (hNodup : path.Nodup)
    (hNodes : ∀ y ∈ path, t.contains y = true)
    (hSteps : t.size < steps + path.length) :
    ∃ k top, t.ancestor? k id = some top ∧
      t.parentId? top = none := by
  induction steps generalizing path id with
  | zero =>
      have hBound := t.nodes.length_le_size hNodup hNodes
      unfold size at hSteps
      omega
  | succ steps ih =>
      unfold loopWithin? at hNone
      by_cases hOld : path.contains id = true
      · rw [if_pos hOld] at hNone
        cases hNone
      · rw [if_neg hOld] at hNone
        cases hParent : t.parentId? id with
        | none => exact ⟨0, id, rfl, hParent⟩
        | some p =>
            rw [hParent] at hNone
            have hFresh : id ∉ path := by
              simpa using hOld
            have hNodes' :
                ∀ y ∈ id :: path, t.contains y = true := by
              intro y hy
              rcases List.mem_cons.mp hy with hHere | hOnPath
              · exact hHere ▸ contains_of_parentId? hParent
              · exact hNodes y hOnPath
            have hSteps' :
                t.size < steps + (id :: path).length := by
              rw [List.length_cons]
              omega
            rcases
                ih hNone
                  (List.nodup_cons.mpr ⟨hFresh, hNodup⟩)
                  hNodes' hSteps' with
              ⟨k, top, hk, hTop⟩
            refine ⟨k + 1, top, ?_, hTop⟩
            rw [ancestor?_succ hParent]
            exact hk

/- The check finds no loop exactly on chains that end. -/
theorem loop?_eq_none_iff
    (t : Flow)
    (id : String) :
    t.loop? id = none ↔
      ∃ k top, t.ancestor? k id = some top ∧
        t.parentId? top = none := by
  unfold loop?
  rw [Option.map_eq_none_iff]
  constructor
  · intro hNone
    exact exists_end_of_loopWithin?_eq_none hNone
      List.nodup_nil (by simp) (by simp)
  · rintro ⟨k, top, hk, hTop⟩
    exact loopWithin?_eq_none _ hTop hk (by simp)

end Flow

end CallFlow
