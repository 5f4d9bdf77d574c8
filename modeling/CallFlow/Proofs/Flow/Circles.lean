import CallFlow.Proofs.Flow.Validation
import Mathlib.Data.List.Chain
import Mathlib.Data.List.Rotate
import Mathlib.Data.List.Sort

/-
  Circles of parents.

  A chain of parents that does not end runs into a circle.
  Each id of a circle lies above each other one, and what
  lies above one of them is on the circle, too.  So a chain
  runs into one circle only, and this is the loop that the
  check finds for each of its ids.

  Main declarations:
    * `Flow.Above`
    * `Flow.Circle`
    * `Flow.Circle.mem_iff_above`
    * `Flow.Circle.isRotated`
    * `Flow.Circle.loop?_eq`
    * `Flow.exists_circle_of_loop?`
    * `Flow.loop?_eq_of_ancestor?`
    * `Flow.exists_circle_of_above`
    * `Flow.mem_cycleProblems_iff`
    * `Flow.filter_cycleProblems_eq`
    * `Flow.mem_findings_cycle_iff`
-/

namespace CallFlow

------------------------------------------------------------
-- Names in Order
------------------------------------------------------------

/- Names that are put in order are in order. -/
theorem pairwise_inNameOrder
    (names : List String) :
    (inNameOrder names).Pairwise (· < ·) :=
  List.pairwise_map.mpr (NameMap.ordered _)

/- It only matters which names they are. -/
theorem inNameOrder_eq_of_mem_iff
    {names names' : List String}
    (h : ∀ x, x ∈ names ↔ x ∈ names') :
    inNameOrder names = inNameOrder names' := by
  refine (pairwise_inNameOrder names).eq_of_mem_iff
    (pairwise_inNameOrder names') fun x => ?_
  rw [mem_inNameOrder_iff, mem_inNameOrder_iff]
  exact h x

/- Names of which none comes twice are all kept. -/
theorem perm_inNameOrder
    {names : List String}
    (h : names.Nodup) : (inNameOrder names).Perm names := by
  have hNodup : (inNameOrder names).Nodup :=
    (pairwise_inNameOrder names).imp String.ne_of_lt
  exact (List.perm_ext_iff_of_nodup hNodup h).mpr
    (mem_inNameOrder_iff names)

/- Of the same names just one is kept. -/
private theorem nodup_eraseDups
    (lists : List (List String)) :
    lists.eraseDups.Nodup := by
  induction hLength : lists.length using
    Nat.strong_induction_on generalizing lists with
  | _ n ih =>
      cases lists with
      | nil => exact List.nodup_nil
      | cons names rest =>
          rw [List.eraseDups_cons, List.nodup_cons]
          refine ⟨?_, ih _ ?_ _ rfl⟩
          · simp
          · rw [← hLength, List.length_cons,
              Nat.lt_succ_iff]
            exact List.length_filter_le _ rest

namespace Flow

variable {t : Flow}

------------------------------------------------------------
-- Above
------------------------------------------------------------

/- An id lies above another one, some steps up from it. -/
def Above
    (t : Flow)
    (a id : String) : Prop :=
  ∃ k, t.ancestor? (k + 1) id = some a

/- A parent lies above. -/
theorem above_of_parentId?
    {id p : String}
    (h : t.parentId? id = some p) : t.Above p id :=
  ⟨0, (ancestor?_succ h 0).trans rfl⟩

/- What lies above what lies above lies above. -/
theorem Above.trans
    {a b c : String}
    (hUpper : t.Above a b)
    (hLower : t.Above b c) : t.Above a c := by
  rcases hUpper with ⟨j, hj⟩
  rcases hLower with ⟨k, hk⟩
  refine ⟨k + 1 + j, ?_⟩
  rw [Nat.add_assoc (k + 1)]
  exact ancestor?_trans hk hj

instance : Trans t.Above t.Above t.Above :=
  ⟨Above.trans⟩

/- What something lies above is a node. -/
theorem Above.contains
    {a id : String}
    (h : t.Above a id) : t.contains id = true := by
  rcases h with ⟨k, hk⟩
  rcases exists_parentId?_of_ancestor?_succ hk with
    ⟨p, hParent, -⟩
  exact contains_of_parentId? hParent

/- Of two ids on a chain one is some steps up from the other. -/
theorem ancestor?_comparable
    {j k : Nat}
    {id a b : String}
    (hj : t.ancestor? j id = some a)
    (hk : t.ancestor? k id = some b) :
    (∃ i, t.ancestor? i a = some b) ∨
      ∃ i, t.ancestor? i b = some a := by
  rcases Nat.le_total j k with hLe | hLe
  · rcases Nat.exists_eq_add_of_le hLe with ⟨i, rfl⟩
    rw [ancestor?_add, hj] at hk
    exact Or.inl ⟨i, hk⟩
  · rcases Nat.exists_eq_add_of_le hLe with ⟨i, rfl⟩
    rw [ancestor?_add, hk] at hj
    exact Or.inr ⟨i, hj⟩

/- The chain of an id ends where one from above it does. -/
theorem ends_iff_of_ancestor?
    {k : Nat}
    {id a : String}
    (hk : t.ancestor? k id = some a) :
    (∃ j top, t.ancestor? j id = some top ∧
        t.parentId? top = none) ↔
      ∃ j top, t.ancestor? j a = some top ∧
        t.parentId? top = none := by
  constructor
  · rintro ⟨j, top, hj, hTop⟩
    rcases ancestor?_comparable hk hj with ⟨i, hi⟩ | ⟨i, hi⟩
    · exact ⟨i, top, hi, hTop⟩
    · -- Nothing lies above the end, so it is the id itself.
      cases i with
      | zero => exact ⟨0, a, rfl, Option.some.inj hi ▸ hTop⟩
      | succ i =>
          rcases exists_parentId?_of_ancestor?_succ hi with
            ⟨p, hParent, -⟩
          rw [hTop] at hParent
          cases hParent
  · rintro ⟨j, top, hj, hTop⟩
    exact ⟨k + j, top, ancestor?_trans hk hj, hTop⟩

/- The chain of an id that lies above itself does not end. -/
theorem Above.loop?_ne_none
    {id : String}
    (h : t.Above id id) : t.loop? id ≠ none := by
  intro hNone
  rcases (t.loop?_eq_none_iff id).mp hNone with
    ⟨k, top, hk, hTop⟩
  rcases h with ⟨j, hj⟩
  have hZero := eq_zero_of_ancestor?_self hTop hk hj
  omega

------------------------------------------------------------
-- Circles
------------------------------------------------------------

/-
  Distinct ids in a circle: each of them is the parent of the
  next one, and the last one is the parent of the first.
-/
structure Circle
    (t : Flow)
    (ring : List String) : Prop where
  nonempty : ring ≠ []
  distinct : ring.Nodup
  linked :
    ring.map some = (ring.rotate 1).map t.parentId?

/- A circle that is gone round once is a chain. -/
private theorem linked_iff_isChain
    {id : String}
    {rest : List String} :
    (id :: rest).map some =
        ((id :: rest).rotate 1).map t.parentId? ↔
      (id :: rest ++ [id]).IsChain fun p c =>
        t.parentId? c = some p := by
  rw [List.isChain_cons_append_singleton_iff_forall₂,
    List.rotate_cons_succ, List.rotate_zero,
    ← List.forall₂_eq_eq_eq, List.forall₂_map_left_iff,
    List.forall₂_map_right_iff]
  simp only [eq_comm]

namespace Circle

variable {ring ring' : List String}

/- It does not matter where a circle begins. -/
theorem rotate
    (h : t.Circle ring)
    (n : Nat) : t.Circle (ring.rotate n) := by
  refine ⟨mt List.rotate_eq_nil_iff.mp h.nonempty,
    List.nodup_rotate.mpr h.distinct, ?_⟩
  rw [List.rotate_rotate, Nat.add_comm, ← List.rotate_rotate,
    List.map_rotate, h.linked, ← List.map_rotate]

/- So it begins at any of its ids. -/
theorem exists_rotate_eq_cons
    (h : t.Circle ring)
    {x : String}
    (hx : x ∈ ring) :
    ∃ n rest, ring.rotate n = x :: rest ∧
      t.Circle (x :: rest) := by
  rcases List.append_of_mem hx with ⟨u, v, rfl⟩
  refine ⟨u.length, v ++ u, ?_, ?_⟩
  · exact List.rotate_append_length_eq u (x :: v)
  · rw [← List.cons_append,
      ← List.rotate_append_length_eq u (x :: v)]
    exact h.rotate u.length

/- Each id of a circle lies above each of them. -/
theorem above
    (h : t.Circle ring)
    {x y : String}
    (hx : x ∈ ring)
    (hy : y ∈ ring) : t.Above y x := by
  rcases h.exists_rotate_eq_cons hx with
    ⟨n, rest, hRotate, hCircle⟩
  have hChain := linked_iff_isChain.mp hCircle.linked
  have hPairs : (x :: rest ++ [x]).Pairwise t.Above :=
    (hChain.imp fun _ _ => above_of_parentId?).pairwise
  rw [← List.mem_rotate (n := n), hRotate] at hy
  exact (List.pairwise_append.mp hPairs).2.2 y hy x
    List.mem_cons_self

/- An id whose chain runs into a circle is a node. -/
theorem contains_of_ancestor?
    (h : t.Circle ring)
    {k : Nat}
    {id m : String}
    (hm : m ∈ ring)
    (hk : t.ancestor? k id = some m) :
    t.contains id = true := by
  cases k with
  | zero =>
      rw [Option.some.inj hk]
      exact (h.above hm hm).contains
  | succ k => exact Above.contains ⟨k, hk⟩

/- The parent of an id of a circle is on the circle. -/
theorem mem_of_parentId?
    (h : t.Circle ring)
    {x p : String}
    (hx : x ∈ ring)
    (hParent : t.parentId? x = some p) : p ∈ ring := by
  have hTurned : x ∈ ring.rotate 1 := List.mem_rotate.mpr hx
  have hMem : some p ∈ ring.map some := by
    rw [h.linked, ← hParent]
    exact List.mem_map_of_mem hTurned
  rcases List.mem_map.mp hMem with ⟨q, hq, hSame⟩
  exact Option.some.inj hSame ▸ hq

/- So is what lies any steps up. -/
theorem mem_of_ancestor?
    (h : t.Circle ring)
    {k : Nat}
    {x a : String}
    (hx : x ∈ ring)
    (hk : t.ancestor? k x = some a) : a ∈ ring := by
  induction k generalizing x with
  | zero => exact Option.some.inj hk ▸ hx
  | succ k ih =>
      rcases exists_parentId?_of_ancestor?_succ hk with
        ⟨p, hParent, hRest⟩
      exact ih (h.mem_of_parentId? hx hParent) hRest

/- A circle is what lies above one of its ids. -/
theorem mem_iff_above
    (h : t.Circle ring)
    {x : String}
    (hx : x ∈ ring)
    (y : String) : y ∈ ring ↔ t.Above y x := by
  constructor
  · exact h.above hx
  · rintro ⟨k, hk⟩
    exact h.mem_of_ancestor? hx hk

/- Circles that meet are on the same ids. -/
theorem mem_iff_of_mem
    (h : t.Circle ring)
    (h' : t.Circle ring')
    {x : String}
    (hx : x ∈ ring)
    (hx' : x ∈ ring')
    (y : String) : y ∈ ring ↔ y ∈ ring' := by
  rw [h.mem_iff_above hx, h'.mem_iff_above hx']

/- They are so also if a chain runs into both. -/
theorem mem_iff_of_ancestor?
    (h : t.Circle ring)
    (h' : t.Circle ring')
    {id m m' : String}
    {k k' : Nat}
    (hm : m ∈ ring)
    (hm' : m' ∈ ring')
    (hk : t.ancestor? k id = some m)
    (hk' : t.ancestor? k' id = some m')
    (y : String) : y ∈ ring ↔ y ∈ ring' := by
  rcases ancestor?_comparable hk hk' with ⟨i, hi⟩ | ⟨i, hi⟩
  · exact h.mem_iff_of_mem h' (h.mem_of_ancestor? hm hi) hm' y
  · exact h.mem_iff_of_mem h' hm (h'.mem_of_ancestor? hm' hi) y

/- The parents that a chain lists are listed in order. -/
private theorem ancestorsWithin_eq
    {id : String}
    {parents : List String}
    (h :
      (id :: parents).IsChain fun c p =>
        t.parentId? c = some p) :
    t.ancestorsWithin parents.length id = parents := by
  induction parents generalizing id with
  | nil => rfl
  | cons p rest ih =>
      rcases List.isChain_cons_cons.mp h with
        ⟨hParent, hRest⟩
      rw [List.length_cons, ancestorsWithin, hParent]
      exact congrArg (p :: ·) (ih hRest)

/- A circle is its first id and the ids above it, reversed. -/
private theorem reverse_eq
    {id : String}
    {rest : List String}
    (h : t.Circle (id :: rest)) :
    rest.reverse = t.ancestorsWithin rest.length id := by
  have hChain := List.isChain_reverse.mpr
    (linked_iff_isChain.mp h.linked)
  rw [List.reverse_append, List.reverse_singleton,
    List.reverse_cons, ← List.append_assoc] at hChain
  have hUp :
      (id :: rest.reverse).IsChain fun c p =>
        t.parentId? c = some p :=
    hChain.left_of_append
  have hEq := ancestorsWithin_eq hUp
  rw [List.length_reverse] at hEq
  exact hEq.symm

/- Circles on the same ids differ in where they begin. -/
theorem isRotated
    (h : t.Circle ring)
    (h' : t.Circle ring')
    (hSame : ∀ x, x ∈ ring ↔ x ∈ ring') :
    ring.IsRotated ring' := by
  rcases List.exists_mem_of_ne_nil ring h.nonempty with
    ⟨x, hx⟩
  rcases h.exists_rotate_eq_cons hx with
    ⟨n, rest, hRotate, hCircle⟩
  rcases h'.exists_rotate_eq_cons ((hSame x).mp hx) with
    ⟨n', rest', hRotate', hCircle'⟩
  have hPerm : (x :: rest).Perm (x :: rest') := by
    rw [← hRotate, ← hRotate']
    refine (List.rotate_perm ring n).trans
      (.trans ?_ (List.rotate_perm ring' n').symm)
    exact (List.perm_ext_iff_of_nodup h.distinct
      h'.distinct).mpr hSame
  have hLength : rest.length = rest'.length :=
    Nat.succ.inj hPerm.length_eq
  have hRest : rest = rest' := by
    apply List.reverse_injective
    rw [hCircle.reverse_eq, hCircle'.reverse_eq, hLength]
  subst hRest
  exact (List.IsRotated.forall ring n).symm.trans
    (hRotate ▸ hRotate' ▸ List.IsRotated.forall ring' n')

end Circle

------------------------------------------------------------
-- Loops
------------------------------------------------------------

/- A chain that comes back to its path closes a circle. -/
theorem circle_of_mem_path
    {id : String}
    {path : List String}
    (hPath :
      (id :: path).IsChain fun p c => t.parentId? c = some p)
    (hDistinct : path.Nodup)
    (hBack : id ∈ path) :
    t.Circle (id :: path.takeWhile (· != id)) := by
  rcases List.append_of_mem hBack with ⟨u, v, rfl⟩
  have hBefore : id ∉ u := by
    intro hMem
    exact List.disjoint_of_nodup_append hDistinct hMem
      List.mem_cons_self
  have hTaken :
      (u ++ id :: v).takeWhile (· != id) = u := by
    rw [List.takeWhile_append_of_pos, List.takeWhile_cons_of_neg,
      List.append_nil]
    · simp
    · intro x hx
      simpa using ne_of_mem_of_not_mem hx hBefore
  rw [hTaken]
  refine ⟨List.cons_ne_nil _ _, ?_, ?_⟩
  · exact List.nodup_cons.mpr
      ⟨hBefore, (List.nodup_append.mp hDistinct).1⟩
  · rw [linked_iff_isChain]
    refine List.IsChain.prefix hPath ?_
    exact ⟨v, by simp⟩

/- A chain on which a loop is found runs into a circle. -/
private theorem circle_of_loopWithin?
    {start : String}
    {ring : List String}
    (steps : Nat)
    (path : List String)
    (id : String)
    (hPath :
      (id :: path).IsChain fun p c => t.parentId? c = some p)
    (hDistinct : path.Nodup)
    (hStart : ∃ k, t.ancestor? k start = some id)
    (h : t.loopWithin? steps path id = some ring) :
    t.Circle ring ∧
      ∃ m ∈ ring, ∃ k, t.ancestor? k start = some m := by
  induction steps generalizing path id with
  | zero => cases h
  | succ steps ih =>
      unfold loopWithin? at h
      split at h
      · rename_i hBack
        cases h
        exact
          ⟨circle_of_mem_path hPath hDistinct
              (by simpa using hBack),
            id, List.mem_cons_self, hStart⟩
      · rename_i hNew
        split at h
        · cases h
        · rename_i p hParent
          refine ih (id :: path) p ?_ ?_ ?_ h
          · exact List.isChain_cons_cons.mpr ⟨hParent, hPath⟩
          · exact List.nodup_cons.mpr
              ⟨by simpa using hNew, hDistinct⟩
          · rcases hStart with ⟨k, hk⟩
            exact ⟨k + 1, ancestor?_trans hk
              ((ancestor?_succ hParent 0).trans rfl)⟩

/- What is found is a circle, with its ids in order. -/
theorem exists_circle_of_loop?
    {id : String}
    {members : List String}
    (h : t.loop? id = some members) :
    ∃ ring, t.Circle ring ∧ members = inNameOrder ring ∧
      ∃ m ∈ ring, ∃ k, t.ancestor? k id = some m := by
  rcases Option.map_eq_some_iff.mp h with
    ⟨ring, hRing, hSorted⟩
  rcases circle_of_loopWithin? _ [] id (by simp)
    List.nodup_nil ⟨0, rfl⟩ hRing with ⟨hCircle, hReached⟩
  exact ⟨ring, hCircle, hSorted.symm, hReached⟩

/- The loop of a chain is the circle that it runs into. -/
theorem Circle.loop?_eq
    {ring : List String}
    (h : t.Circle ring)
    {m id : String}
    {k : Nat}
    (hm : m ∈ ring)
    (hk : t.ancestor? k id = some m) :
    t.loop? id = some (inNameOrder ring) := by
  cases hLoop : t.loop? id with
  | none =>
      -- Then the chain of the id on the circle would end, too.
      have hEnds := (ends_iff_of_ancestor? hk).mp
        ((t.loop?_eq_none_iff id).mp hLoop)
      exact absurd ((t.loop?_eq_none_iff m).mpr hEnds)
        (h.above hm hm).loop?_ne_none
  | some members =>
      rcases exists_circle_of_loop? hLoop with
        ⟨ring', hCircle, hMembers, m', hm', k', hk'⟩
      rw [hMembers]
      exact congrArg some (inNameOrder_eq_of_mem_iff
        (hCircle.mem_iff_of_ancestor? h hm' hm hk' hk))

/- Ids on one chain have the same loop. -/
theorem loop?_eq_of_ancestor?
    {k : Nat}
    {id a : String}
    (hk : t.ancestor? k id = some a) :
    t.loop? a = t.loop? id := by
  cases hLoop : t.loop? id with
  | none =>
      rw [loop?_eq_none_iff] at hLoop ⊢
      exact (ends_iff_of_ancestor? hk).mp hLoop
  | some members =>
      rcases exists_circle_of_loop? hLoop with
        ⟨ring, hCircle, hMembers, m, hm, j, hj⟩
      rw [hMembers]
      rcases ancestor?_comparable hk hj with
        ⟨i, hi⟩ | ⟨i, hi⟩
      · exact hCircle.loop?_eq hm hi
      · exact hCircle.loop?_eq
          (hCircle.mem_of_ancestor? hm hi)
          (t.ancestor?_zero a)

/- Going round a cycle any number of times comes back. -/
private theorem ancestor?_mul_self
    {id : String}
    {k : Nat}
    (hBack : t.ancestor? k id = some id)
    (rounds : Nat) :
    t.ancestor? (rounds * k) id = some id := by
  induction rounds with
  | zero => rw [Nat.zero_mul, ancestor?_zero]
  | succ rounds ih =>
      rw [Nat.succ_mul]
      exact ancestor?_trans ih hBack

/- An id that lies above itself is on a circle. -/
theorem exists_circle_of_above
    {id : String}
    (h : t.Above id id) :
    ∃ ring, t.Circle ring ∧ id ∈ ring := by
  rcases Option.ne_none_iff_exists'.mp h.loop?_ne_none with
    ⟨members, hLoop⟩
  rcases exists_circle_of_loop? hLoop with
    ⟨ring, hCircle, -, m, hm, j, hj⟩
  rcases h with ⟨k, hk⟩
  refine ⟨ring, hCircle, ?_⟩
  -- After as many rounds as steps, the way leads on to it.
  have hRounds := ancestor?_mul_self hk j
  rw [Nat.mul_succ, Nat.add_comm, ancestor?_add, hj]
    at hRounds
  exact hCircle.mem_of_ancestor? hm hRounds

------------------------------------------------------------
-- Reported Cycles
------------------------------------------------------------

/- The reported cycles are the circles, in id order. -/
theorem mem_cycleProblems_iff
    (t : Flow)
    (p : Problem) :
    p ∈ t.cycleProblems ↔
      ∃ ring, t.Circle ring ∧
        p = .cycle (inNameOrder ring) := by
  unfold cycleProblems
  rw [List.mem_map]
  constructor
  · rintro ⟨members, hMem, rfl⟩
    rw [List.mem_eraseDups] at hMem
    rcases List.mem_filterMap.mp hMem with ⟨id, -, hLoop⟩
    rcases exists_circle_of_loop? hLoop with
      ⟨ring, hCircle, rfl, -⟩
    exact ⟨ring, hCircle, rfl⟩
  · rintro ⟨ring, hCircle, rfl⟩
    rcases List.exists_mem_of_ne_nil ring hCircle.nonempty
      with ⟨x, hx⟩
    refine ⟨_, List.mem_eraseDups.mpr ?_, rfl⟩
    exact List.mem_filterMap.mpr
      ⟨x, (t.nodes.mem_names_iff x).mpr
          (hCircle.above hx hx).contains,
        hCircle.loop?_eq hx (t.ancestor?_zero x)⟩

/- No problem of cycles is listed twice. -/
theorem nodup_cycleProblems
    (t : Flow) : t.cycleProblems.Nodup :=
  (nodup_eraseDups _).map fun _ _ => Problem.cycle.inj

/- Just one of the problems has to do with a circle. -/
theorem filter_cycleProblems_eq
    {ring : List String}
    (h : t.Circle ring) :
    (t.cycleProblems.filter fun p =>
        p.nodes.any ring.contains) =
      [.cycle (inNameOrder ring)] := by
  have hMem : .cycle (inNameOrder ring) ∈ t.cycleProblems :=
    (t.mem_cycleProblems_iff _).mpr ⟨ring, h, rfl⟩
  have hOnly :
      ∀ p ∈ t.cycleProblems,
        p.nodes.any ring.contains =
          (p == .cycle (inNameOrder ring)) := by
    intro p hp
    rcases (t.mem_cycleProblems_iff p).mp hp with
      ⟨ring', h', rfl⟩
    rw [Bool.eq_iff_iff, List.any_eq_true, beq_iff_eq,
      Problem.cycle.injEq]
    constructor
    · rintro ⟨x, hx', hx⟩
      exact inNameOrder_eq_of_mem_iff (h'.mem_iff_of_mem h
        ((mem_inNameOrder_iff ring' x).mp hx')
        (List.contains_iff_mem.mp hx))
    · intro hSame
      rcases List.exists_mem_of_ne_nil ring h.nonempty with
        ⟨x, hx⟩
      refine ⟨x, ?_, List.contains_iff_mem.mpr hx⟩
      exact hSame ▸ (mem_inNameOrder_iff ring x).mpr hx
  rw [List.filter_congr hOnly, List.filter_beq,
    List.count_eq_one_of_mem t.nodup_cycleProblems hMem]
  rfl

/- A finding of a cycle is that of a circle of parents. -/
theorem mem_findings_cycle_iff
    (t : Flow)
    (f : Finding) :
    f ∈ t.findings ∧ f.code = .cycle ↔
      ∃ ring, t.Circle ring ∧
        f = (Problem.cycle (inNameOrder ring)).finding := by
  rw [mem_findings_iff_of_filter t.findings_cycle]
  constructor
  · rintro ⟨p, hp, rfl⟩
    rcases (t.mem_cycleProblems_iff p).mp hp with
      ⟨ring, hRing, rfl⟩
    exact ⟨ring, hRing, rfl⟩
  · rintro ⟨ring, hRing, rfl⟩
    exact ⟨_, (t.mem_cycleProblems_iff _).mpr
      ⟨ring, hRing, rfl⟩, rfl⟩

end Flow

end CallFlow
