import CallFlow.Proofs.Flow.Circles
import CallFlow.Proofs.Flow.Codes

/-
  Looking for cycles with what is settled in mind.

  Chains of parents are followed one after the other.  All
  ids on the path of a chain are settled at its end, and the
  next chains stop there.  What is settled is closed upward,
  so it holds all of a circle or nothing of it, and it holds
  the circles that have been reported.  Hence a chain closes
  a circle exactly if it runs into one that is new, and the
  reports are the distinct loops of all chains.

  Main declarations:
    * `Flow.trail?`
    * `Flow.settle?`
    * `Flow.Walked`
    * `Flow.Trailed`
    * `Flow.exists_trailed`
    * `Flow.Settled`
    * `Flow.settle?_eq`
    * `Flow.cycles_reported_once`
-/

namespace CallFlow

------------------------------------------------------------
-- Following Chains
------------------------------------------------------------

/-
  The path of a chain, latest first, and the circle that it
  has closed, latest first.
-/
structure Trail where
  path : List String
  circle : Option (List String)

namespace Flow

/-
  Follow a chain of parents, up to its end, to a settled id,
  or back to the path.  The chain may not have come to its
  end when there are no more turns.
-/
def trail?
    (t : Flow)
    (settled : List String) :
    Nat → List String → Option String → Option Trail
  | _, path, none => some ⟨path, none⟩
  | 0, _, some _ => none
  | turns + 1, path, some id =>
      if settled.contains id then some ⟨path, none⟩
      else if path.contains id then
        some ⟨path, some (id :: path.takeWhile (· != id))⟩
      else
        trail? t settled turns (id :: path) (t.parentId? id)

/-
  Follow the chains of some ids, each of them with a number
  of turns, and list the circles in id order.
-/
def settle?
    (t : Flow)
    (turns : Nat) :
    List String → List String → Option (List (List String))
  | _, [] => some []
  | settled, id :: ids => do
      let trail ← t.trail? settled turns [] (some id)
      let later ←
        settle? t turns (trail.path ++ settled) ids
      return (trail.circle.map inNameOrder).toList ++ later

variable {t : Flow}
variable {settled : List String}
variable {start : String}

------------------------------------------------------------
-- One Chain
------------------------------------------------------------

/-
  A chain that has come to an id along a path, from where it
  started, without meeting a settled id or going in a circle.
-/
structure Walked
    (t : Flow)
    (settled : List String)
    (start : String)
    (path : List String)
    (id : String) : Prop where
  linked :
    (id :: path).IsChain fun p c => t.parentId? c = some p
  distinct : path.Nodup
  apart : ∀ x ∈ path, x ∉ settled
  reached :
    ∀ x ∈ id :: path, ∃ k, t.ancestor? k start = some x

namespace Walked

variable {path : List String}
variable {id p : String}

/- Nothing has been passed at the start. -/
theorem initial
    (t : Flow)
    (settled : List String)
    (start : String) : t.Walked settled start [] start where
  linked := .singleton start
  distinct := List.nodup_nil
  apart := nofun
  reached := by
    intro x hx
    rw [List.mem_singleton.mp hx]
    exact ⟨0, rfl⟩

/- A step to the parent goes on with the path. -/
theorem step
    (h : t.Walked settled start path id)
    (hFree : id ∉ settled)
    (hNew : id ∉ path)
    (hParent : t.parentId? id = some p) :
    t.Walked settled start (id :: path) p where
  linked := List.isChain_cons_cons.mpr ⟨hParent, h.linked⟩
  distinct := List.nodup_cons.mpr ⟨hNew, h.distinct⟩
  apart := List.forall_mem_cons.mpr ⟨hFree, h.apart⟩
  reached := by
    refine List.forall_mem_cons.mpr ⟨?_, h.reached⟩
    rcases h.reached id List.mem_cons_self with ⟨k, hk⟩
    exact ⟨k + 1, ancestor?_trans hk
      ((ancestor?_succ hParent 0).trans rfl)⟩

/- The parents of what has been passed are on the way. -/
theorem mem_of_parentId?
    (h : t.Walked settled start path id)
    {x : String}
    (hx : x ∈ path)
    (hParent : t.parentId? x = some p) : p ∈ id :: path := by
  have hLinked := h.linked
  clear h
  induction path generalizing id with
  | nil => cases hx
  | cons c rest ih =>
      rcases List.isChain_cons_cons.mp hLinked with
        ⟨hFirst, hRest⟩
      rcases List.mem_cons.mp hx with rfl | hLater
      · rw [hFirst] at hParent
        exact Option.some.inj hParent ▸ List.mem_cons_self
      · exact List.mem_cons_of_mem id (ih hLater hRest)

/- What has been passed are nodes, so it is no more than all. -/
theorem length_le
    (h : t.Walked settled start path id) :
    path.length ≤ t.size := by
  have hLinked := h.linked
  refine t.nodes.length_le_size h.distinct ?_
  clear h
  induction path generalizing id with
  | nil => exact nofun
  | cons c rest ih =>
      rcases List.isChain_cons_cons.mp hLinked with
        ⟨hFirst, hRest⟩
      exact List.forall_mem_cons.mpr
        ⟨contains_of_parentId? hFirst, ih hRest⟩

end Walked

/-
  What comes of following a chain.  Path and settled ids are
  closed upward together.  A circle that was closed is on the
  path, and settled ids are not.  If none was closed, then the
  chain ends, or it comes to a settled id.
-/
structure Trailed
    (t : Flow)
    (settled : List String)
    (start : String)
    (trail : Trail) : Prop where
  closed :
    ∀ x ∈ trail.path, ∀ p, t.parentId? x = some p →
      p ∈ trail.path ++ settled
  reached :
    ∀ x ∈ trail.path, ∃ k, t.ancestor? k start = some x
  round :
    ∀ ring, trail.circle = some ring →
      t.Circle ring ∧
        ∀ x ∈ ring, x ∈ trail.path ∧ x ∉ settled
  stopped :
    trail.circle = none →
      t.loop? start = none ∨
        ∃ a ∈ settled, ∃ k, t.ancestor? k start = some a

namespace Walked

variable {path : List String}
variable {id : String}

/- A chain that comes to a settled id. -/
theorem trailed_of_settled
    (h : t.Walked settled start path id)
    (hSettled : id ∈ settled) :
    t.Trailed settled start ⟨path, none⟩ := by
  have hMem :
      ∀ x ∈ id :: path, x ∈ path ++ settled :=
    List.forall_mem_cons.mpr
      ⟨List.mem_append_right path hSettled,
        fun x hx => List.mem_append_left settled hx⟩
  refine {
    closed := fun x hx p hParent =>
      hMem p (h.mem_of_parentId? hx hParent)
    reached := fun x hx =>
      h.reached x (List.mem_cons_of_mem id hx)
    round := nofun
    stopped := fun _ => ?_ }
  exact Or.inr ⟨id, hSettled, h.reached id List.mem_cons_self⟩

/- A chain that comes back to its path. -/
theorem trailed_of_mem
    (h : t.Walked settled start path id)
    (hBack : id ∈ path) :
    t.Trailed settled start
      ⟨path, some (id :: path.takeWhile (· != id))⟩ := by
  have hMem :
      ∀ x ∈ id :: path, x ∈ path ++ settled :=
    List.forall_mem_cons.mpr
      ⟨List.mem_append_left settled hBack,
        fun x hx => List.mem_append_left settled hx⟩
  refine {
    closed := fun x hx p hParent =>
      hMem p (h.mem_of_parentId? hx hParent)
    reached := fun x hx =>
      h.reached x (List.mem_cons_of_mem id hx)
    round := ?_
    stopped := nofun }
  rintro _ ⟨⟩
  refine ⟨circle_of_mem_path h.linked h.distinct hBack, ?_⟩
  intro x hx
  have hPath : x ∈ path := by
    rcases List.mem_cons.mp hx with rfl | hTaken
    · exact hBack
    · exact (List.takeWhile_sublist _).subset hTaken
  exact ⟨hPath, h.apart x hPath⟩

/- A chain that ends. -/
theorem trailed_of_end
    (h : t.Walked settled start path id)
    (hEnd : t.parentId? id = none) :
    t.Trailed settled start ⟨id :: path, none⟩ := by
  refine {
    closed := ?_
    reached := h.reached
    round := nofun
    stopped := fun _ => Or.inl ?_ }
  · intro x hx p hParent
    rcases List.mem_cons.mp hx with rfl | hPassed
    · rw [hEnd] at hParent
      cases hParent
    · exact List.mem_append_left settled
        (h.mem_of_parentId? hPassed hParent)
  · rcases h.reached id List.mem_cons_self with ⟨k, hk⟩
    exact (t.loop?_eq_none_iff start).mpr
      ⟨k, id, hk, hEnd⟩

/- Every chain comes to its end, with a turn for each node. -/
theorem exists_trailed
    (h : t.Walked settled start path id)
    {turns : Nat}
    (hTurns : t.size < turns + path.length) :
    ∃ trail, t.trail? settled turns path (some id) =
        some trail ∧ t.Trailed settled start trail := by
  induction turns generalizing path id with
  | zero =>
      have hLength := h.length_le
      omega
  | succ turns ih =>
      unfold trail?
      by_cases hSettled : id ∈ settled
      · rw [if_pos (by simpa using hSettled)]
        exact ⟨_, rfl, h.trailed_of_settled hSettled⟩
      rw [if_neg (by simpa using hSettled)]
      by_cases hBack : id ∈ path
      · rw [if_pos (by simpa using hBack)]
        exact ⟨_, rfl, h.trailed_of_mem hBack⟩
      rw [if_neg (by simpa using hBack)]
      cases hParent : t.parentId? id with
      | none =>
          refine ⟨⟨id :: path, none⟩, ?_,
            h.trailed_of_end hParent⟩
          unfold trail?
          rfl
      | some p =>
          refine ih (h.step hSettled hBack hParent) ?_
          rw [List.length_cons]
          omega

end Walked

------------------------------------------------------------
-- All Chains
------------------------------------------------------------

/-
  What is settled when some circles have been reported.  It
  is closed upward, the loops of its chains are among those
  reported, and it holds all of them.
-/
structure Settled
    (t : Flow)
    (settled : List String)
    (reported : List (List String)) : Prop where
  closed :
    ∀ x ∈ settled, ∀ p, t.parentId? x = some p →
      p ∈ settled
  told :
    ∀ x ∈ settled, ∀ members, t.loop? x = some members →
      members ∈ reported
  whole :
    ∀ members ∈ reported, ∀ x ∈ members, x ∈ settled

namespace Settled

variable {reported : List (List String)}
variable {trail : Trail}

/-
  A chain closes a circle exactly if it runs into one that
  has not been reported.
-/
theorem circle_eq
    (h : t.Settled settled reported)
    (hTrail : t.Trailed settled start trail) :
    (trail.circle.map inNameOrder) =
      (t.loop? start).filter (· ∉ reported) := by
  cases hCircle : trail.circle with
  | some ring =>
      rcases hTrail.round ring hCircle with ⟨hRing, hOn⟩
      rcases List.exists_mem_of_ne_nil ring hRing.nonempty
        with ⟨m, hm⟩
      rcases hTrail.reached m (hOn m hm).1 with ⟨k, hk⟩
      rw [hRing.loop?_eq hm hk, Option.map_some,
        Option.filter_some_pos]
      rw [decide_eq_true_eq]
      intro hOld
      exact (hOn m hm).2
        (h.whole _ hOld m ((mem_inNameOrder_iff ring m).mpr hm))
  | none =>
      rw [Option.map_none, eq_comm,
        Option.filter_eq_none_iff]
      intro members hLoop hNew
      rw [decide_eq_true_eq] at hNew
      rcases hTrail.stopped hCircle with
        hEnds | ⟨a, ha, k, hk⟩
      · rw [hEnds] at hLoop
        cases hLoop
      · rw [← loop?_eq_of_ancestor? hk] at hLoop
        exact hNew (h.told a ha members hLoop)

/- A path is settled when its circle has been reported. -/
theorem grow
    (h : t.Settled settled reported)
    (hTrail : t.Trailed settled start trail) :
    t.Settled (trail.path ++ settled)
      ((trail.circle.map inNameOrder).toList ++ reported) where
  closed := by
    intro x hx p hParent
    rcases List.mem_append.mp hx with hPath | hOld
    · exact hTrail.closed x hPath p hParent
    · exact List.mem_append_right _ (h.closed x hOld p hParent)
  told := by
    intro x hx members hLoop
    rcases List.mem_append.mp hx with hPath | hOld
    · rcases hTrail.reached x hPath with ⟨k, hk⟩
      rw [loop?_eq_of_ancestor? hk] at hLoop
      rw [h.circle_eq hTrail, hLoop]
      by_cases hMem : members ∈ reported
      · exact List.mem_append_right _ hMem
      · simp [hMem]
    · exact List.mem_append_right _ (h.told x hOld members hLoop)
  whole := by
    intro members hMem x hx
    rcases List.mem_append.mp hMem with hNew | hOld
    · rw [Option.mem_toList, Option.map_eq_some_iff] at hNew
      rcases hNew with ⟨ring, hRing, rfl⟩
      have hOn := (mem_inNameOrder_iff ring x).mp hx
      exact List.mem_append_left _
        ((hTrail.round ring hRing).2 x hOn).1
    · exact List.mem_append_right _ (h.whole members hOld x hx)

/- Nothing is settled before the first chain. -/
theorem initial (t : Flow) : t.Settled [] [] where
  closed := nofun
  told := nofun
  whole := nofun

end Settled

/-
  The reports are the distinct loops of the chains that have
  not been reported, in the order of the ids.
-/
theorem settle?_eq
    {reported : List (List String)}
    (h : t.Settled settled reported)
    {turns : Nat}
    (hTurns : t.size < turns)
    (ids : List String) :
    t.settle? turns settled ids =
      some ((ids.filterMap t.loop?).filter
        (· ∉ reported)).eraseDups := by
  induction ids generalizing settled reported with
  | nil => rfl
  | cons id ids ih =>
      rcases (Walked.initial t settled id).exists_trailed hTurns
        with ⟨trail, hEq, hTrail⟩
      have hLater := ih (h.grow hTrail)
      rw [h.circle_eq hTrail] at hLater
      unfold settle?
      rw [hEq, Option.bind_eq_bind, Option.bind_some, hLater,
        h.circle_eq hTrail]
      cases hLoop : t.loop? id with
      | none => simp [hLoop]
      | some members =>
          rw [List.filterMap_cons_some hLoop]
          by_cases hMem : members ∈ reported
          · rw [Option.filter_some_neg (by simp [hMem]),
              List.filter_cons_of_neg (by simp [hMem])]
            rfl
          · rw [Option.filter_some_pos (by simp [hMem]),
              List.filter_cons_of_pos (by simp [hMem]),
              List.eraseDups_cons, List.filter_filter]
            simp only [Option.toList_some, List.singleton_append,
              List.mem_cons, not_or, Bool.decide_and,
              ← bne_iff_ne, Bool.decide_eq_true, bne]
            rfl

------------------------------------------------------------
-- Findings
------------------------------------------------------------

/-
  Following the chains of all nodes, with more turns for each
  than there are nodes, comes to an end, and the circles it
  closes are the findings of cycles.  They correspond to the
  circles of parents:  each finding is about one, to each of
  them there is just one finding, with just its ids in order,
  and circles with the same ids only differ in where they
  begin.  Other ids than those that lie above themselves are
  not in these findings.
-/
theorem cycles_reported_once
    (t : Flow) :
    (∀ turns, t.size < turns →
      (t.settle? turns [] t.nodes.names).map
          (List.map fun ids => (Problem.cycle ids).finding) =
        some (t.findings.filter fun f => f.code == .cycle)) ∧
    (∀ f ∈ t.findings, f.code = .cycle →
      ∃ ring, t.Circle ring ∧
        f = (Problem.cycle (inNameOrder ring)).finding) ∧
    (∀ ring, t.Circle ring →
      ((t.findings.filter fun f => f.code == .cycle).filter
          fun f => f.nodes.any ring.contains) =
        [(Problem.cycle (inNameOrder ring)).finding] ∧
      (inNameOrder ring).Pairwise (· < ·) ∧
      (inNameOrder ring).Perm ring) ∧
    (∀ ring ring', t.Circle ring → t.Circle ring' →
      inNameOrder ring = inNameOrder ring' →
        ring.IsRotated ring') ∧
    (∀ id, (∃ f ∈ t.findings,
        f.code = .cycle ∧ id ∈ f.nodes) ↔ t.Above id id) := by
  refine ⟨?ends,
    fun f hf hCode =>
      (t.mem_findings_cycle_iff f).mp ⟨hf, hCode⟩,
    ?once, ?begins, ?hanging⟩
  case ends =>
    intro turns hTurns
    rw [settle?_eq (.initial t) hTurns, t.findings_cycle]
    simp [cycleProblems]
  case once =>
    intro ring hRing
    refine ⟨?_, pairwise_inNameOrder ring,
      perm_inNameOrder hRing.distinct⟩
    rw [t.findings_cycle, List.filter_map]
    exact congrArg (List.map Problem.finding)
      (filter_cycleProblems_eq hRing)
  case begins =>
    intro ring ring' hRing hRing' hSame
    refine hRing.isRotated hRing' fun x => ?_
    rw [← mem_inNameOrder_iff ring, hSame,
      mem_inNameOrder_iff ring']
  case hanging =>
    intro id
    constructor
    · rintro ⟨f, hf, hCode, hId⟩
      rcases (t.mem_findings_cycle_iff f).mp ⟨hf, hCode⟩ with
        ⟨ring, hRing, rfl⟩
      have hOn := (mem_inNameOrder_iff ring id).mp hId
      exact hRing.above hOn hOn
    · intro hAbove
      rcases exists_circle_of_above hAbove with
        ⟨ring, hRing, hOn⟩
      rcases (t.mem_findings_cycle_iff _).mpr
        ⟨ring, hRing, rfl⟩ with ⟨hf, hCode⟩
      exact ⟨_, hf, hCode,
        (mem_inNameOrder_iff ring id).mpr hOn⟩

end Flow

end CallFlow
