import CallFlow.Proofs.Flow.InPlace
import CallFlow.Proofs.Flow.Runs
import CallFlow.Proofs.Snapshot.NormalForm

/-
  Versions of a flow.

  A call that changes a flow is one version on, as long as
  there is a next version.  At the last one there is none,
  and an edit that would be accepted anywhere else stops
  with its nodes written.  So the version of a flow counts
  what was accepted, and never goes back.

  Main declarations:
    * `Flow.after_eq_or_version`
    * `Flow.changes`
    * `Flow.version_run`
    * `Flow.stops_iff`
    * `Flow.versions_advance`
    * `Flow.last_version_stops`
-/

namespace CallFlow

namespace Flow

variable {t : Flow}

------------------------------------------------------------
-- Next Versions
------------------------------------------------------------

/- An accepted edit that changes the flow is one more. -/
theorem eq_or_toNat_version_of_apply
    {t' : Flow}
    {e : Edit}
    {made : Option String}
    (h : t.apply e = .ok (t', made)) :
    t' = t ∨
      t'.version.toNat = t.version.toNat + 1 ∧
        t.version < t'.version := by
  refine (eq_or_version_of_apply h).imp_right ?_
  rintro ⟨hNext, hVersion⟩
  rw [hVersion]
  exact ⟨hNext.toNat_succ, hNext.lt_succ⟩

------------------------------------------------------------
-- Calls
------------------------------------------------------------

/-
  A call leaves the flow, or is one version on.  At the last
  version one that changes the flow stays at it.
-/
theorem after_eq_or_version
    (t : Flow)
    (c : Call) :
    t.after c = t ∨
      (t.HasNext ∧
        (t.after c).version = t.version + 1) ∨
      ¬ t.HasNext ∧ (t.after c).version = t.version := by
  rcases t.after_cases c with
    ⟨hSame, -⟩ | ⟨e, hApply | ⟨hStopped, -⟩⟩
  · exact Or.inl hSame
  · exact (eq_or_version_of_apply hApply).imp_right Or.inl
  · rcases exists_apply_of_stopped hStopped with
      ⟨hLast, hVersion, -⟩
    exact Or.inr (Or.inr ⟨hLast, hVersion⟩)

------------------------------------------------------------
-- Runs
------------------------------------------------------------

/-
  The number of calls of a run that change the flow and are
  counted.  One that changes it at the last version is not.
-/
def changes
    (t : Flow) : List Call → Nat
  | [] => 0
  | c :: rest =>
      (if t.HasNext ∧ t.after c ≠ t then 1 else 0) +
        (t.after c).changes rest

/- The version counts the changes. -/
theorem version_run
    (t : Flow)
    (calls : List Call) :
    (t.run calls).version.toNat =
      t.version.toNat + t.changes calls := by
  induction calls generalizing t with
  | nil => rfl
  | cons c rest ih =>
      have hFirst :
          (t.after c).version.toNat =
            t.version.toNat +
              if t.HasNext ∧ t.after c ≠ t then 1 else 0 := by
        rcases t.after_eq_or_version c with
          hSame | ⟨hNext, hVersion⟩ | ⟨hLast, hVersion⟩
        · simp [hSame]
        · have hChanged : t.after c ≠ t := by
            intro hSame
            have hLt := hNext.lt_succ
            rw [← hVersion, hSame] at hLt
            exact UInt64.lt_irrefl _ hLt
          rw [if_pos ⟨hNext, hChanged⟩, hVersion,
            hNext.toNat_succ]
        · rw [if_neg fun h => hLast h.1, hVersion]
          rfl
      have hRun : t.run (c :: rest) = (t.after c).run rest :=
        rfl
      rw [hRun, ih (t.after c), hFirst, changes, Nat.add_assoc]

------------------------------------------------------------
-- The Last Version
------------------------------------------------------------

/-
  An edit stops exactly at the last version, if it would be
  accepted at another one and change the flow there.  It
  leaves what it would leave there, not counted.
-/
theorem stops_iff
    (t : Flow)
    (e : Edit)
    (left : Flow) :
    t.apply e = .error (.stopped left) ↔
      ¬ t.HasNext ∧
        ∃ v t' made, (t.atVersion v).apply e = .ok (t', made) ∧
          t' ≠ t.atVersion v ∧
          left = t'.atVersion t.version := by
  constructor
  · intro hStopped
    rcases exists_apply_of_stopped hStopped with
      ⟨hLast, hVersion, made, hElsewhere⟩
    refine
      ⟨hLast, 0, left.atVersion 1, made,
        hElsewhere 0 (by decide), ?_, ?_⟩
    · intro hSame
      have hZero : (1 : UInt64) = 0 :=
        congrArg Flow.version hSame
      exact absurd hZero (by decide)
    · rw [atVersion_atVersion, ← hVersion, atVersion_version]
  · rintro ⟨hLast, v, t', made, hApply, hChanged, rfl⟩
    rcases apply_eq_ok_iff.mp hApply with
      ⟨w, hWritten, hCounted⟩
    rcases counted_eq_ok_iff.mp hCounted with
      ⟨-, hSame⟩ | ⟨f, rfl, -, rfl⟩
    · exact absurd hSame hChanged
    · refine apply_eq_stopped_iff.mpr ⟨hLast, made, ?_⟩
      have hHere :=
        (t.atVersion v).written_atVersion t.version e
      rw [hWritten] at hHere
      exact hHere

------------------------------------------------------------
-- Loaded Flows
------------------------------------------------------------

/-
  The versions of a flow that was loaded at any version, as
  whole numbers.  They count the changes of a run.  An edit
  that is made in place and accepted changes nothing, or is
  exactly one version on.  A rejected one leaves the flow as
  it is.  One stops exactly at the last version, if it would
  be accepted and change the flow at another: then the nodes
  are left as they would be there, and the version is not
  advanced.
-/
theorem versions_advance
    {d : Document}
    (hLoaded : d.flow = .ok t)
    (calls : List Call) :
    let s := t.run calls
    s.version.toNat =
        d.revision.toNat + t.changes calls ∧
      ∀ e,
        (∀ made s',
          (Procedure.perform e).run s = .ok made s' →
            s' = s ∨
              s'.version.toNat = s.version.toNat + 1 ∧
                s.version < s'.version) ∧
        (∀ err s',
          (Procedure.perform e).run s =
              .error (.rejected err) s' →
            s' = s) ∧
        ∀ left s',
          (Procedure.perform e).run s =
              .error (.stopped left) s' ↔
            s.version.toNat + 1 = UInt64.size ∧ s' = left ∧
              ∃ v t' made,
                (s.atVersion v).apply e = .ok (t', made) ∧
                  t' ≠ s.atVersion v ∧
                  left = t'.atVersion s.version := by
  intro s
  have hStart : t.version = d.revision :=
    (congrArg Document.revision
      (Document.flow_eq_ok_iff.mp hLoaded).1).symm
  refine ⟨hStart ▸ t.version_run calls, fun e => ?_⟩
  rw [Procedure.run_perform]
  refine ⟨?_, ?_, ?_⟩
  · intro made s' hRun
    cases hApply : s.apply e with
    | error f =>
        rw [hApply] at hRun
        cases hRun
    | ok r =>
        rw [hApply] at hRun
        cases hRun
        exact eq_or_toNat_version_of_apply hApply
  · intro err s' hRun
    rcases hApply : s.apply e with f | r
    · rw [hApply] at hRun
      cases hRun
      rfl
    · rw [hApply] at hRun
      cases hRun
  · intro left s'
    have hLast :
        s.version.toNat + 1 = UInt64.size ↔ ¬ s.HasNext := by
      have hBelow : s.version.toNat < UInt64.size :=
        s.version.toNat_lt
      unfold HasNext
      omega
    rw [hLast, and_left_comm, ← s.stops_iff e left]
    rcases s.apply e with f | r
    · constructor
      · rintro ⟨⟩
        exact ⟨rfl, rfl⟩
      · rintro ⟨rfl, ⟨⟩⟩
        rfl
    · exact iff_of_false nofun nofun

/- A flow that just was made, but at another version. -/
private theorem flow_new_atVersion
    (v : UInt64) :
    ((Flow.new unnamed).atVersion v).document.flow =
      .ok ((Flow.new unnamed).atVersion v) :=
  flow_document ((sound_new unnamed).atVersion v).clean

/-
  A flow that is loaded at the version before the last one.
  A label is changed, and then a node can be written but not
  be counted.
-/
theorem versions_advance_to_last :
    let t := (Flow.new unnamed).atVersion (-2)
    let d := t.document
    let s := t.run
      [.update firstRootId
        { Patch.empty with label := some "Welcome" }]
    let e : Edit := .add firstRootId .hangup "" none
    d.flow = .ok t ∧
      s.version.toNat = d.revision.toNat + 1 ∧
      s.version.toNat + 1 = UInt64.size ∧
      ∃ left,
        (Procedure.perform e).run s =
            .error (.stopped left) left ∧
          left.nodes ≠ s.nodes ∧ left.version = s.version := by
  intro t d s e
  have hLoaded : d.flow = .ok t := flow_new_atVersion (-2)
  have hAdvance := versions_advance hLoaded
    [.update firstRootId
      { Patch.empty with label := some "Welcome" }]
  let s' := (s.atVersion 0).submit e
  have hApply : (s.atVersion 0).apply e = .ok (s', some "n1") :=
    by decide +kernel
  refine
    ⟨hLoaded, hAdvance.1.trans (by decide +kernel),
      by decide +kernel, s'.atVersion s.version, ?_,
      by decide +kernel, rfl⟩
  exact ((hAdvance.2 e).2.2 _ _).mpr
    ⟨by decide +kernel, rfl, 0, s', some "n1", hApply,
      by decide +kernel, rfl⟩

/-
  At the last version an edit that would be accepted at
  another one stops.  It has changed the nodes, and has not
  advanced the version.
-/
theorem last_version_stops :
    let e : Edit :=
      .update firstRootId
        { Patch.empty with label := some "Welcome" }
    ∃ (d : Document) (t left : Flow),
      d.flow = .ok t ∧
        (∃ t', (t.atVersion 0).apply e = .ok (t', none)) ∧
        (Procedure.perform e).run t =
          .error (.stopped left) left ∧
        left.nodes ≠ t.nodes ∧ left.version = t.version := by
  intro e
  let t := (Flow.new unnamed).atVersion (-1)
  have hStopped :
      t.apply e = .error (.stopped (t.submit e)) := by
    decide +kernel
  refine
    ⟨t.document, t, t.submit e, flow_new_atVersion (-1),
      ⟨(t.atVersion 0).submit e, by decide +kernel⟩, ?_,
      by decide +kernel, by decide +kernel⟩
  rw [Procedure.run_perform, hStopped]
  rfl

end Flow

end CallFlow
