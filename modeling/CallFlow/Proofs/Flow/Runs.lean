import CallFlow.Proofs.Flow.Changing
import CallFlow.Proofs.Flow.Committing
import CallFlow.Proofs.Flow.Cutting
import CallFlow.Proofs.Flow.Hanging
import CallFlow.Proofs.Flow.Validation
import CallFlow.Snapshot.Load

/-
  Runs of calls on a flow.

  A flow that is new or was loaded is sound, and every call
  keeps it so, whether the call is accepted, is rejected or
  stops.  So whatever a program does to a flow, the check
  finds no error in it.

  Main declarations:
    * `Call`
    * `Flow.after`
    * `Flow.given`
    * `Flow.after_cases`
    * `Flow.run`
    * `Flow.Reachable`
    * `Flow.sound_run`
    * `Flow.Reachable.sound`
    * `Flow.error_free_run`
-/

namespace CallFlow

------------------------------------------------------------
-- Calls
------------------------------------------------------------

/- The calls that edit a flow. -/
inductive Call where
  | add
      (parent : String)
      (kind : StepKind)
      (label : String)
      (key : Option Key)
  | update (id : String) (patch : Patch)
  | move (id newParent : String)
  | delete (id : String)
  | submit (e : Edit)
  | apply (e : Edit)
  | applyAt (expected : UInt64) (e : Edit)

namespace Flow

/- The flow after an edit of a copy, if there is one. -/
def kept
    (t : Flow) : Except EditFailure Flow → Flow
  | .ok t' => t'
  | .error _ => t

/-
  The flow after a call.  The last two edit a copy, and the
  others edit the flow where it stands.
-/
def after
    (t : Flow) : Call → Flow
  | .add parent kind label key =>
      t.left ((t.add parent kind label key).map Prod.fst)
  | .update id patch => t.left (t.update id patch)
  | .move id newParent => t.left (t.move id newParent)
  | .delete id => t.left ((t.delete id).map Prod.fst)
  | .submit e => t.submit e
  | .apply e => t.kept ((t.apply e).map Prod.fst)
  | .applyAt expected e =>
      t.kept ((t.applyAt expected e).map Prod.fst)

/- The id that an edit returns when it is accepted. -/
def made? :
    Except EditFailure (Flow × Option String) → Option String
  | .ok (_, made) => made
  | .error _ => none

/- The id that a call hands out, if it adds a node. -/
def given
    (t : Flow) : Call → Option String
  | .add parent kind label key =>
      match t.add parent kind label key with
      | .ok (_, id) => some id
      | .error _ => none
  | .update _ _ => none
  | .move _ _ => none
  | .delete _ => none
  | .submit e => made? (t.apply e)
  | .apply e => made? (t.apply e)
  | .applyAt expected e => made? (t.applyAt expected e)

/- The flow after calls. -/
def run
    (t : Flow)
    (calls : List Call) : Flow :=
  calls.foldl after t

/- A flow that was just made or loaded. -/
def Initial
    (t : Flow) : Prop :=
  (∃ name, t = .new name) ∨ ∃ d : Document, d.flow = .ok t

/- A flow that a program can get to. -/
def Reachable
    (t : Flow) : Prop :=
  ∃ (s : Flow) (calls : List Call),
    s.Initial ∧ s.run calls = t

variable {t t' : Flow}

------------------------------------------------------------
-- Initial Flows
------------------------------------------------------------

/- A new flow holds its root and nothing else. -/
theorem get?_new
    (name x : String) :
    (Flow.new name).get? x =
      if x = firstRootId then
        some (.fresh .playback firstRootLabel none none)
      else none :=
  NameMap.empty.get?_insert firstRootId x _

/- A new flow is sound. -/
theorem sound_new
    (name : String) : (Flow.new name).Sound := by
  have hLookup := get?_new name
  have hParentIds : ∀ x,
      (Flow.new name).parentId? x = none := by
    intro x
    unfold parentId?
    rw [hLookup]
    split <;> rfl
  have hChildIds : ∀ x, (Flow.new name).childIds x = [] := by
    intro x
    unfold childIds
    rw [hLookup]
    split
    · rename_i hNode
      split at hNode
      · cases hNode
        rfl
      · cases hNode
    · rfl
  have hOnlyRoot : ∀ x, (Flow.new name).contains x = true →
      x = firstRootId := by
    intro x hx
    rw [contains_eq_isSome, hLookup] at hx
    by_cases hRoot : x = firstRootId
    · exact hRoot
    · rw [if_neg hRoot] at hx
      cases hx
  refine Sound.of_views ?_ (hParentIds _) ?_ ?_ ?_ ?_ ?_ ?_
  · unfold hasKey
    rw [hLookup]
    rfl
  · intro x hx hNotRoot
    exact absurd (hOnlyRoot x hx) hNotRoot
  · intro p c
    simp [hParentIds, hChildIds]
  · intro p
    simp [hChildIds]
  · intro x hx
    exact ⟨0, congrArg some (hOnlyRoot x hx)⟩
  · intro p key c₁ c₂ h₁
    simp [hChildIds] at h₁
  · intro x n hNode
    rw [hLookup] at hNode
    split at hNode
    · cases hNode
      exact StepKind.playback.admits_initialSettings
    · cases hNode

/- A flow that is loaded has been checked. -/
theorem clean_of_flow_eq_ok
    {d : Document}
    (h : d.flow = .ok t) : t.Clean := by
  unfold Document.flow at h
  split at h
  · cases h
  · rcases bind_eq_ok_iff.mp h with ⟨s, -, hChecked⟩
    simp only at hChecked
    split at hChecked
    · cases hChecked
    · rename_i hNoError
      cases hChecked
      exact (clean_iff_any_isError t).mpr
        (Bool.eq_false_iff.mpr hNoError)

/- Flows that were just made or loaded are sound. -/
theorem Initial.sound
    (h : t.Initial) : t.Sound := by
  rcases h with ⟨name, hNew⟩ | ⟨d, hLoaded⟩
  · rw [hNew]
    exact sound_new name
  · exact sound_of_clean (clean_of_flow_eq_ok hLoaded)

------------------------------------------------------------
-- Steps
------------------------------------------------------------

/- An edit that is applied leaves a sound flow. -/
theorem Sound.apply
    {e : Edit}
    {made : Option String}
    (h : t.Sound)
    (hApply : t.apply e = .ok (t', made)) : t'.Sound := by
  cases e with
  | add parent kind label key =>
      rcases bind_eq_ok_iff.mp hApply with
        ⟨⟨t₁, id⟩, hAdd, hDone⟩
      cases hDone
      exact h.add hAdd
  | update id patch =>
      rcases bind_eq_ok_iff.mp hApply with
        ⟨t₁, hUpdate, hDone⟩
      cases hDone
      exact h.update hUpdate
  | move id newParent =>
      rcases bind_eq_ok_iff.mp hApply with
        ⟨t₁, hMove, hDone⟩
      cases hDone
      exact h.move hMove
  | delete id =>
      rcases bind_eq_ok_iff.mp hApply with
        ⟨⟨t₁, removed⟩, hDelete, hDone⟩
      cases hDone
      exact h.delete hDelete

/- So does one that stops. -/
theorem Sound.stopped
    {e : Edit}
    {left : Flow}
    (h : t.Sound)
    (hStopped : t.apply e = .error (.stopped left)) :
    left.Sound := by
  rcases exists_apply_of_stopped hStopped with
    ⟨-, -, made, hElsewhere⟩
  have hApply := hElsewhere 0 (by decide)
  exact ((h.atVersion 0).apply hApply).atVersion left.version

/-
  A call leaves the flow, or what an accepted edit leaves, or
  what an edit that stops does.  An id is handed out only by
  an accepted edit.
-/
theorem after_cases
    (t : Flow)
    (c : Call) :
    (t.after c = t ∧ t.given c = none) ∨
      ∃ e, t.apply e = .ok (t.after c, t.given c) ∨
        (t.apply e = .error (.stopped (t.after c)) ∧
          t.given c = none) := by
  have hSubmit : ∀ e,
      (t.submit e = t ∧ made? (t.apply e) = none) ∨
        t.apply e = .ok (t.submit e, made? (t.apply e)) ∨
        (t.apply e = .error (.stopped (t.submit e)) ∧
          made? (t.apply e) = none) := by
    intro e
    unfold submit
    rcases t.apply e with (err | left) | r
    · exact Or.inl ⟨rfl, rfl⟩
    · exact Or.inr (Or.inr ⟨rfl, rfl⟩)
    · exact Or.inr (Or.inl rfl)
  -- The single edits are submitted.
  have hSingle : ∀ e, t.after c = t.submit e →
      t.given c = made? (t.apply e) →
        (t.after c = t ∧ t.given c = none) ∨
          ∃ e, t.apply e = .ok (t.after c, t.given c) ∨
            (t.apply e = .error (.stopped (t.after c)) ∧
              t.given c = none) := by
    intro e hAfter hGiven
    rw [hAfter, hGiven]
    exact (hSubmit e).imp_right fun h => ⟨e, h⟩
  -- A copy is kept only if the edit of it is accepted.
  have hCopy : ∀ e,
      t.after c = t.kept ((t.apply e).map Prod.fst) →
      t.given c = made? (t.apply e) →
        (t.after c = t ∧ t.given c = none) ∨
          ∃ e, t.apply e = .ok (t.after c, t.given c) ∨
            (t.apply e = .error (.stopped (t.after c)) ∧
              t.given c = none) := by
    intro e hAfter hGiven
    rw [hAfter, hGiven]
    cases hApply : t.apply e with
    | error f => exact Or.inl ⟨rfl, rfl⟩
    | ok r => exact Or.inr ⟨e, Or.inl hApply⟩
  cases c with
  | add parent kind label key =>
      refine hSingle (.add parent kind label key) ?_ ?_ <;>
        simp only [after, given, submit, apply] <;>
        cases t.add parent kind label key <;> rfl
  | update id p =>
      refine hSingle (.update id p) ?_ ?_ <;>
        simp only [after, given, submit, apply] <;>
        cases t.update id p <;> rfl
  | move id newParent =>
      refine hSingle (.move id newParent) ?_ ?_ <;>
        simp only [after, given, submit, apply] <;>
        cases t.move id newParent <;> rfl
  | delete id =>
      refine hSingle (.delete id) ?_ ?_ <;>
        simp only [after, given, submit, apply] <;>
        cases t.delete id <;> rfl
  | submit e => exact hSingle e rfl rfl
  | apply e => exact hCopy e rfl rfl
  | applyAt expected e =>
      by_cases hVersion : expected = t.version
      · refine hCopy e ?_ ?_ <;>
          simp only [after, given, applyAt, if_pos hVersion]
      · refine Or.inl ?_
        simp only [after, given, applyAt, if_neg hVersion]
        exact ⟨rfl, rfl⟩

/- Every call leaves a sound flow, also when it fails. -/
theorem Sound.after
    (h : t.Sound)
    (c : Call) : (t.after c).Sound := by
  rcases t.after_cases c with
    ⟨hSame, -⟩ | ⟨e, hApply | ⟨hStopped, -⟩⟩
  · rw [hSame]
    exact h
  · exact h.apply hApply
  · exact h.stopped hStopped

------------------------------------------------------------
-- Runs
------------------------------------------------------------

/- Every run from a sound flow leaves a sound flow. -/
theorem sound_run
    (h : t.Sound)
    (calls : List Call) : (t.run calls).Sound := by
  induction calls generalizing t with
  | nil => exact h
  | cons c rest ih => exact ih (h.after c)

/- Whatever a program gets to is sound. -/
theorem Reachable.sound
    (h : t.Reachable) : t.Sound := by
  rcases h with ⟨s, calls, hInitial, hRun⟩
  rw [← hRun]
  exact sound_run hInitial.sound calls

/-
  After any calls on a new or loaded flow the check finds no
  error: the flow is sound, no node is above itself, and
  every node is listed from the root on.
-/
theorem error_free_run
    {s : Flow}
    (hInitial : s.Initial)
    (calls : List Call) :
    (∀ f ∈ (s.run calls).findings, f.isError = false) ∧
      (s.run calls).Sound ∧
      ∀ id, (s.run calls).contains id = true →
        (∀ k, (s.run calls).ancestor? (k + 1) id ≠
          some id) ∧
          id ∈ (s.run calls).preorder := by
  have hSound := sound_run hInitial.sound calls
  refine ⟨hSound.clean, hSound, ?_⟩
  intro id hContains
  exact
    ⟨fun k => hSound.not_own_ancestor hContains,
      hSound.mem_preorder hContains⟩

/-
  A new flow in which an entry for a key was made.  A second
  entry for the key was refused, as was moving the root
  below its entry, and deleting it at an older version.
-/
theorem error_free_run_new :
    let calls : List Call :=
      [.add firstRootId .background "Sales" (some .star),
        .submit (.add firstRootId .hangup "Bye" (some .star)),
        .move firstRootId "n1",
        .applyAt 0 (.delete "n1")]
    (Flow.new unnamed).Initial ∧
      (∀ f ∈ ((Flow.new unnamed).run calls).findings,
        f.isError = false) ∧
      ((Flow.new unnamed).run calls).preorder =
        [firstRootId, "n1"] :=
  ⟨Or.inl ⟨unnamed, rfl⟩,
    (error_free_run (Or.inl ⟨unnamed, rfl⟩) _).1,
    by decide +kernel⟩

end Flow

end CallFlow
