import CallFlow.Proofs.Flow.Accepted
import CallFlow.Proofs.Flow.Sound

/-
  Edits before and after their version is counted.

  An edit first writes a flow, or nothing, and only then is
  its version looked at.  So what an edit writes is the same
  at every version, and there is one way to be rejected, in
  the checks before, and one way to stop, at the version
  after the last.  What an edit leaves when it stops is what
  it leaves at any other version, but not counted.

  Main declarations:
    * `Flow.atVersion`
    * `Flow.Sound.atVersion`
    * `Flow.written`
    * `Flow.apply_eq_ok_iff`
    * `Flow.apply_eq_rejected_iff`
    * `Flow.apply_eq_stopped_iff`
    * `Flow.written_atVersion`
    * `Flow.eq_or_version_of_apply`
    * `Flow.exists_apply_of_stopped`
-/

namespace CallFlow

namespace Flow

variable {t t' : Flow}

------------------------------------------------------------
-- Flows at Other Versions
------------------------------------------------------------

/- The same flow at another version. -/
def atVersion
    (t : Flow)
    (v : UInt64) : Flow :=
  { t with version := v }

@[simp] theorem version_atVersion
    (t : Flow)
    (v : UInt64) : (t.atVersion v).version = v :=
  rfl

@[simp] theorem atVersion_atVersion
    (t : Flow)
    (v w : UInt64) :
    (t.atVersion v).atVersion w = t.atVersion w :=
  rfl

@[simp] theorem atVersion_version
    (t : Flow) : t.atVersion t.version = t :=
  rfl

/- A walk does not look at the version. -/
private theorem walk_atVersion
    (t : Flow)
    (v : UInt64)
    (turns : Nat)
    (seen ids : List String) :
    (t.atVersion v).walk turns seen ids =
      t.walk turns seen ids := by
  induction turns generalizing seen ids with
  | zero => rfl
  | succ turns ih =>
      rcases ids with _ | ⟨id, rest⟩
      · rfl
      · simp only [walk, ih]
        rfl

/- So the nodes below a node are the same. -/
private theorem descendants_atVersion
    (t : Flow)
    (v : UInt64)
    (id : String) :
    (t.atVersion v).descendants id = t.descendants id :=
  t.walk_atVersion v _ _ _

/- The next free id is the same. -/
private theorem freshId?_atVersion
    (t : Flow)
    (v : UInt64) : (t.atVersion v).freshId? = t.freshId? := by
  have hFrom : ∀ turns n,
      (t.atVersion v).freshIdFrom? turns n =
        t.freshIdFrom? turns n := by
    intro turns
    induction turns with
    | zero => exact fun _ => rfl
    | succ turns ih =>
        intro n
        simp only [freshIdFrom?, ih]
        rfl
  exact hFrom _ _

/- Soundness does not depend on the version. -/
theorem Sound.atVersion
    (h : t.Sound)
    (v : UInt64) : (t.atVersion v).Sound where
  root := h.root
  parented := h.parented
  links := h.links
  once := h.once
  parents := h.parents
  climbs := by
    intro id hContains
    rcases h.climbs id hContains with ⟨k, hk⟩
    have hSame :
        (t.atVersion v).ancestor? k id = t.ancestor? k id := by
      refine ancestor?_congr (S := fun _ => True)
        (fun _ _ _ _ => trivial) ?_ k trivial
      exact fun _ _ => rfl
    exact ⟨k, hSame.trans hk⟩
  keys := h.keys
  settings := h.settings

------------------------------------------------------------
-- What Is Written
------------------------------------------------------------

/-
  What an edit writes before it is counted, if it writes
  anything, with the id of an added node.
-/
def written
    (t : Flow) :
    Edit → Except EditError (Option Flow × Option String)
  | .add parent kind label key => do
      let (w, id) ← t.added parent kind label key
      return (some w, some id)
  | .update id p => do
      return (some (← t.updated id p), none)
  | .move id newParent => do
      return (← t.moved id newParent, none)
  | .delete id => do
      let (w, _) ← t.deleted id
      return (some w, none)

/- Count what was written, if anything was. -/
def counted
    (t : Flow) : Option Flow → Except EditFailure Flow
  | some w => w.commit
  | none => .ok t

/- An edit counts what it has written. -/
theorem apply_eq_counted
    (t : Flow)
    (e : Edit) :
    t.apply e =
      (t.written e).mapError .rejected >>= fun r =>
        t.counted r.1 >>= fun t' => pure (t', r.2) := by
  cases e with
  | add parent kind label key =>
      simp only [apply, add, written]
      rcases t.added parent kind label key with e | ⟨w, a⟩
      · rfl
      · show (w.commit >>= _) >>= _ = w.commit >>= _
        cases w.commit <;> rfl
  | update id p =>
      simp only [apply, update, written]
      cases t.updated id p <;> rfl
  | move id newParent =>
      simp only [apply, move, written]
      rcases t.moved id newParent with e | w
      · rfl
      · cases w <;> rfl
  | delete id =>
      simp only [apply, delete, written]
      rcases t.deleted id with e | ⟨w, a⟩
      · rfl
      · show (w.commit >>= _) >>= _ = w.commit >>= _
        cases w.commit <;> rfl

/- What was written is counted if a version is left for it. -/
theorem counted_eq_ok_iff
    {w : Option Flow} :
    t.counted w = .ok t' ↔
      (w = none ∧ t' = t) ∨
        ∃ f, w = some f ∧ f.HasNext ∧
          t' = f.atVersion (f.version + 1) := by
  cases w with
  | none => simp [counted, eq_comm]
  | some f =>
      unfold counted
      rw [commit_eq_ok_iff]
      constructor
      · rintro ⟨hNext, rfl⟩
        exact Or.inr ⟨f, rfl, hNext, rfl⟩
      · rintro (⟨⟨⟩, -⟩ | ⟨f, ⟨⟩, hNext, rfl⟩)
        exact ⟨hNext, rfl⟩

/- Counting stops exactly at the last version. -/
theorem counted_eq_error_iff
    {w : Option Flow}
    {f : EditFailure} :
    t.counted w = .error f ↔
      ∃ left, w = some left ∧ ¬ left.HasNext ∧
        f = .stopped left := by
  cases w with
  | none => simp [counted]
  | some left =>
      unfold counted
      rw [commit_eq_error_iff]
      simp

section Failing

variable {e : Edit}
variable {made : Option String}

/- An edit is accepted exactly if what it writes counts. -/
theorem apply_eq_ok_iff :
    t.apply e = .ok (t', made) ↔
      ∃ w, t.written e = .ok (w, made) ∧
        t.counted w = .ok t' := by
  rw [apply_eq_counted, bind_eq_ok_iff]
  simp only [mapError_eq_ok_iff, bind_eq_ok_iff]
  constructor
  · rintro ⟨⟨w, a⟩, hWritten, t₁, hCounted, ⟨⟩⟩
    exact ⟨w, hWritten, hCounted⟩
  · rintro ⟨w, hWritten, hCounted⟩
    exact ⟨(w, made), hWritten, t', hCounted, rfl⟩

/- It is rejected exactly if it is before it writes. -/
theorem apply_eq_rejected_iff
    {err : EditError} :
    t.apply e = .error (.rejected err) ↔
      t.written e = .error err := by
  rw [apply_eq_counted, bind_eq_error_iff,
    mapError_eq_error_iff]
  constructor
  · rintro (⟨err', hWritten, ⟨⟩⟩ | ⟨r, -, hCounted⟩)
    · exact hWritten
    · rcases bind_eq_error_iff.mp hCounted with
        hStopped | ⟨_, _, ⟨⟩⟩
      rcases counted_eq_error_iff.mp hStopped with
        ⟨_, _, _, ⟨⟩⟩
  · exact fun hWritten => Or.inl ⟨err, hWritten, rfl⟩

/- It stops exactly if what it writes does not count. -/
theorem apply_eq_stopped_iff
    {left : Flow} :
    t.apply e = .error (.stopped left) ↔
      ¬ left.HasNext ∧
        ∃ made, t.written e = .ok (some left, made) := by
  rw [apply_eq_counted, bind_eq_error_iff,
    mapError_eq_error_iff]
  simp only [mapError_eq_ok_iff]
  constructor
  · rintro (⟨_, _, ⟨⟩⟩ | ⟨⟨w, made⟩, hWritten, hCounted⟩)
    rcases bind_eq_error_iff.mp hCounted with
      hStopped | ⟨_, _, ⟨⟩⟩
    rcases counted_eq_error_iff.mp hStopped with
      ⟨_, rfl, hLast, ⟨⟩⟩
    exact ⟨hLast, made, hWritten⟩
  · rintro ⟨hLast, made, hWritten⟩
    refine Or.inr ⟨_, hWritten, bind_eq_error_iff.mpr ?_⟩
    exact Or.inl
      (counted_eq_error_iff.mpr ⟨left, rfl, hLast, rfl⟩)

end Failing

------------------------------------------------------------
-- Edits at Other Versions
------------------------------------------------------------

/- A step that is the same on both sides is passed over. -/
private theorem bind_eq_map
    {ε α β γ : Type}
    {x : Except ε α}
    {g : α → Except ε γ}
    {h : α → Except ε β}
    {f : β → γ}
    (hRest : ∀ a, g a = (h a).map f) :
    (x >>= g) = (x >>= h).map f := by
  cases x with
  | error e => rfl
  | ok a => exact hRest a

/- So is a check that fails on both sides or on none. -/
private theorem ite_eq_map
    {ε β γ : Type}
    {P : Prop}
    [Decidable P]
    {e : ε}
    {y : Except ε γ}
    {x : Except ε β}
    {f : β → γ}
    (hRest : y = x.map f) :
    (if P then .error e else y) =
      (if P then .error e else x).map f := by
  split
  · rfl
  · exact hRest

/- What is added is the same at every version. -/
private theorem added_atVersion
    (t : Flow)
    (v : UInt64)
    (parent : String)
    (kind : StepKind)
    (label : String)
    (key : Option Key) :
    (t.atVersion v).added parent kind label key =
      (t.added parent kind label key).map fun r =>
        (r.1.atVersion v, r.2) := by
  refine bind_eq_map fun n => bind_eq_map fun u => ?_
  rw [freshId?_atVersion]
  cases t.freshId? <;> rfl

/- So is what is changed. -/
private theorem updated_atVersion
    (t : Flow)
    (v : UInt64)
    (id : String)
    (p : Patch) :
    (t.atVersion v).updated id p =
      (t.updated id p).map fun w => w.atVersion v := by
  refine bind_eq_map fun n => bind_eq_map fun settings =>
    bind_eq_map fun key => ?_
  rfl

/- So is what is moved, if anything is. -/
private theorem moved_atVersion
    (t : Flow)
    (v : UInt64)
    (id newParent : String) :
    (t.atVersion v).moved id newParent =
      (t.moved id newParent).map fun w =>
        w.map fun f => f.atVersion v := by
  refine bind_eq_map fun n => ite_eq_map <|
    bind_eq_map fun p => ?_
  simp only [descendants_atVersion]
  refine ite_eq_map ?_
  by_cases hStays : n.parent = some newParent
  · simp only [if_pos hStays]
    rfl
  · simp only [if_neg hStays]
    exact bind_eq_map fun u => rfl

/- So is what is deleted. -/
private theorem deleted_atVersion
    (t : Flow)
    (v : UInt64)
    (id : String) :
    (t.atVersion v).deleted id =
      (t.deleted id).map fun r => (r.1.atVersion v, r.2) := by
  refine bind_eq_map fun n => ite_eq_map ?_
  simp only [descendants_atVersion]
  rfl

/- Edits write the same at every version. -/
theorem written_atVersion
    (t : Flow)
    (v : UInt64)
    (e : Edit) :
    (t.atVersion v).written e =
      (t.written e).map fun r =>
        (r.1.map fun f => f.atVersion v, r.2) := by
  cases e with
  | add parent kind label key =>
      simp only [written, added_atVersion]
      cases t.added parent kind label key <;> rfl
  | update id p =>
      simp only [written, updated_atVersion]
      cases t.updated id p <;> rfl
  | move id newParent =>
      simp only [written, moved_atVersion]
      cases t.moved id newParent <;> rfl
  | delete id =>
      simp only [written, deleted_atVersion]
      cases t.deleted id <;> rfl

/- Nothing that is written has another version. -/
theorem version_of_written
    {e : Edit}
    {w : Flow}
    {made : Option String}
    (h : t.written e = .ok (some w, made)) :
    w.version = t.version := by
  have hHere := t.written_atVersion t.version e
  rw [atVersion_version, h] at hHere
  have hSame : w = w.atVersion t.version := by
    simpa [Except.map] using hHere
  rw [hSame, version_atVersion]

/- An accepted edit changes nothing, or is one version on. -/
theorem eq_or_version_of_apply
    {e : Edit}
    {made : Option String}
    (h : t.apply e = .ok (t', made)) :
    t' = t ∨ t.HasNext ∧ t'.version = t.version + 1 := by
  rcases apply_eq_ok_iff.mp h with ⟨w, hWritten, hCounted⟩
  rcases counted_eq_ok_iff.mp hCounted with
    ⟨-, hSame⟩ | ⟨f, rfl, hNext, rfl⟩
  · exact Or.inl hSame
  · have hVersion := version_of_written hWritten
    refine Or.inr ⟨?_, ?_⟩
    · rwa [HasNext, ← hVersion]
    · rw [version_atVersion, hVersion]

/-
  An edit that stops is at the last version.  At any other
  version it is accepted, and leaves the same.
-/
theorem exists_apply_of_stopped
    {e : Edit}
    {left : Flow}
    (h : t.apply e = .error (.stopped left)) :
    ¬ t.HasNext ∧ left.version = t.version ∧
      ∃ made, ∀ v : UInt64, v.toNat + 1 < UInt64.size →
        (t.atVersion v).apply e =
          .ok (left.atVersion (v + 1), made) := by
  rcases apply_eq_stopped_iff.mp h with
    ⟨hLast, made, hWritten⟩
  have hVersion := version_of_written hWritten
  refine ⟨?_, hVersion, made, fun v hNext => ?_⟩
  · rwa [HasNext, ← hVersion]
  · refine apply_eq_ok_iff.mpr ⟨some (left.atVersion v), ?_, ?_⟩
    · rw [written_atVersion, hWritten]
      rfl
    · exact counted_eq_ok_iff.mpr
        (Or.inr ⟨left.atVersion v, rfl, hNext, rfl⟩)

end Flow

end CallFlow
