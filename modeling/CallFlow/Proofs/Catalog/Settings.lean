import CallFlow.Flow.Edit
import CallFlow.Proofs.NameMap
import CallFlow.Proofs.Results

/-
  Settings that could be written.

  The settings of a new step pass the checks of the catalog,
  and changing settings one by one keeps them so, since each
  value is checked when it is written.

  Main declarations:
    * `StepKind.Admits`
    * `StepKind.admits_initialSettings`
    * `StepKind.admits_changeAll`
-/

namespace CallFlow

namespace StepKind

/- Every setting could be written to a step of a kind. -/
def Admits
    (k : StepKind)
    (s : Settings) : Prop :=
  ∀ name v, s.get? name = some v → k.check name v = .ok ()

/- Whether a write is accepted. -/
def accepts
    (k : StepKind)
    (e : String × Value) : Bool :=
  match k.check e.1 e.2 with
  | .ok _ => true
  | .error _ => false

/- The settings of a new step could be written. -/
theorem admits_initialSettings
    (k : StepKind) : k.Admits k.initialSettings := by
  intro name v hValue
  have hMem := NameMap.mem_of_get?_ofList hValue
  have hAll :
      ∀ e ∈ k.params.filterMap fun p =>
          p.initial.map fun v => (p.name, v),
        k.accepts e = true := by
    cases k <;> decide +kernel
  have hAccepts := hAll (name, v) hMem
  unfold accepts at hAccepts
  split at hAccepts
  · rename_i hCheck
    exact hCheck
  · cases hAccepts

/- A single change leaves settings that could be written. -/
theorem admits_change
    {k : StepKind}
    {s s' : Settings}
    {entry : String × Option Value}
    (hBefore : k.Admits s)
    (h : k.change s entry = .ok s') : k.Admits s' := by
  rcases entry with ⟨changed, value⟩
  intro name v hValue
  cases value with
  | some w =>
      rcases bind_eq_ok_iff.mp h with ⟨u, hCheck, hDone⟩
      cases hDone
      rw [NameMap.get?_insert] at hValue
      split at hValue
      · rename_i hName
        cases hValue
        exact hName ▸ hCheck
      · exact hBefore name v hValue
  | none =>
      unfold change at h
      simp only at h
      split at h
      · cases h
        rw [NameMap.get?_erase] at hValue
        split at hValue
        · cases hValue
        · exact hBefore name v hValue
      · cases h

/- All changes leave settings that could be written. -/
theorem admits_changeAll
    {k : StepKind}
    {s s' : Settings}
    {changes : NameMap (Option Value)}
    (hBefore : k.Admits s)
    (h : k.changeAll s changes = .ok s') : k.Admits s' := by
  unfold changeAll at h
  generalize changes.entries = entries at h
  induction entries generalizing s with
  | nil =>
      cases h
      exact hBefore
  | cons e rest ih =>
      rw [List.foldlM_cons] at h
      rcases bind_eq_ok_iff.mp h with ⟨next, hFirst, hRest⟩
      exact ih (admits_change hBefore hFirst) hRest

end StepKind

end CallFlow
