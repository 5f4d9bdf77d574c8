import CallFlow.Proofs.Catalog.Settings
import CallFlow.Proofs.Compile.Planning

/-
  A complete flow can be emitted.

  The checks of the catalog and those of the emitters are
  written apart from each other: the catalog says which
  parameters are required, of which sort and in which range,
  and an emitter fails for want of what it needs.  What an
  emitter needs is there if the catalog finds nothing missing
  and every setting could be written.

  Main declarations:
    * `StepKind.exists_text_of_required`
    * `StepKind.exists_count_of_required`
    * `Emitter.exists_standard`
    * `Outline.exists_action_of_plan_eq_error`
    * `Outline.exists_plan`
-/

namespace CallFlow

------------------------------------------------------------
-- Required Parameters
------------------------------------------------------------

namespace StepKind

variable {k : StepKind}
variable {s : Settings}
variable {name : String}
variable {p : Param}

/- A value that could be written is of the sort and range. -/
private theorem of_check_eq_ok
    {v : Value}
    (hParam : k.param? name = some p)
    (h : k.check name v = .ok ()) :
    p.sort.accepts v = true ∧ p.missedRange? v = none := by
  unfold check at h
  simp only [hParam] at h
  split at h
  · cases h
  · rename_i hSort
    split at h
    · cases h
    · rename_i hRange
      exact ⟨by simpa using hSort, hRange⟩

/- What is required has a value, which could be written. -/
private theorem exists_of_required
    (hAdmits : k.Admits s)
    (hComplete : k.missingParams s = [])
    (hParam : k.param? name = some p)
    (hRequired : p.required = true) :
    ∃ v, s.get? name = some v ∧ v.isBlank = false ∧
      p.sort.accepts v = true ∧
      p.missedRange? v = none := by
  have hName : p.name = name := by
    simpa using List.find?_some hParam
  have hListed : p ∈ k.params :=
    List.mem_of_find?_eq_some hParam
  have hThere :=
    List.filter_eq_nil_iff.mp
      (List.map_eq_nil_iff.mp hComplete) p hListed
  rw [hRequired, Bool.true_and, hName] at hThere
  cases hValue : s.get? name with
  | none => simp [hValue] at hThere
  | some v =>
      refine ⟨v, rfl, ?_, ?_⟩
      · simpa [hValue] using hThere
      · exact of_check_eq_ok hParam (hAdmits name v hValue)

/- A required text is there, and is not blank. -/
theorem exists_text_of_required
    (hAdmits : k.Admits s)
    (hComplete : k.missingParams s = [])
    (name : String)
    (hParam : k.param? name = some p)
    (hRequired : p.required = true)
    (hSort : p.sort = .text ∨ p.sort = .audio) :
    ∃ text, s.text? name = some text ∧
      s.filled? name = some text := by
  rcases exists_of_required hAdmits hComplete hParam
    hRequired with ⟨v, hValue, hBlank, hAccepts, -⟩
  have hText : ∃ text, v = .text text := by
    rcases hSort with hSort | hSort <;>
      rw [hSort] at hAccepts <;>
      cases v with
      | text text => exact ⟨text, rfl⟩
      | _ => cases hAccepts
  rcases hText with ⟨text, rfl⟩
  have hFound : s.text? name = some text := by
    unfold Settings.text?
    rw [hValue]
    rfl
  refine ⟨text, hFound, ?_⟩
  unfold Settings.filled?
  rw [hFound]
  have hNotBlank : Text.isBlank text = false := hBlank
  simp [Option.filter, hNotBlank]

/- A required number between bounds is there as a count. -/
theorem exists_count_of_required
    {lo hi : Int64}
    (hAdmits : k.Admits s)
    (hComplete : k.missingParams s = [])
    (name : String)
    (hParam : k.param? name = some p)
    (hRequired : p.required = true)
    (hSort : p.sort = .integer)
    (hRange : p.range = some (lo, hi))
    (hLo : 0 < lo.toInt)
    (hHi : hi.toInt < 4294967296) :
    ∃ count, s.count? name = some count ∧ 0 < count := by
  rcases exists_of_required hAdmits hComplete hParam
    hRequired with ⟨v, hValue, -, hAccepts, hWithin⟩
  rw [hSort] at hAccepts
  cases v with
  | integer n =>
      unfold Param.missedRange? at hWithin
      rw [hRange] at hWithin
      simp only at hWithin
      split at hWithin
      · rename_i hBounds
        have hLower := Int64.le_iff_toInt_le.mp hBounds.1
        have hUpper := Int64.le_iff_toInt_le.mp hBounds.2
        have hFound : s.integer? name = some n := by
          unfold Settings.integer?
          rw [hValue]
          rfl
        refine ⟨UInt32.ofNat n.toInt.toNat, ?_, ?_⟩
        · unfold Settings.count?
          rw [hFound, Option.bind_some, if_pos (by omega)]
        · rw [UInt32.lt_iff_toNat_lt, UInt32.toNat_ofNat']
          have hSmall : n.toInt.toNat < 2 ^ 32 := by omega
          rw [Nat.mod_eq_of_lt hSmall]
          show 0 < n.toInt.toNat
          omega
      · cases hWithin
  | _ => cases hAccepts

end StepKind

------------------------------------------------------------
-- Emitters
------------------------------------------------------------

namespace Emitter

/- What has to be there and is there is passed on. -/
private theorem exists_require_bind
    {α : Type}
    {name : String}
    {v : Option α}
    {a : α}
    {f : α → List Instr}
    (h : v = some a) :
    ∃ action,
      (require name v >>= fun a => pure (f a) :
          Except String (List Instr)) = .ok action :=
  ⟨f a, by rw [h]; rfl⟩

/- A complete node whose audio can be played is emitted. -/
theorem exists_standard
    {n : Node}
    {sound : String → Option String}
    (hAdmits : n.kind.Admits n.settings)
    (hComplete : n.kind.missingParams n.settings = [])
    (hSounds :
      ∀ p ∈ n.kind.audioParams, ∀ name,
        n.settings.text? p = some name →
          ∃ location, sound p = some location) :
    ∃ action, standard n.kind n sound = .ok action := by
  cases hKind : n.kind with
  | playback =>
      rw [hKind] at hAdmits hComplete hSounds
      rcases StepKind.exists_text_of_required hAdmits hComplete
        "audio" rfl rfl (.inr rfl) with
        ⟨name, hName, -⟩
      rcases hSounds "audio" (by decide +kernel) name hName
        with ⟨location, hLocation⟩
      exact exists_require_bind hLocation
  | background =>
      rw [hKind] at hAdmits hComplete hSounds
      rcases StepKind.exists_text_of_required hAdmits hComplete
        "audio" rfl rfl (.inr rfl) with
        ⟨name, hName, -⟩
      rcases hSounds "audio" (by decide +kernel) name hName
        with ⟨location, hLocation⟩
      exact exists_require_bind hLocation
  | collect =>
      rw [hKind] at hAdmits hComplete
      rcases StepKind.exists_count_of_required hAdmits
        hComplete "maxDigits" rfl rfl rfl rfl
        (by decide +kernel) (by decide +kernel) with
        ⟨count, hCount, hPositive⟩
      refine exists_require_bind (a := count) ?_
      rw [hCount]
      simp [Option.filter, hPositive]
  | agent =>
      rw [hKind] at hAdmits hComplete
      rcases StepKind.exists_text_of_required hAdmits hComplete
        "queue" rfl rfl (.inl rfl) with
        ⟨queue, -, hQueue⟩
      exact exists_require_bind hQueue
  | number =>
      rw [hKind] at hAdmits hComplete
      rcases StepKind.exists_text_of_required hAdmits hComplete
        "destination" rfl rfl (.inl rfl) with
        ⟨destination, -, hDestination⟩
      exact exists_require_bind hDestination
  | hangup => exact ⟨_, rfl⟩

end Emitter

------------------------------------------------------------
-- Plans
------------------------------------------------------------

namespace Outline

variable {emitters : Emitters}
variable {sounds : List Sound}
variable {returnKey : Key}

/- The choices of a menu fail only as a child does. -/
private theorem exists_child_of_settled_eq_error
    {first : Bool}
    {step : Node}
    {children : List Outline}
    {e : CompileError}
    (h :
      (step.choices returnKey first (.ok .back)
          (planAll emitters sounds returnKey
            children)).mapM Plan.settled =
        .error e) :
    ∃ c ∈ children,
      plan emitters sounds returnKey false c = .error e := by
  rcases exists_of_mapM_eq_error h with
    ⟨⟨key, planned⟩, hc, hFails⟩
  have hPlanned : planned = .error e := by
    rcases bind_eq_error_iff.mp hFails with
      hPlanned | ⟨p, -, hDone⟩
    · exact hPlanned
    · cases hDone
  subst hPlanned
  rcases Node.mem_choices_iff.mp hc with
    hChild | ⟨-, -, -, hBack⟩
  · rw [planAll_eq_map] at hChild
    rcases List.mem_map.mp hChild with ⟨c, hc, hSame⟩
    exact ⟨c, hc, (Prod.mk.inj hSame).2⟩
  · cases hBack

/-
  Planning fails only as the action of an emitted node does.
  A menu can branch, so the nodes that its choices are
  planned from are emitted.
-/
theorem exists_action_of_plan_eq_error
    {o : Outline}
    {first : Bool}
    {e : CompileError}
    (h :
      plan emitters sounds returnKey first o = .error e) :
    ∃ x ∈ o.emitted,
      x.2.action emitters sounds x.1 = .error e := by
  induction o using Outline.induct generalizing first with
  | node id step children ih =>
      unfold plan at h
      unfold emitted
      rcases bind_eq_error_iff.mp h with
        hAction | ⟨action, -, hRest⟩
      · exact ⟨(id, step), List.mem_cons_self, hAction⟩
      · by_cases hMenu : step.opensMenu = true
        · rw [if_pos hMenu] at hRest
          rw [if_pos (branching_of_opensMenu hMenu)]
          rcases bind_eq_error_iff.mp hRest with
            hSettled | ⟨choices, -, hDone⟩
          · rcases exists_child_of_settled_eq_error
              hSettled with ⟨c, hc, hFails⟩
            rcases ih c hc hFails with ⟨x, hx, hNode⟩
            refine ⟨x, List.mem_cons_of_mem _ ?_, hNode⟩
            exact mem_emittedAll_iff.mpr ⟨c, hc, hx⟩
          · cases hDone
        · rw [if_neg hMenu] at hRest
          cases hRest

/- An outline is planned if its emitted nodes have actions. -/
theorem exists_plan
    {o : Outline}
    (returnKey : Key)
    (first : Bool)
    (h :
      ∀ e ∈ o.emitted, ∃ action,
        e.2.action emitters sounds e.1 = .ok action) :
    ∃ p, plan emitters sounds returnKey first o = .ok p := by
  cases hPlan : plan emitters sounds returnKey first o with
  | ok p => exact ⟨p, rfl⟩
  | error e =>
      rcases exists_action_of_plan_eq_error hPlan with
        ⟨x, hx, hFails⟩
      rcases h x hx with ⟨action, hAction⟩
      rw [hAction] at hFails
      cases hFails

end Outline

end CallFlow
