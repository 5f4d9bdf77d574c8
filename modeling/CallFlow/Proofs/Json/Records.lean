import CallFlow.Json.Record
import CallFlow.Proofs.NameMap
import CallFlow.Proofs.Results
import Mathlib.Data.List.Nodup

/-
  What is known of a record, and what is not.

  Only the fields of a record are looked at.  The order of
  its members does not show, nor do members with other names.
  A field that is left out is read as its default.  So two
  records are read alike if each field is.

  Main declarations:
    * `Json.field?`
    * `Json.fieldAs?`
    * `Json.Rewording`
    * `Json.Rewording.fieldAs?_eq`
    * `Json.Replaced`
    * `Json.Replaced.fieldAs?_eq`
-/

namespace CallFlow

namespace Json

variable {fields : List (List String)}
variable {names : List String}
variable {l₁ l₂ ms ms' : List (String × Json)}
variable {name : String}
variable {v j j' : Json}

------------------------------------------------------------
-- Members
------------------------------------------------------------

/- The order of the members does not matter. -/
theorem member?_of_perm
    (hPerm : ms.Perm ms') :
    member? names ms = member? names ms' := by
  have hFilter := hPerm.filter fun m => names.contains m.1
  unfold member?
  generalize ms.filter (fun m => names.contains m.1) = l
    at hFilter ⊢
  generalize ms'.filter (fun m => names.contains m.1) = l'
    at hFilter ⊢
  rcases l with _ | ⟨m, _ | ⟨m', rest⟩⟩
  · rw [hFilter.nil_eq]
  · rw [hFilter.singleton_eq]
  · rcases l' with _ | ⟨k, _ | ⟨k', rest'⟩⟩
    · cases hFilter.length_eq
    · cases hFilter.length_eq
    · rfl

/- A member with another name is passed over. -/
theorem member?_of_not_mem
    (hName : name ∉ names) :
    member? names (l₁ ++ (name, v) :: l₂) =
      member? names (l₁ ++ l₂) := by
  unfold member?
  simp [List.filter_append, hName]

/- Without members of the right names there is nothing. -/
theorem member?_eq_none
    (h : ∀ m ∈ ms, m.1 ∉ names) :
    member? names ms = some none := by
  have hNone :
      (ms.filter fun m => names.contains m.1) = [] := by
    simpa [List.filter_eq_nil_iff] using h
  unfold member?
  rw [hNone]

/- The only member of the right names is the one meant. -/
theorem member?_of_once
    (hName : name ∈ names)
    (hOnce : ∀ m ∈ l₁ ++ l₂, m.1 ∉ names) :
    member? names (l₁ ++ (name, v) :: l₂) =
      some (some v) := by
  have hRest :
      ((l₁ ++ l₂).filter fun m => names.contains m.1) = [] := by
    refine List.filter_eq_nil_iff.mpr fun m hm => ?_
    simpa using hOnce m hm
  rw [member?_of_perm List.perm_middle]
  unfold member?
  rw [List.filter_cons_of_pos (by simpa using hName), hRest]

/- More members of the right names are one too many. -/
theorem member?_of_twice
    (hName : name ∈ names)
    (hTwice : ∃ m ∈ l₁ ++ l₂, m.1 ∈ names) :
    member? names (l₁ ++ (name, v) :: l₂) = none := by
  rcases hTwice with ⟨m, hMem, hOther⟩
  have hRest :
      m ∈ (l₁ ++ l₂).filter fun m => names.contains m.1 :=
    List.mem_filter.mpr ⟨hMem, by simpa using hOther⟩
  rw [member?_of_perm List.perm_middle]
  unfold member?
  rw [List.filter_cons_of_pos (by simpa using hName)]
  rcases List.exists_cons_of_ne_nil
    (List.ne_nil_of_mem hRest) with ⟨k, rest, hCons⟩
  rw [hCons]

------------------------------------------------------------
-- Fields
------------------------------------------------------------

/-
  A field of a record, by the names that it is known by: what
  is given for it, if it is not given twice.
-/
def field?
    (fields : List (List String))
    (names : List String) : Json → Option (Option Json)
  | object members => member? names members
  | list items =>
      if items.length ≤ fields.length then
        some items[fields.idxOf names]?
      else none
  | _ => none

@[simp] theorem field?_object
    (fields : List (List String))
    (names : List String)
    (ms : List (String × Json)) :
    field? fields names (.object ms) = member? names ms :=
  rfl

@[simp] theorem field?_list
    (fields : List (List String))
    (names : List String)
    (items : List Json) :
    field? fields names (.list items) =
      if items.length ≤ fields.length then
        some items[fields.idxOf names]?
      else none :=
  rfl

/- What is read of a field of a record. -/
def fieldAs?
    {α : Type}
    (fields : List (List String))
    (names : List String)
    (r : Option Json → Option α)
    (j : Json) : Option α :=
  (j.field? fields names).bind r

/- Fields of which no two share a name. -/
structure Apart
    (fields : List (List String)) : Prop where
  nodup : fields.Nodup
  eq_of_mem :
    ∀ f ∈ fields, ∀ g ∈ fields, ∀ name ∈ f, name ∈ g → f = g

/- The fields of a record are read one by one. -/
theorem fields?_eq_mapM
    (hApart : Apart fields)
    (hNe : fields ≠ [])
    (j : Json) :
    j.fields? fields =
      fields.mapM fun names => j.field? fields names := by
  have hNever :
      (fields.mapM fun _ => (none : Option (Option Json))) =
        none := by
    rcases List.exists_cons_of_ne_nil hNe with
      ⟨names, rest, rfl⟩
    rfl
  cases j with
  | object members => rfl
  | list items =>
      unfold fields? field?
      by_cases hShort : items.length ≤ fields.length
      · simp only [if_pos hShort]
        have hItems :
            items.map some ++
                List.replicate (fields.length - items.length)
                  none =
              fields.map fun names =>
                items[fields.idxOf names]? := by
          apply List.ext_getElem
          · simp
            omega
          · intro i hi hi'
            have hField : i < fields.length := by
              simpa using hi'
            rw [List.getElem_map,
              hApart.nodup.idxOf_getElem i hField]
            by_cases hItem : i < items.length
            · rw [List.getElem_append_left (by simpa using hItem)]
              simp [hItem]
            · rw [List.getElem_append_right
                (by simpa using hItem)]
              simp [hItem]
        rw [hItems]
        exact (mapM_eq_pure (m := Option)
          fun _ _ => rfl).symm
      · simp only [if_neg hShort, hNever]
  | _ => exact hNever.symm

------------------------------------------------------------
-- Rewordings
------------------------------------------------------------

/-
  Other forms of an object with known fields.  Members change
  their places, one with an unknown name is added, or one is
  left out that holds the default of its field.
-/
inductive Rewording
    (fields : List (List String))
    (defaults : List (List String × Json)) :
    Json → Json → Prop where
  | reorder
      {ms ms' : List (String × Json)}
      (hPerm : ms.Perm ms') :
      Rewording fields defaults (.object ms) (.object ms')
  | unknown
      {l₁ l₂ : List (String × Json)}
      {name : String}
      {v : Json}
      (hName : ∀ names ∈ fields, name ∉ names) :
      Rewording fields defaults (.object (l₁ ++ l₂))
        (.object (l₁ ++ (name, v) :: l₂))
  | leaveOut
      {l₁ l₂ : List (String × Json)}
      {names : List String}
      {name : String}
      {v : Json}
      (hDefault : (names, v) ∈ defaults)
      (hName : name ∈ names)
      (hOnce : ∀ m ∈ l₁ ++ l₂, m.1 ∉ names) :
      Rewording fields defaults
        (.object (l₁ ++ (name, v) :: l₂))
        (.object (l₁ ++ l₂))

/-
  A field is read alike in another form, if its default is
  read like nothing.
-/
theorem Rewording.fieldAs?_eq
    {defaults : List (List String × Json)}
    (h : Rewording fields defaults j j')
    (hApart : Apart fields)
    (hDefaults : ∀ d ∈ defaults, d.1 ∈ fields)
    (hNames : names ∈ fields)
    {α : Type}
    {r : Option Json → Option α}
    (hDefault :
      ∀ v, (names, v) ∈ defaults → r (some v) = r none) :
    fieldAs? fields names r j = fieldAs? fields names r j' := by
  unfold fieldAs?
  cases h with
  | reorder hPerm =>
      rw [field?_object, field?_object, member?_of_perm hPerm]
  | unknown hName =>
      rw [field?_object, field?_object,
        member?_of_not_mem (hName names hNames)]
  | @leaveOut l₁ l₂ own name v hIn hName hOnce =>
      rw [field?_object, field?_object]
      by_cases hSame : name ∈ names
      · have hOwn := hApart.eq_of_mem own (hDefaults _ hIn)
          names hNames name hName hSame
        subst hOwn
        rw [member?_of_once hName hOnce, member?_eq_none hOnce]
        exact hDefault v hIn
      · rw [member?_of_not_mem hSame]

/-
  The value of one field is replaced, in an object under any
  of the names of the field.
-/
inductive Replaced
    (fields : List (List String))
    (names : List String)
    (v v' : Json) : Json → Json → Prop where
  | member
      {l₁ l₂ : List (String × Json)}
      {name name' : String}
      (hName : name ∈ names)
      (hName' : name' ∈ names) :
      Replaced fields names v v'
        (.object (l₁ ++ (name, v) :: l₂))
        (.object (l₁ ++ (name', v') :: l₂))
  | item
      {l₁ l₂ : List Json}
      (hField : fields[l₁.length]? = some names) :
      Replaced fields names v v' (.list (l₁ ++ v :: l₂))
        (.list (l₁ ++ v' :: l₂))

/- A field is read alike if the new value is. -/
theorem Replaced.fieldAs?_eq
    {own : List String}
    {v' : Json}
    (h : Replaced fields own v v' j j')
    (hApart : Apart fields)
    (hOwn : own ∈ fields)
    (hNames : names ∈ fields)
    {α : Type}
    {r : Option Json → Option α}
    (hSame : names = own → r (some v) = r (some v')) :
    fieldAs? fields names r j = fieldAs? fields names r j' := by
  unfold fieldAs?
  cases h with
  | @member l₁ l₂ name name' hName hName' =>
      rw [field?_object, field?_object]
      by_cases hField : names = own
      · subst hField
        by_cases hOnce : ∀ m ∈ l₁ ++ l₂, m.1 ∉ names
        · rw [member?_of_once hName hOnce,
            member?_of_once hName' hOnce]
          exact hSame rfl
        · have hTwice : ∃ m ∈ l₁ ++ l₂, m.1 ∈ names := by
            simpa using hOnce
          rw [member?_of_twice hName hTwice,
            member?_of_twice hName' hTwice]
      · have hNot : ∀ n ∈ own, n ∉ names := fun n hn hn' =>
          hField (hApart.eq_of_mem names hNames own hOwn n
            hn' hn)
        rw [member?_of_not_mem (hNot name hName),
          member?_of_not_mem (hNot name' hName')]
  | @item l₁ l₂ hField =>
      have hIndex : fields.idxOf own = l₁.length := by
        rcases List.getElem?_eq_some_iff.mp hField with
          ⟨hLt, rfl⟩
        exact hApart.nodup.idxOf_getElem _ hLt
      have hLength : (l₁ ++ v' :: l₂).length =
          (l₁ ++ v :: l₂).length := by simp
      rw [field?_list, field?_list, hLength]
      split
      · by_cases hOther : names = own
        · subst hOther
          rw [hIndex, List.getElem?_append_right (Nat.le_refl _),
            List.getElem?_append_right (Nat.le_refl _)]
          simpa using hSame rfl
        · have hNe : fields.idxOf names ≠ l₁.length := by
            rw [← hIndex]
            intro hEq
            exact hOther ((List.idxOf_inj hNames).mp hEq)
          have hSet : l₁ ++ v' :: l₂ =
              (l₁ ++ v :: l₂).set l₁.length v' := by simp
          rw [hSet, List.getElem?_set_ne hNe.symm]
      · rfl

end Json

end CallFlow
