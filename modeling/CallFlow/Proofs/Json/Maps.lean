import CallFlow.Json.Record
import CallFlow.Proofs.NameMap
import CallFlow.Proofs.Results

/-
  What is known of a map, and what is not.

  Every member of a map is an entry.  If no name is repeated,
  the order of the members does not show.  A value shows only
  as far as it is looked at afterwards.

  Main declarations:
    * `Json.entries?`
    * `Json.map?_of_perm`
    * `Json.map_map?_congr`
    * `Json.filter_map?_insert`
-/

namespace CallFlow

namespace Json

variable {α β : Type}
variable {f : Json → Option α}
variable {l₁ l₂ ms ms' : List (String × Json)}
variable {name : String}
variable {v v' : Json}

------------------------------------------------------------
-- Entries
------------------------------------------------------------

/- The entries of a map, if each value is read. -/
def entries?
    (f : Json → Option α)
    (ms : List (String × Json)) : Option (List (String × α)) :=
  ms.mapM fun m => (f m.2).map fun v => (m.1, v)

/- A map is that of its entries. -/
theorem map?_object :
    map? f (.object ms) = (entries? f ms).map NameMap.ofList :=
  rfl

/- The entries have the names of the members. -/
theorem names_of_entries?
    {l : List (String × α)}
    (h : entries? f ms = some l) :
    l.map (·.1) = ms.map (·.1) := by
  induction ms generalizing l with
  | nil =>
      cases h
      rfl
  | cons m ms ih =>
      unfold entries? at h
      simp only [List.mapM_cons, Option.bind_eq_bind,
        Option.bind_eq_some_iff, Option.map_eq_some_iff] at h
      rcases h with ⟨e, ⟨a, -, rfl⟩, rest, hRest, hList⟩
      cases hList
      rw [List.map_cons, List.map_cons, ih hRest]

/- A member in the middle is read between the others. -/
theorem entries?_middle :
    entries? f (l₁ ++ (name, v) :: l₂) =
      (entries? f l₁).bind fun before =>
        (f v).bind fun a =>
          (entries? f l₂).map fun rest =>
            before ++ (name, a) :: rest := by
  unfold entries?
  rw [List.mapM_append, List.mapM_cons]
  cases l₁.mapM fun m => (f m.2).map fun v => (m.1, v) <;>
    cases f v <;>
    cases l₂.mapM fun m => (f m.2).map fun v => (m.1, v) <;>
    rfl

------------------------------------------------------------
-- Maps That Are Read Alike
------------------------------------------------------------

/- Members without repeated names can come in any order. -/
theorem map?_of_perm
    (hNodup : (ms.map (·.1)).Nodup)
    (hPerm : ms.Perm ms') :
    map? f (.object ms) = map? f (.object ms') := by
  have hForward :
      ∀ {ms ms' : List (String × Json)},
        (ms.map (·.1)).Nodup → ms.Perm ms' → ∀ m,
          map? f (.object ms) = some m →
            map? f (.object ms') = some m := by
    intro ms ms' hNodup hPerm m h
    rcases Option.map_eq_some_iff.mp h with ⟨l, hRead, rfl⟩
    rcases exists_mapM_of_perm hPerm hRead with
      ⟨l', hRead', hSame⟩
    have hNames : (l.map (·.1)).Nodup := by
      rwa [names_of_entries? hRead]
    refine Option.map_eq_some_iff.mpr ⟨l', hRead', ?_⟩
    exact (NameMap.ofList_eq_of_perm hNames hSame).symm
  have hNodup' : (ms'.map (·.1)).Nodup :=
    (hPerm.map (·.1)).nodup_iff.mp hNodup
  apply Option.ext
  intro m
  exact ⟨hForward hNodup hPerm m,
    hForward hNodup' hPerm.symm m⟩

/- A value that changes into the same changes nothing. -/
theorem map_map?_congr
    {g : String → α → β}
    (h : (f v).map (g name) = (f v').map (g name)) :
    (map? f (.object (l₁ ++ (name, v) :: l₂))).map
        (NameMap.map g) =
      (map? f (.object (l₁ ++ (name, v') :: l₂))).map
        (NameMap.map g) := by
  rw [map?_object, map?_object, entries?_middle,
    entries?_middle]
  rcases entries? f l₁ with _ | before
  · rfl
  rcases hValue : f v with _ | a
  · rw [hValue, Option.map_none, eq_comm,
      Option.map_eq_none_iff] at h
    rw [h]
  · rw [hValue, Option.map_some, eq_comm,
      Option.map_eq_some_iff] at h
    rcases h with ⟨a', hValue', hSame⟩
    rw [hValue']
    simp only [Option.bind_some, Option.map_map]
    congr 1
    funext rest
    simp only [Function.comp_apply, ← NameMap.ofList_map,
      List.map_append, List.map_cons, hSame]

/- A value that is dropped can be put under a new name. -/
theorem filter_map?_insert
    {p : α → Bool}
    {a : α}
    (hNew : name ∉ (l₁ ++ l₂).map (·.1))
    (hRead : f v = some a)
    (hDrop : p a = false) :
    (map? f (.object (l₁ ++ (name, v) :: l₂))).map
        (NameMap.filter p) =
      (map? f (.object (l₁ ++ l₂))).map
        (NameMap.filter p) := by
  have hAppend : entries? f (l₁ ++ l₂) =
      (entries? f l₁).bind fun before =>
        (entries? f l₂).map fun rest => before ++ rest := by
    unfold entries?
    rw [List.mapM_append]
    cases l₁.mapM fun m => (f m.2).map fun v => (m.1, v) <;>
      cases l₂.mapM fun m => (f m.2).map fun v => (m.1, v) <;>
      rfl
  rw [map?_object, map?_object, entries?_middle, hAppend,
    hRead]
  rcases hBefore : entries? f l₁ with _ | before
  · rfl
  rcases hRest : entries? f l₂ with _ | rest
  · rfl
  have hNames : name ∉ (before ++ rest).map (·.1) := by
    rwa [List.map_append, names_of_entries? hBefore,
      names_of_entries? hRest, ← List.map_append]
  refine congrArg some (NameMap.ext_get? fun other => ?_)
  rw [NameMap.get?_filter, NameMap.get?_filter]
  by_cases hOther : other = name
  · subst hOther
    have hNone :
        (NameMap.ofList (before ++ rest)).get? other = none := by
      rcases hGet :
          (NameMap.ofList (before ++ rest)).get? other with
        _ | b
      · rfl
      · exact absurd (List.mem_map.mpr
          ⟨_, NameMap.mem_of_get?_ofList hGet, rfl⟩) hNames
    rcases hGet : (NameMap.ofList
        (before ++ (other, a) :: rest)).get? other with _ | b
    · rw [hNone]
    · have hIs : b = a := by
        rcases List.mem_append.mp
          (NameMap.mem_of_get?_ofList hGet) with hMem | hMem
        · exact absurd (List.mem_map.mpr ⟨_,
            List.mem_append_left rest hMem, rfl⟩) hNames
        · rcases List.mem_cons.mp hMem with hHere | hMem
          · exact (Prod.mk.inj hHere).2
          · exact absurd (List.mem_map.mpr ⟨_,
              List.mem_append_right before hMem, rfl⟩) hNames
      rw [hNone, hIs]
      simp [hDrop]
  · rw [NameMap.get?_ofList_of_ne _ _ _ hOther]

end Json

end CallFlow
