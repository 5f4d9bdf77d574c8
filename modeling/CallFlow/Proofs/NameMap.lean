import CallFlow.NameMap
import Mathlib.Data.List.Nodup

/-
  Further laws of maps from names to values, about the list
  of names, the number of entries, maps that are built from
  lists, parts of maps, and maps over maps.

  Main declarations:
    * `NameMap.contains_iff`
    * `NameMap.length_le_size`
    * `NameMap.modify_eq_insert`
    * `NameMap.contains_ofList_iff`
    * `NameMap.mem_of_get?_ofList`
    * `NameMap.ofList_eq_of_perm`
    * `NameMap.ofList_map`
    * `NameMap.get?_filter`
    * `NameMap.get?_onto`
-/

namespace CallFlow

namespace NameMap

variable {α β : Type}

------------------------------------------------------------
-- Names and sizes
------------------------------------------------------------

/- A name has a value exactly if it can be looked up. -/
theorem contains_iff
    (m : NameMap α)
    (name : String) :
    m.contains name = true ↔ ∃ v, m.get? name = some v :=
  Option.isSome_iff_exists

@[simp] theorem length_names
    (m : NameMap α) : m.names.length = m.size := by
  simp [names, size]

/- No name comes twice. -/
theorem nodup_names
    (m : NameMap α) : m.names.Nodup := by
  refine List.pairwise_map.mpr (m.ordered.imp ?_)
  intro e e' hBefore hSame
  rw [hSame] at hBefore
  exact String.lt_irrefl _ hBefore

/- Distinct names with values are no more than entries. -/
theorem length_le_size
    (m : NameMap α)
    {l : List String}
    (hNodup : l.Nodup)
    (hContains : ∀ name ∈ l, m.contains name = true) :
    l.length ≤ m.size := by
  rw [← length_names]
  apply hNodup.length_le_of_subset
  intro name hName
  exact (m.mem_names_iff name).mpr (hContains name hName)

@[simp] theorem map_self
    (m : NameMap α) : (m.map fun _ v => v) = m := by
  apply ext_get?
  intro name
  rw [get?_map, Option.map_id']

/- Of two values put under a name the later one counts. -/
@[simp] theorem insert_insert
    (m : NameMap α)
    (name : String)
    (v w : α) :
    (m.insert name v).insert name w = m.insert name w := by
  apply ext_get?
  intro other
  rw [get?_insert, get?_insert, get?_insert]
  split <;> rfl

/- Changing a value that is there is inserting another. -/
theorem modify_eq_insert
    {m : NameMap α}
    {name : String}
    {v : α}
    (h : m.get? name = some v)
    (f : α → α) : m.modify name f = m.insert name (f v) := by
  apply ext_get?
  intro other
  rw [get?_modify, get?_insert]
  by_cases hOther : other = name
  · rw [if_pos hOther, if_pos hOther, hOther, h]
    rfl
  · rw [if_neg hOther, if_neg hOther]

------------------------------------------------------------
-- Maps built from lists
------------------------------------------------------------

/- Inserting a list of entries keeps names and adds theirs. -/
private theorem contains_foldl_insert
    (l : List (String × α))
    (m : NameMap α)
    (name : String) :
    (l.foldl (fun m e => m.insert e.1 e.2) m).contains name =
        true ↔
      m.contains name = true ∨ name ∈ l.map (·.1) := by
  induction l generalizing m with
  | nil => simp
  | cons e rest ih =>
      rw [List.foldl_cons, ih, List.map_cons, List.mem_cons]
      unfold contains
      rw [get?_insert]
      by_cases hName : name = e.1 <;> simp [hName]

/- The names of a list are those of its map. -/
theorem contains_ofList_iff
    (l : List (String × α))
    (name : String) :
    (ofList l).contains name = true ↔
      name ∈ l.map (·.1) := by
  unfold ofList
  rw [contains_foldl_insert]
  simp [contains]

/- An entry of the map of a list is in the list. -/
private theorem mem_of_get?_foldl_insert
    (l : List (String × α))
    (m : NameMap α)
    (name : String)
    (v : α)
    (h :
      (l.foldl (fun m e => m.insert e.1 e.2) m).get? name =
        some v) :
    m.get? name = some v ∨ (name, v) ∈ l := by
  induction l generalizing m with
  | nil => exact Or.inl h
  | cons e rest ih =>
      rcases ih (m.insert e.1 e.2) h with hOld | hRest
      · rw [get?_insert] at hOld
        by_cases hName : name = e.1
        · rw [if_pos hName, Option.some.injEq] at hOld
          subst hName hOld
          exact Or.inr List.mem_cons_self
        · rw [if_neg hName] at hOld
          exact Or.inl hOld
      · exact Or.inr (List.mem_cons_of_mem _ hRest)

theorem mem_of_get?_ofList
    {l : List (String × α)}
    {name : String}
    {v : α}
    (h : (ofList l).get? name = some v) :
    (name, v) ∈ l := by
  rcases mem_of_get?_foldl_insert l empty name v h with
    hEmpty | hMem
  · simp at hEmpty
  · exact hMem

/- A list without repeated names has its entries found. -/
theorem get?_ofList_eq_some_iff
    {l : List (String × α)}
    (hNodup : (l.map (·.1)).Nodup)
    {name : String}
    {v : α} :
    (ofList l).get? name = some v ↔ (name, v) ∈ l := by
  constructor
  · exact mem_of_get?_ofList
  · intro hMem
    have hName : name ∈ l.map (·.1) :=
      List.mem_map.mpr ⟨(name, v), hMem, rfl⟩
    rcases (contains_iff _ _).mp
      ((contains_ofList_iff l name).mpr hName) with ⟨v', hGet⟩
    have hSame := List.inj_on_of_nodup_map hNodup
      (mem_of_get?_ofList hGet) hMem rfl
    rw [hGet, (Prod.mk.inj hSame).2]

/- Then the order of the list does not matter. -/
theorem ofList_eq_of_perm
    {l l' : List (String × α)}
    (hNodup : (l.map (·.1)).Nodup)
    (hPerm : l.Perm l') : ofList l = ofList l' := by
  have hNodup' : (l'.map (·.1)).Nodup :=
    (hPerm.map (·.1)).nodup_iff.mp hNodup
  apply ext_get?
  intro name
  apply Option.ext
  intro v
  rw [get?_ofList_eq_some_iff hNodup,
    get?_ofList_eq_some_iff hNodup']
  exact hPerm.mem_iff

/- Inserting entries does not mix up names. -/
private theorem get?_foldl_insert_congr
    (l : List (String × α))
    {m m' : NameMap α}
    {name : String}
    (h : m.get? name = m'.get? name) :
    (l.foldl (fun m e => m.insert e.1 e.2) m).get? name =
      (l.foldl (fun m e => m.insert e.1 e.2) m').get? name := by
  induction l generalizing m m' with
  | nil => exact h
  | cons e rest ih =>
      refine ih ?_
      rw [get?_insert, get?_insert, h]

/- One entry of a list does not matter for other names. -/
theorem get?_ofList_of_ne
    (l₁ l₂ : List (String × α))
    {name other : String}
    (v : α)
    (hOther : other ≠ name) :
    (ofList (l₁ ++ (name, v) :: l₂)).get? other =
      (ofList (l₁ ++ l₂)).get? other := by
  unfold ofList
  rw [List.foldl_append, List.foldl_append, List.foldl_cons]
  apply get?_foldl_insert_congr
  rw [get?_insert, if_neg hOther]

/- The values of a list can be changed before or after. -/
theorem ofList_map
    (l : List (String × α))
    (g : String → α → β) :
    ofList (l.map fun e => (e.1, g e.1 e.2)) =
      (ofList l).map g := by
  have hFold : ∀ m : NameMap α,
      (l.map fun e => (e.1, g e.1 e.2)).foldl
          (fun m e => m.insert e.1 e.2) (m.map g) =
        (l.foldl (fun m e => m.insert e.1 e.2) m).map g := by
    induction l with
    | nil => exact fun _ => rfl
    | cons e rest ih =>
        intro m
        have hInsert : (m.map g).insert e.1 (g e.1 e.2) =
            (m.insert e.1 e.2).map g := by
          apply ext_get?
          intro name
          rw [get?_insert, get?_map, get?_map, get?_insert]
          by_cases hName : name = e.1 <;> simp [hName]
        rw [List.map_cons, List.foldl_cons, hInsert, ih]
        rfl
  exact hFold empty

/- A list that becomes a map by changing its values. -/
theorem map_ofList
    {l : List (String × α)}
    {g : String → α → β}
    {m : NameMap β}
    (h : (l.map fun e => (e.1, g e.1 e.2)) = m.entries) :
    (ofList l).map g = m := by
  rw [← ofList_map, h, ofList_entries]

------------------------------------------------------------
-- Parts of maps
------------------------------------------------------------

/- The entries whose values are kept. -/
def filter
    (p : α → Bool)
    (m : NameMap α) : NameMap α :=
  ⟨m.entries.filter fun e => p e.2,
    List.Pairwise.filter _ m.ordered⟩

/- Looking up in a part of a map. -/
theorem get?_filter
    (p : α → Bool)
    (m : NameMap α)
    (name : String) :
    (m.filter p).get? name = (m.get? name).filter p := by
  apply Option.ext
  intro v
  rw [← mem_entries_iff, Option.filter_eq_some_iff,
    ← mem_entries_iff]
  exact List.mem_filter

------------------------------------------------------------
-- Maps over Maps
------------------------------------------------------------

/- One map over another: its values hide those below. -/
def onto
    (upper lower : NameMap α) : NameMap α :=
  upper.entries.foldl (fun m e => m.insert e.1 e.2) lower

/- Looking up in two maps, one over the other. -/
theorem get?_onto
    (upper lower : NameMap α)
    (name : String) :
    (upper.onto lower).get? name =
      (upper.get? name).or (lower.get? name) :=
  get?_foldl_insert upper.ordered lower name

end NameMap

end CallFlow
