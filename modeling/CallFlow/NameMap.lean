/-
  This file defines finite maps from names to values.

  Entries are kept in the order of their names (by code
  point, which is also the byte order of their UTF-8 forms),
  and no name occurs twice.  A map is therefore determined
  by its lookups.

  Main declarations:
    * `NameMap`
    * `NameMap.get?`
    * `NameMap.insert`
    * `NameMap.erase`
    * `NameMap.map`
    * `NameMap.ofList`

  Main statements:
    * `NameMap.get?_insert`
    * `NameMap.get?_erase`
    * `NameMap.get?_map`
    * `NameMap.ext_get?`
    * `NameMap.ofList_entries`
-/

namespace CallFlow

------------------------------------------------------------
-- Ordered entry lists
------------------------------------------------------------

namespace Entries

variable {α β : Type}

/- The entries of a list are in strict name order. -/
def Ordered
    (l : List (String × α)) : Prop :=
  l.Pairwise fun a b => a.1 < b.1

/- Names are totally ordered. -/
theorem name_trichotomy
    (a b : String) : a < b ∨ a = b ∨ b < a := by
  by_cases h₁ : a < b
  · exact Or.inl h₁
  · by_cases h₂ : b < a
    · exact Or.inr (Or.inr h₂)
    · exact Or.inr (Or.inl
        (String.le_antisymm
          (String.not_lt.mp h₂) (String.not_lt.mp h₁)))

/- The value stored under a name. -/
def lookup
    (name : String) : List (String × α) → Option α
  | [] => none
  | (k, v) :: rest =>
      if k = name then some v else lookup name rest

/- Put a value under a name, replacing an older one. -/
def put
    (name : String)
    (value : α) :
    List (String × α) → List (String × α)
  | [] => [(name, value)]
  | (k, v) :: rest =>
      if name < k then (name, value) :: (k, v) :: rest
      else if name = k then (name, value) :: rest
      else (k, v) :: put name value rest

/- Drop the entry under a name. -/
def drop
    (name : String)
    (l : List (String × α)) : List (String × α) :=
  l.filter fun e => e.1 ≠ name

/- An entry after `put` is the new one or an old one. -/
theorem mem_put
    {name : String}
    {value : α}
    {e : String × α}
    {l : List (String × α)}
    (h : e ∈ put name value l) :
    e = (name, value) ∨ e ∈ l := by
  induction l with
  | nil => simpa [put] using h
  | cons hd tl ih =>
      obtain ⟨k, v⟩ := hd
      simp only [put] at h
      split at h
      · simpa using h
      · split at h
        · rcases List.mem_cons.mp h with h | h
          · exact Or.inl h
          · exact Or.inr (List.mem_cons_of_mem _ h)
        · rcases List.mem_cons.mp h with h | h
          · exact Or.inr (h ▸ List.mem_cons_self)
          · rcases ih h with h | h
            · exact Or.inl h
            · exact Or.inr (List.mem_cons_of_mem _ h)

/- `put` keeps entries in order. -/
theorem ordered_put
    (name : String)
    (value : α)
    {l : List (String × α)}
    (h : Ordered l) :
    Ordered (put name value l) := by
  induction l with
  | nil => simp [put, Ordered]
  | cons hd tl ih =>
      obtain ⟨k, v⟩ := hd
      obtain ⟨hHead, hTail⟩ := List.pairwise_cons.mp h
      simp only [put]
      split
      · rename_i hLt
        refine List.pairwise_cons.mpr ⟨?_, h⟩
        intro e he
        rcases List.mem_cons.mp he with he | he
        · exact he ▸ hLt
        · exact String.lt_trans hLt (hHead e he)
      · split
        · rename_i hEq
          subst hEq
          exact List.pairwise_cons.mpr ⟨hHead, hTail⟩
        · rename_i hLt hNe
          refine List.pairwise_cons.mpr ⟨?_, ih hTail⟩
          intro e he
          rcases mem_put he with he | he
          · subst he
            rcases name_trichotomy k name with h | h | h
            · exact h
            · exact absurd h.symm hNe
            · exact absurd h hLt
          · exact hHead e he

/- `drop` keeps entries in order. -/
theorem ordered_drop
    (name : String)
    {l : List (String × α)}
    (h : Ordered l) : Ordered (drop name l) :=
  List.Pairwise.filter _ h

/- Changing values keeps entries in order. -/
theorem ordered_map
    (f : String → α → β)
    {l : List (String × α)}
    (h : Ordered l) :
    Ordered (l.map fun e => (e.1, f e.1 e.2)) := by
  unfold Ordered
  rw [List.pairwise_map]
  exact h

/- Looking up after `put`. -/
theorem lookup_put
    (name other : String)
    (value : α)
    (l : List (String × α)) :
    lookup other (put name value l) =
      if other = name then some value
      else lookup other l := by
  induction l with
  | nil =>
      by_cases h : other = name
      · simp [put, lookup, h]
      · have h' : ¬ name = other := fun e => h e.symm
        simp [put, lookup, h, h']
  | cons hd tl ih =>
      obtain ⟨k, v⟩ := hd
      by_cases h : other = name
      · subst h
        simp only [put]
        split
        · simp [lookup]
        · split
          · simp [lookup]
          · rename_i hNe
            have hNe' : ¬ k = other := fun e => hNe e.symm
            simp [lookup, hNe', ih]
      · have h' : ¬ name = other := fun e => h e.symm
        simp only [put]
        split
        · simp [lookup, h']
        · split
          · rename_i hEq
            subst hEq
            simp [lookup, h']
          · simp [lookup, ih, h]

/- Looking up after `drop`. -/
theorem lookup_drop
    (name other : String)
    (l : List (String × α)) :
    lookup other (drop name l) =
      if other = name then none else lookup other l := by
  unfold drop
  induction l with
  | nil => simp [lookup]
  | cons hd tl ih =>
      obtain ⟨k, v⟩ := hd
      by_cases hk : k = name
      · subst hk
        by_cases h : other = k
        · subst h
          simpa [lookup] using ih
        · have h' : ¬ k = other := fun e => h e.symm
          simpa [lookup, h, h'] using ih
      · by_cases h : k = other
        · subst h
          simp [lookup, hk]
        · simpa [lookup, hk, h] using ih

/- Looking up after changing values. -/
theorem lookup_map
    (f : String → α → β)
    (name : String)
    (l : List (String × α)) :
    lookup name (l.map fun e => (e.1, f e.1 e.2)) =
      (lookup name l).map (f name) := by
  induction l with
  | nil => rfl
  | cons hd tl ih =>
      obtain ⟨k, v⟩ := hd
      by_cases h : k = name
      · subst h
        simp [lookup]
      · simpa [lookup, h] using ih

/- A value that is found is in the list. -/
theorem mem_of_lookup
    {name : String}
    {value : α}
    {l : List (String × α)}
    (h : lookup name l = some value) :
    (name, value) ∈ l := by
  induction l with
  | nil => simp [lookup] at h
  | cons hd tl ih =>
      obtain ⟨k, v⟩ := hd
      by_cases hk : k = name
      · subst hk
        simp only [lookup, if_true, Option.some.injEq] at h
        exact h ▸ List.mem_cons_self
      · simp only [lookup, hk, if_false] at h
        exact List.mem_cons_of_mem _ (ih h)

/- In an ordered list every entry is found by its name. -/
theorem lookup_of_mem
    {name : String}
    {value : α}
    {l : List (String × α)}
    (hl : Ordered l)
    (h : (name, value) ∈ l) :
    lookup name l = some value := by
  induction l with
  | nil => simp at h
  | cons hd tl ih =>
      obtain ⟨k, v⟩ := hd
      obtain ⟨hHead, hTail⟩ := List.pairwise_cons.mp hl
      rcases List.mem_cons.mp h with h | h
      · cases h
        simp [lookup]
      · have hNe : ¬ k = name :=
          String.ne_of_lt (hHead _ h)
        simpa [lookup, hNe] using ih hTail h

/- Ordered lists with equal lookups are equal. -/
theorem eq_of_lookup_eq
    {l₁ l₂ : List (String × α)}
    (h₁ : Ordered l₁)
    (h₂ : Ordered l₂)
    (h : ∀ name, lookup name l₁ = lookup name l₂) :
    l₁ = l₂ := by
  have hMem : ∀ e, e ∈ l₁ ↔ e ∈ l₂ := by
    intro e
    obtain ⟨k, v⟩ := e
    exact
      ⟨fun he => mem_of_lookup
          (h k ▸ lookup_of_mem h₁ he),
        fun he => mem_of_lookup
          ((h k).symm ▸ lookup_of_mem h₂ he)⟩
  clear h
  induction l₁ generalizing l₂ with
  | nil =>
      cases l₂ with
      | nil => rfl
      | cons b tl => exact absurd ((hMem b).mpr List.mem_cons_self) (by simp)
  | cons a tl₁ ih =>
      cases l₂ with
      | nil => exact absurd ((hMem a).mp List.mem_cons_self) (by simp)
      | cons b tl₂ =>
          obtain ⟨hA, hT₁⟩ := List.pairwise_cons.mp h₁
          obtain ⟨hB, hT₂⟩ := List.pairwise_cons.mp h₂
          have hAB : a = b := by
            rcases List.mem_cons.mp
              ((hMem a).mp List.mem_cons_self) with e | e
            · exact e
            · rcases List.mem_cons.mp
                ((hMem b).mpr List.mem_cons_self) with e' | e'
              · exact e'.symm
              · exact absurd (hA b e')
                  (String.lt_asymm (hB a e))
          subst hAB
          congr 1
          refine ih hT₁ hT₂ ?_
          intro e
          constructor
          · intro he
            rcases List.mem_cons.mp ((hMem e).mp
              (List.mem_cons_of_mem _ he)) with e' | e'
            · subst e'
              exact absurd (hA e he) (String.lt_irrefl _)
            · exact e'
          · intro he
            rcases List.mem_cons.mp ((hMem e).mpr
              (List.mem_cons_of_mem _ he)) with e' | e'
            · subst e'
              exact absurd (hB e he) (String.lt_irrefl _)
            · exact e'

end Entries

------------------------------------------------------------
-- Maps
------------------------------------------------------------

/- A finite map from names to values, in name order. -/
structure NameMap (α : Type) where
  entries : List (String × α)
  ordered : Entries.Ordered entries
deriving DecidableEq

namespace NameMap

variable {α β : Type}

/- The map without entries. -/
def empty : NameMap α :=
  ⟨[], List.Pairwise.nil⟩

instance : Inhabited (NameMap α) :=
  ⟨empty⟩

/- The value under a name. -/
def get?
    (m : NameMap α)
    (name : String) : Option α :=
  Entries.lookup name m.entries

/- Whether a name has a value. -/
def contains
    (m : NameMap α)
    (name : String) : Bool :=
  (m.get? name).isSome

/- Put a value under a name, replacing an older one. -/
def insert
    (m : NameMap α)
    (name : String)
    (value : α) : NameMap α :=
  ⟨Entries.put name value m.entries,
    Entries.ordered_put name value m.ordered⟩

/- Drop the value under a name. -/
def erase
    (m : NameMap α)
    (name : String) : NameMap α :=
  ⟨Entries.drop name m.entries,
    Entries.ordered_drop name m.ordered⟩

/- Change every value, with its name at hand. -/
def map
    (f : String → α → β)
    (m : NameMap α) : NameMap β :=
  ⟨m.entries.map fun e => (e.1, f e.1 e.2),
    Entries.ordered_map f m.ordered⟩

/- Change the value under a name, where there is one. -/
def modify
    (m : NameMap α)
    (name : String)
    (f : α → α) : NameMap α :=
  m.map fun k v => if k = name then f v else v

/- The names, in order. -/
def names
    (m : NameMap α) : List String :=
  m.entries.map (·.1)

/- The number of entries. -/
def size
    (m : NameMap α) : Nat :=
  m.entries.length

/- The map of a list of entries, where the last one counts. -/
def ofList
    (l : List (String × α)) : NameMap α :=
  l.foldl (fun m e => m.insert e.1 e.2) empty

/- Drop every name of a list. -/
def eraseAll
    (m : NameMap α)
    (names : List String) : NameMap α :=
  names.foldl erase m

@[simp] theorem get?_empty
    (name : String) :
    (empty : NameMap α).get? name = none :=
  rfl

/- Maps with equal lookups are equal. -/
theorem ext_get?
    {m₁ m₂ : NameMap α}
    (h : ∀ name, m₁.get? name = m₂.get? name) :
    m₁ = m₂ := by
  obtain ⟨l₁, h₁⟩ := m₁
  obtain ⟨l₂, h₂⟩ := m₂
  have hl : l₁ = l₂ := Entries.eq_of_lookup_eq h₁ h₂ h
  subst hl
  rfl

/- Looking up after an insertion. -/
theorem get?_insert
    (m : NameMap α)
    (name other : String)
    (value : α) :
    (m.insert name value).get? other =
      if other = name then some value
      else m.get? other :=
  Entries.lookup_put name other value m.entries

/- Looking up after a removal. -/
theorem get?_erase
    (m : NameMap α)
    (name other : String) :
    (m.erase name).get? other =
      if other = name then none else m.get? other :=
  Entries.lookup_drop name other m.entries

/- Looking up after changing every value. -/
theorem get?_map
    (f : String → α → β)
    (m : NameMap α)
    (name : String) :
    (m.map f).get? name = (m.get? name).map (f name) :=
  Entries.lookup_map f name m.entries

/- Looking up after changing one value. -/
theorem get?_modify
    (m : NameMap α)
    (name other : String)
    (f : α → α) :
    (m.modify name f).get? other =
      if other = name then (m.get? other).map f
      else m.get? other := by
  unfold modify
  rw [get?_map]
  by_cases h : other = name <;>
    cases m.get? other <;> simp [h]

/- Looking up after dropping a list of names. -/
theorem get?_eraseAll
    (m : NameMap α)
    (names : List String)
    (other : String) :
    (m.eraseAll names).get? other =
      if other ∈ names then none else m.get? other := by
  unfold eraseAll
  induction names generalizing m with
  | nil => simp
  | cons n rest ih =>
      simp only [List.foldl_cons, ih, get?_erase]
      by_cases h₁ : other ∈ rest <;>
        by_cases h₂ : other = n <;> simp [h₁, h₂]

/- Looking up after inserting a list that is in order. -/
theorem get?_foldl_insert
    {l : List (String × α)}
    (h : Entries.Ordered l)
    (m : NameMap α)
    (name : String) :
    (l.foldl (fun m e => m.insert e.1 e.2) m).get? name =
      (Entries.lookup name l).or (m.get? name) := by
  induction l generalizing m with
  | nil => rfl
  | cons e rest ih =>
      obtain ⟨hHead, hRest⟩ := List.pairwise_cons.mp h
      rw [List.foldl_cons, ih hRest, get?_insert]
      by_cases he : e.1 = name
      · have hNone : Entries.lookup name rest = none := by
          cases hf : Entries.lookup name rest with
          | none => rfl
          | some v =>
              have hLt := hHead _ (Entries.mem_of_lookup hf)
              exact absurd he (String.ne_of_lt hLt)
        obtain ⟨k, v⟩ := e
        simp only at he
        subst he
        simp [hNone, Entries.lookup]
      · have he' : ¬ name = e.1 := fun x => he x.symm
        obtain ⟨k, v⟩ := e
        simp only at he he'
        simp [he, he', Entries.lookup]

/- Looking up in the map of a list that is in order. -/
theorem get?_ofList
    (l : List (String × α))
    (h : Entries.Ordered l)
    (name : String) :
    (ofList l).get? name = Entries.lookup name l := by
  rw [ofList, get?_foldl_insert h, get?_empty,
    Option.or_none]

/- The map of the entries of a map is that map. -/
theorem ofList_entries
    (m : NameMap α) : ofList m.entries = m :=
  ext_get? fun name => get?_ofList m.entries m.ordered name

/- An entry is listed exactly if it is found. -/
theorem mem_entries_iff
    (m : NameMap α)
    (name : String)
    (value : α) :
    (name, value) ∈ m.entries ↔
      m.get? name = some value :=
  ⟨Entries.lookup_of_mem m.ordered,
    Entries.mem_of_lookup⟩

/- A name is listed exactly if it has a value. -/
theorem mem_names_iff
    (m : NameMap α)
    (name : String) :
    name ∈ m.names ↔ m.contains name = true := by
  unfold names contains
  rw [List.mem_map]
  constructor
  · rintro ⟨⟨k, v⟩, hMem, hName⟩
    cases hName
    rw [(m.mem_entries_iff k v).mp hMem]
    rfl
  · intro h
    obtain ⟨v, hv⟩ := Option.isSome_iff_exists.mp h
    exact ⟨(name, v), (m.mem_entries_iff name v).mpr hv, rfl⟩

end NameMap

end CallFlow
