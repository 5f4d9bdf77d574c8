import CallFlow.Proofs.Json.Grammar
import CallFlow.Proofs.Json.Writing

/-
  Written data is read back.

  The tokens that data is written from are a notation of it.
  A list is built up from its front, item by item, and an
  object likewise.  Notations are what the reader reads.

  Main declarations:
    * `Json.notates_tokensOf`
    * `Json.text_charsAt`
    * `Json.read?_pretty`
-/

namespace CallFlow

namespace Json

------------------------------------------------------------
-- Tokens
------------------------------------------------------------

/- The front of a list is completed by the items that follow. -/
theorem notates_itemTokens
    {items before : List Json}
    {ts : List Token}
    (hItems : ∀ j ∈ items, Notates (tokensOf j) (.value j))
    (hNe : items ≠ [])
    (hFront : Notates ts (.listFront before)) :
    Notates (ts ++ itemTokens items ++ [.endList])
      (.value (.list (before ++ items))) := by
  induction items generalizing before ts with
  | nil => exact absurd rfl hNe
  | cons j js ih =>
      have hItem := hItems j List.mem_cons_self
      cases js with
      | nil => simpa [itemTokens] using hFront.list hItem
      | cons k ks =>
          have hRest := ih
            (fun x hx => hItems x (List.mem_cons_of_mem j hx))
            (List.cons_ne_nil k ks) (hFront.item hItem)
          unfold itemTokens
          simpa using hRest

/- The front of an object, likewise. -/
theorem notates_memberTokens
    {members : List (String × Json)}
    {before : List (Option String × Json)}
    {ts : List Token}
    (hMembers :
      ∀ m ∈ members, Notates (tokensOf m.2) (.value m.2))
    (hNe : members ≠ [])
    (hFront : Notates ts (.objectFront before)) :
    Notates (ts ++ memberTokens members ++ [.endObject])
      (.value (objectOf
        (before ++ members.map fun m => (some m.1, m.2)))) := by
  induction members generalizing before ts with
  | nil => exact absurd rfl hNe
  | cons m ms ih =>
      rcases m with ⟨name, j⟩
      have hValue := hMembers (name, j) List.mem_cons_self
      cases ms with
      | nil => simpa [memberTokens] using hFront.object hValue
      | cons k ks =>
          have hNext :
              Notates _ (.objectFront
                (before ++ [(some name, j)])) :=
            hFront.member hValue
          have hRest := ih
            (fun x hx =>
              hMembers x (List.mem_cons_of_mem (name, j) hx))
            (List.cons_ne_nil k ks) hNext
          unfold memberTokens
          simpa using hRest

/- Members whose names are all there make up their object. -/
theorem objectOf_map_some
    (members : List (String × Json)) :
    objectOf (members.map fun m => (some m.1, m.2)) =
      .object members := by
  have hMembers :
      (members.map fun m => (some m.1, m.2)).mapM memberOf? =
        some members := by
    induction members with
    | nil => rfl
    | cons m ms ih =>
        rw [List.map_cons, List.mapM_cons, ih]
        rfl
  unfold objectOf
  rw [hMembers]

/- The tokens of data are a notation of it. -/
theorem notates_tokensOf
    {j : Json}
    (hWritable : j.Writable) :
    Notates (tokensOf j) (.value j) := by
  induction hWritable with
  | null => exact .atom rfl
  | bool b => exact .atom rfl
  | number h => exact .atom rfl
  | string s => exact .atom rfl
  | @list items h ih =>
      cases items with
      | nil => exact .emptyList
      | cons j js =>
          exact notates_itemTokens ih (List.cons_ne_nil j js)
            .openList
  | @object members h ih =>
      cases members with
      | nil => exact .emptyObject
      | cons m ms =>
          have hObject := notates_memberTokens ih
            (List.cons_ne_nil m ms) .openObject
          rwa [List.nil_append, objectOf_map_some] at hObject

------------------------------------------------------------
-- Texts
------------------------------------------------------------

/- The written form of data is a text of it. -/
theorem text_charsAt
    {j : Json}
    (hWritable : j.Writable)
    (l : Layout) :
    Text j (String.ofList (charsAt l 0 j)) := by
  have hSpells := spells_charsAt hWritable l 0 rfl .nil
  rw [List.append_nil, List.append_nil] at hSpells
  refine ⟨tokensOf j, notates_tokensOf hWritable, ?_⟩
  rwa [String.toList_ofList]

/- Data on one line is a text of it. -/
theorem text_compact
    {j : Json}
    (hWritable : j.Writable) : Text j j.compact :=
  text_charsAt hWritable .compact

/- Data with one part a line is a text of it. -/
theorem text_pretty
    {j : Json}
    (hWritable : j.Writable) : Text j j.pretty :=
  text_charsAt hWritable .indented

/- Data with one part a line is read back. -/
theorem read?_pretty
    {j : Json}
    (hWritable : j.Writable) : read? j.pretty = some j :=
  read?_eq_some_iff.mpr (text_pretty hWritable)

end Json

end CallFlow
