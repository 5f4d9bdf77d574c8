import CallFlow.Json.Reader
import CallFlow.Proofs.Json.Spelling
import Mathlib.Data.List.Induction

/-
  The grammar of data in JSON notation, and the reader.

  The rules are those of the notation, over tokens.  A list
  or an object is built up from its front: the bracket and
  the parts so far, each with its comma.  That is also what
  the reader keeps of it on its stack, so the tokens that it
  has taken can be told from where it has got to.

  Main declarations:
    * `Json.Notates`
    * `Json.Text`
    * `Json.Behind`
    * `Json.ofTokens?_eq_some_iff`
    * `Json.read?_eq_some_iff`
-/

namespace CallFlow

namespace Json

variable {j : Json}
variable {t : Token}
variable {ts : List Token}

------------------------------------------------------------
-- Rules
------------------------------------------------------------

/- The member of an object, unless its name is broken. -/
def memberOf?
    (p : Option String × Json) : Option (String × Json) :=
  p.1.map fun name => (name, p.2)

/- The data of an object, unless a name is broken. -/
def objectOf
    (parts : List (Option String × Json)) : Json :=
  match parts.mapM memberOf? with
  | some members => .object members
  | none => .broken

/- What a list of tokens can be a notation of. -/
inductive Phrase where
  | value (j : Json)
  | listFront (items : List Json)
  | objectFront (parts : List (Option String × Json))

/- Tokens, and what they are a notation of. -/
inductive Notates : List Token → Phrase → Prop where
  | atom
      {t : Token}
      {j : Json}
      (h : atom? t = some j) : Notates [t] (.value j)
  | emptyList :
      Notates [.beginList, .endList] (.value (.list []))
  | emptyObject :
      Notates [.beginObject, .endObject] (.value (.object []))
  | openList : Notates [.beginList] (.listFront [])
  | openObject : Notates [.beginObject] (.objectFront [])
  | item
      {ts us : List Token}
      {items : List Json}
      {j : Json}
      (hFront : Notates ts (.listFront items))
      (hItem : Notates us (.value j)) :
      Notates (ts ++ us ++ [.comma])
        (.listFront (items ++ [j]))
  | list
      {ts us : List Token}
      {items : List Json}
      {j : Json}
      (hFront : Notates ts (.listFront items))
      (hItem : Notates us (.value j)) :
      Notates (ts ++ us ++ [.endList])
        (.value (.list (items ++ [j])))
  | member
      {ts us : List Token}
      {parts : List (Option String × Json)}
      {name : Option String}
      {j : Json}
      (hFront : Notates ts (.objectFront parts))
      (hValue : Notates us (.value j)) :
      Notates (ts ++ [.text name, .colon] ++ us ++ [.comma])
        (.objectFront (parts ++ [(name, j)]))
  | object
      {ts us : List Token}
      {parts : List (Option String × Json)}
      {name : Option String}
      {j : Json}
      (hFront : Notates ts (.objectFront parts))
      (hValue : Notates us (.value j)) :
      Notates
        (ts ++ [.text name, .colon] ++ us ++ [.endObject])
        (.value (objectOf (parts ++ [(name, j)])))

/- A text that writes data in JSON notation. -/
def Text
    (j : Json)
    (s : String) : Prop :=
  ∃ ts, Notates ts (.value j) ∧ Spells ts s.toList

------------------------------------------------------------
-- Members
------------------------------------------------------------

/- The parts of an object, as the reader keeps them. -/
def membersOf
    (parts : List (Option String × Json)) : Members :=
  parts.foldl (fun ms p => ms.add p.1 p.2) (some [])

@[simp] theorem membersOf_nil : membersOf [] = some [] :=
  rfl

@[simp] theorem membersOf_append
    (parts : List (Option String × Json))
    (name : Option String)
    (j : Json) :
    membersOf (parts ++ [(name, j)]) =
      (membersOf parts).add name j := by
  simp [membersOf]

/- The object of its parts has them in their order. -/
theorem close_membersOf
    (parts : List (Option String × Json)) :
    (membersOf parts).close = objectOf parts := by
  have hParts : membersOf parts =
      (parts.mapM memberOf?).map List.reverse := by
    induction parts using List.reverseRecOn with
    | nil => rfl
    | append_singleton parts p ih =>
        rcases p with ⟨name, j⟩
        rw [membersOf_append, ih, List.mapM_append]
        cases name <;> cases parts.mapM memberOf? <;>
          simp [Members.add, memberOf?]
  unfold objectOf
  rw [hParts]
  cases parts.mapM memberOf? <;> simp [Members.close]

------------------------------------------------------------
-- Notations Are Read
------------------------------------------------------------

namespace Reader

/- The reader is where data must start. -/
def AwaitsValue
    (r : Reader)
    (outer : List Frame) : Prop :=
  r = .value outer ∨
    ∃ o, r = .firstItem o ∧ outer = .list [] :: o

/- The reader is where a member must start. -/
def AwaitsName
    (r : Reader)
    (outer : List Frame)
    (ms : Members) : Prop :=
  r = .nextName outer ms ∨
    (r = .firstName outer ∧ ms = some [])

/- A token that starts data is taken for that. -/
theorem AwaitsValue.step
    {r : Reader}
    {outer : List Frame}
    (h : r.AwaitsValue outer)
    (hToken : t ≠ .endList) : r.step t = begin outer t := by
  rcases h with rfl | ⟨o, rfl, rfl⟩
  · rfl
  · simp [Reader.step, hToken]

/- A name is taken where a member must start. -/
theorem AwaitsName.step
    {r : Reader}
    {outer : List Frame}
    {ms : Members}
    (h : r.AwaitsName outer ms)
    (name : Option String) :
    r.step (.text name) = some (.colon outer ms name) := by
  rcases h with rfl | ⟨rfl, rfl⟩ <;> rfl

/- A value is taken after a name and a colon. -/
theorem step_colon
    (outer : List Frame)
    (ms : Members)
    (name : Option String) :
    step (.colon outer ms name) .colon =
      some (.value (.object ms name :: outer)) :=
  rfl

end Reader

/- A token with a known effect. -/
theorem foldlM_step
    {r r' : Reader}
    (h : r.step t = some r')
    (rest : List Token) :
    (t :: rest).foldlM Reader.step r =
      rest.foldlM Reader.step r' := by
  rw [List.foldlM_cons, h]
  rfl

/- Where the reader gets to with some tokens. -/
def Phrase.Read
    (ts : List Token) : Phrase → Prop
  | .value j =>
      ∀ r outer, Reader.AwaitsValue r outer → ∀ rest,
        (ts ++ rest).foldlM Reader.step r =
          rest.foldlM Reader.step (.done outer j)
  | .listFront items =>
      ∀ r outer, Reader.AwaitsValue r outer →
        ∃ r', r'.AwaitsValue (.list items.reverse :: outer) ∧
          ∀ rest,
            (ts ++ rest).foldlM Reader.step r =
              rest.foldlM Reader.step r'
  | .objectFront parts =>
      ∀ r outer, Reader.AwaitsValue r outer →
        ∃ r', r'.AwaitsName outer (membersOf parts) ∧
          ∀ rest,
            (ts ++ rest).foldlM Reader.step r =
              rest.foldlM Reader.step r'

/- A token that stands alone starts no list and no object. -/
theorem begin_of_atom?
    (h : atom? t = some j)
    (outer : List Frame) :
    t ≠ .endList ∧
      Reader.begin outer t = some (.done outer j) := by
  cases t with
  | text s => cases s <;> cases h <;> exact ⟨nofun, rfl⟩
  | _ => cases h <;> exact ⟨nofun, rfl⟩

/- Reading a notation gets to what it is a notation of. -/
theorem read_of_notates
    {p : Phrase}
    (h : Notates ts p) : p.Read ts := by
  induction h with
  | atom h =>
      intro r outer hAwaits rest
      rcases begin_of_atom? h outer with ⟨hNe, hBegin⟩
      have hStep := (hAwaits.step hNe).trans hBegin
      rw [List.singleton_append, foldlM_step hStep]
  | emptyList =>
      intro r outer hAwaits rest
      have hStep := hAwaits.step (t := .beginList) nofun
      rw [List.cons_append, foldlM_step hStep]
      rfl
  | emptyObject =>
      intro r outer hAwaits rest
      have hStep := hAwaits.step (t := .beginObject) nofun
      rw [List.cons_append, foldlM_step hStep]
      rfl
  | openList =>
      intro r outer hAwaits
      have hStep := hAwaits.step (t := .beginList) nofun
      exact ⟨.firstItem outer, Or.inr ⟨outer, rfl, rfl⟩,
        foldlM_step hStep⟩
  | openObject =>
      intro r outer hAwaits
      have hStep := hAwaits.step (t := .beginObject) nofun
      exact ⟨.firstName outer, Or.inr ⟨rfl, rfl⟩,
        foldlM_step hStep⟩
  | @item ts us items j hFront hItem ihFront ihItem =>
      intro r outer hAwaits
      rcases ihFront r outer hAwaits with ⟨r', hFirst, hRead⟩
      refine ⟨.value (.list (j :: items.reverse) :: outer),
        Or.inl (by simp), fun rest => ?_⟩
      rw [List.append_assoc, List.append_assoc, hRead,
        ihItem r' _ hFirst]
      rfl
  | @list ts us items j hFront hItem ihFront ihItem =>
      intro r outer hAwaits rest
      rcases ihFront r outer hAwaits with ⟨r', hFirst, hRead⟩
      have hStep :
          Reader.step (.done (.list items.reverse :: outer) j)
              .endList =
            some (.done outer (.list (items ++ [j]))) := by
        simp [Reader.step, Reader.after]
      rw [List.append_assoc, List.append_assoc, hRead,
        ihItem r' _ hFirst, List.singleton_append,
        foldlM_step hStep]
  | @member ts us parts name j hFront hValue ihFront ihValue =>
      intro r outer hAwaits
      rcases ihFront r outer hAwaits with ⟨r', hFirst, hRead⟩
      refine ⟨.nextName outer ((membersOf parts).add name j),
        Or.inl (by simp), fun rest => ?_⟩
      simp only [List.append_assoc, List.cons_append,
        List.nil_append]
      rw [hRead, foldlM_step (hFirst.step name),
        foldlM_step (Reader.step_colon _ _ name),
        ihValue _ _ (Or.inl rfl)]
      rfl
  | @object ts us parts name j hFront hValue ihFront ihValue =>
      intro r outer hAwaits rest
      rcases ihFront r outer hAwaits with ⟨r', hFirst, hRead⟩
      have hStep :
          Reader.step
              (.done (.object (membersOf parts) name :: outer)
                j) .endObject =
            some
              (.done outer
                (objectOf (parts ++ [(name, j)]))) := by
        rw [← close_membersOf, membersOf_append]
        rfl
      simp only [List.append_assoc, List.cons_append,
        List.nil_append]
      rw [hRead, foldlM_step (hFirst.step name),
        foldlM_step (Reader.step_colon _ _ name),
        ihValue _ _ (Or.inl rfl), foldlM_step hStep]

------------------------------------------------------------
-- What Is Read Is a Notation
------------------------------------------------------------

/- The tokens before the data that an open part waits for. -/
def Behind : List Frame → List Token → Prop
  | [], ts => ts = []
  | .list items :: outer, ts =>
      ∃ before front,
        Behind outer before ∧
          Notates front (.listFront items.reverse) ∧
          ts = before ++ front
  | .object ms name :: outer, ts =>
      ∃ before front parts,
        Behind outer before ∧
          Notates front (.objectFront parts) ∧
          ms = membersOf parts ∧
          ts = before ++ front ++ [.text name, .colon]

/- The tokens that the reader has taken to get where it is. -/
def Reader.Taken
    (ts : List Token) : Reader → Prop
  | .value outer => Behind outer ts
  | .firstItem outer =>
      ∃ before, Behind outer before ∧
        ts = before ++ [.beginList]
  | .firstName outer =>
      ∃ before, Behind outer before ∧
        ts = before ++ [.beginObject]
  | .nextName outer ms =>
      ∃ before front parts,
        Behind outer before ∧
          Notates front (.objectFront parts) ∧
          ms = membersOf parts ∧ ts = before ++ front
  | .colon outer ms name =>
      Behind (.object ms name :: outer) (ts ++ [.colon])
  | .done outer j =>
      ∃ before us,
        Behind outer before ∧ Notates us (.value j) ∧
          ts = before ++ us

/- A token that starts data. -/
theorem taken_of_begin
    {outer : List Frame}
    {r : Reader}
    (hStep : Reader.begin outer t = some r)
    (h : Behind outer ts) : r.Taken (ts ++ [t]) := by
  unfold Reader.begin at hStep
  split at hStep
  · cases hStep
    exact ⟨ts, h, rfl⟩
  · cases hStep
    exact ⟨ts, h, rfl⟩
  · rcases Option.map_eq_some_iff.mp hStep with
      ⟨j, hAtom, rfl⟩
    exact ⟨ts, [t], h, .atom hAtom, rfl⟩

/- A token after data that is complete. -/
theorem taken_of_after
    {outer : List Frame}
    {r : Reader}
    {before us : List Token}
    (hStep : Reader.after outer j t = some r)
    (h : Behind outer before)
    (hValue : Notates us (.value j)) :
    r.Taken (before ++ us ++ [t]) := by
  unfold Reader.after at hStep
  split at hStep
  · cases hStep
    rcases h with ⟨first, front, hOuter, hFront, rfl⟩
    refine ⟨first, front ++ us ++ [.comma], hOuter, ?_, ?_⟩
    · rw [List.reverse_cons]
      exact .item hFront hValue
    · simp
  · cases hStep
    rcases h with ⟨first, front, hOuter, hFront, rfl⟩
    refine ⟨first, front ++ us ++ [.endList], hOuter, ?_, ?_⟩
    · rw [List.reverse_cons]
      exact .list hFront hValue
    · simp
  · rename_i name _
    cases hStep
    rcases h with
      ⟨first, front, parts, hOuter, hFront, rfl, rfl⟩
    have hMember :
        Notates _ (.objectFront (parts ++ [(name, j)])) :=
      .member hFront hValue
    exact ⟨first, _, _, hOuter, hMember, by simp, by simp⟩
  · rename_i name _
    cases hStep
    rcases h with
      ⟨first, front, parts, hOuter, hFront, rfl, rfl⟩
    have hObject :
        Notates _ (.value (objectOf (parts ++ [(name, j)]))) :=
      .object hFront hValue
    rw [← close_membersOf, membersOf_append] at hObject
    exact ⟨first, _, hOuter, hObject, by simp⟩
  · cases hStep

/- One token more. -/
theorem taken_of_step
    {r r' : Reader}
    (hStep : r.step t = some r')
    (h : r.Taken ts) : r'.Taken (ts ++ [t]) := by
  cases r with
  | value outer => exact taken_of_begin hStep h
  | firstItem outer =>
      rcases h with ⟨before, hOuter, rfl⟩
      simp only [Reader.step] at hStep
      split at hStep
      · rename_i hEnd
        cases hStep
        subst hEnd
        exact ⟨before, _, hOuter, .emptyList, by simp⟩
      · exact taken_of_begin hStep
          ⟨before, _, hOuter, .openList, rfl⟩
  | firstName outer =>
      rcases h with ⟨before, hOuter, rfl⟩
      simp only [Reader.step] at hStep
      split at hStep
      · cases hStep
        exact ⟨before, _, hOuter, .emptyObject, by simp⟩
      · cases hStep
        exact ⟨before, _, [], hOuter, .openObject, rfl,
          by simp⟩
      · cases hStep
  | nextName outer ms =>
      rcases h with
        ⟨before, front, parts, hOuter, hFront, rfl, rfl⟩
      simp only [Reader.step] at hStep
      split at hStep
      · cases hStep
        exact ⟨before, front, parts, hOuter, hFront, rfl,
          by simp⟩
      · cases hStep
  | colon outer ms name =>
      simp only [Reader.step] at hStep
      split at hStep
      · rename_i hColon
        cases hStep
        subst hColon
        exact h
      · cases hStep
  | done outer v =>
      rcases h with ⟨before, us, hOuter, hValue, rfl⟩
      exact taken_of_after hStep hOuter hValue

/- Many tokens more. -/
theorem taken_of_foldlM
    {r r' : Reader}
    {us : List Token}
    (hRead : us.foldlM Reader.step r = some r')
    (h : r.Taken ts) : r'.Taken (ts ++ us) := by
  induction us generalizing r ts with
  | nil =>
      cases hRead
      rwa [List.append_nil]
  | cons t us ih =>
      rw [List.foldlM_cons] at hRead
      rcases Option.bind_eq_some_iff.mp hRead with
        ⟨r₁, hStep, hRest⟩
      have hTaken := ih hRest (taken_of_step hStep h)
      rwa [List.append_assoc, List.singleton_append] at hTaken

/- Tokens make up exactly the data that they notate. -/
theorem ofTokens?_eq_some_iff :
    ofTokens? ts = some j ↔ Notates ts (.value j) := by
  unfold ofTokens?
  rw [Option.bind_eq_some_iff]
  constructor
  · rintro ⟨r, hRead, hResult⟩
    have hTaken : r.Taken ([] ++ ts) :=
      taken_of_foldlM hRead rfl
    unfold Reader.result? at hResult
    split at hResult
    · cases hResult
      rcases hTaken with ⟨before, us, rfl, hValue, hTokens⟩
      rw [List.nil_append, List.nil_append] at hTokens
      rwa [hTokens]
    · cases hResult
  · intro h
    have hRead := read_of_notates h (.value []) []
      (Or.inl rfl) []
    rw [List.append_nil] at hRead
    exact ⟨_, hRead, rfl⟩

/- A text is read as exactly the data that it writes. -/
theorem read?_eq_some_iff
    {s : String} : read? s = some j ↔ Text j s := by
  unfold read? Text
  rw [Option.bind_eq_some_iff]
  simp only [tokens?_eq_some_iff, ofTokens?_eq_some_iff,
    and_comm]

end Json

end CallFlow
