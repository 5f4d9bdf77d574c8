import CallFlow.Proofs.Json.Reading
import CallFlow.Proofs.NameMap
import CallFlow.Proofs.Results
import CallFlow.Snapshot.Document

/-
  A document is read back from its text, if its settings are
  data that survives by itself.

  Main declarations:
    * `Json.map?_ofMap_map`
    * `Datum.Storable`
    * `NodeDocument.ofJson?_toJson`
    * `Document.ofJson?_toJson`
    * `Document.read?_pretty`
-/

namespace CallFlow

namespace Json

------------------------------------------------------------
-- Writing Parts
------------------------------------------------------------

/- Numbers can be written. -/
theorem writable_ofNat
    (n : Nat) : (ofNat n).Writable :=
  .number (writable_ofInt n)

/- A text, or nothing, can be written. -/
theorem writable_ofText?
    (s : Option String) : (ofText? s).Writable := by
  cases s with
  | none => exact .null
  | some s => exact .string s

/- A list of texts can be written. -/
theorem writable_ofTexts
    (l : List String) : (ofTexts l).Writable := by
  refine .list ?_
  intro j hj
  rcases List.mem_map.mp hj with ⟨s, -, hText⟩
  rw [← hText]
  exact .string s

/- A map can be written if its values can. -/
theorem writable_ofMap
    {α : Type}
    {m : NameMap α}
    {g : String → α → Json}
    (h :
      ∀ name v, m.get? name = some v →
        (g name v).Writable) :
    (ofMap (m.map g)).Writable := by
  refine .object ?_
  intro e he
  rcases List.mem_map.mp he with ⟨⟨name, v⟩, hMem, hEntry⟩
  rw [← hEntry]
  exact h name v ((m.mem_entries_iff name v).mp hMem)

------------------------------------------------------------
-- Reading Parts
------------------------------------------------------------

/- A field that is there is read. -/
@[simp] theorem given?_some
    {α : Type}
    (f : Json → Option α)
    (j : Json) : given? f (some j) = f j :=
  rfl

@[simp] theorem orElse?_some
    {α : Type}
    (d : α)
    (f : Json → Option α)
    (j : Json) : orElse? d f (some j) = f j :=
  rfl

/- A number below the bound is read back. -/
theorem natBelow?_ofNat
    {bound n : Nat}
    (h : n < bound) : natBelow? bound (ofNat n) = some n := by
  unfold ofNat ofInt natBelow?
  simp only [Numeral.integer?_ofInt]
  simp [h]

/- A number of 32 bits is read back. -/
theorem word32?_ofNat
    (n : UInt32) : word32? (ofNat n.toNat) = some n := by
  unfold word32?
  rw [natBelow?_ofNat n.toNat_lt]
  simp

/- A number of 64 bits is read back. -/
theorem word64?_ofNat
    (n : UInt64) : word64? (ofNat n.toNat) = some n := by
  unfold word64?
  rw [natBelow?_ofNat n.toNat_lt]
  simp

/- A text, or nothing, is read back. -/
theorem nullable?_ofText?
    (s : Option String) :
    nullable? text? (ofText? s) = some s := by
  cases s <;> rfl

/- A list of texts is read back. -/
theorem list?_ofTexts
    (l : List String) : list? text? (ofTexts l) = some l := by
  unfold ofTexts list?
  have hTexts : ∀ j ∈ l.map string,
      text? j = some ((text? j).getD "") := by
    intro j hj
    rcases List.mem_map.mp hj with ⟨s, -, hText⟩
    rw [← hText]
    rfl
  refine (mapM_eq_pure hTexts).trans ?_
  rw [List.map_map]
  exact congrArg some l.map_id

/- A map is read back if its values are. -/
theorem map?_ofMap_map
    {α β : Type}
    {m : NameMap α}
    {f : Json → Option β}
    {g : String → α → Json}
    {h : String → α → β}
    (hRead :
      ∀ name v, m.get? name = some v →
        f (g name v) = some (h name v)) :
    map? f (ofMap (m.map g)) = some (m.map h) := by
  have hMapM :
      (m.entries.map fun e => (e.1, g e.1 e.2)).mapM
          (fun e => (f e.2).map fun v => (e.1, v)) =
        some (m.map h).entries := by
    rw [List.mapM_map]
    refine mapM_eq_pure ?_
    rintro ⟨name, v⟩ hMem
    have hFound := (m.mem_entries_iff name v).mp hMem
    simp [hRead name v hFound]
  refine (congrArg (Option.map NameMap.ofList) hMapM).trans ?_
  rw [Option.map_some, NameMap.ofList_entries]

end Json

------------------------------------------------------------
-- Documents That Survive
------------------------------------------------------------

/- Data that survives being a setting of a stored node. -/
def Datum.Storable
    (d : Datum) : Prop :=
  d.json.Writable ∧
    Json.datum? settingLevels d.json = some d

/- A stored node whose settings survive. -/
def NodeDocument.Storable
    (n : NodeDocument) : Prop :=
  ∀ name d, n.parameters.get? name = some d → d.Storable

/- A document whose nodes survive. -/
def Document.Storable
    (d : Document) : Prop :=
  ∀ id n, d.nodes.get? id = some n → n.Storable

/- A stored node that survives can be written. -/
theorem NodeDocument.writable_toJson
    {n : NodeDocument}
    (h : n.Storable) : n.toJson.Writable := by
  have hSettings :=
    Json.writable_ofMap (m := n.parameters)
      (g := fun _ d => d.json)
      fun name d hFound => (h name d hFound).1
  refine .object ?_
  simp only [List.mem_cons, List.not_mem_nil, or_false,
    forall_eq_or_imp, forall_eq]
  exact
    ⟨.string _, .string _, .string _,
      Json.writable_ofText? _, Json.writable_ofTexts _,
      hSettings, Json.writable_ofText? _⟩

/- A stored node that survives is read back from its data. -/
theorem NodeDocument.ofJson?_toJson
    {n : NodeDocument}
    (h : n.Storable) :
    NodeDocument.ofJson? n.toJson = some n := by
  have hSettings :
      Json.map? (Json.datum? settingLevels)
          (.ofMap (n.parameters.map fun _ d => d.json)) =
        some n.parameters := by
    rw [Json.map?_ofMap_map fun name d hFound =>
      (h name d hFound).2, NameMap.map_self]
  have hFields :
      n.toJson.fields? NodeDocument.fields =
        some
          [some (.string n.id), some (.string n.kind),
            some (.string n.label), some (.ofText? n.parentId),
            some (.ofTexts n.children),
            some (.ofMap (n.parameters.map fun _ d => d.json)),
            some (.ofText? n.key)] := by
    simp [Json.fields?, NodeDocument.fields,
      NodeDocument.toJson, Json.member?]
  unfold NodeDocument.ofJson?
  rw [hFields]
  simp [Json.text?, hSettings, Json.nullable?_ofText?,
    Json.list?_ofTexts]

/- A document that survives can be written. -/
theorem Document.writable_toJson
    {d : Document}
    (h : d.Storable) : d.toJson.Writable := by
  have hNodes :=
    Json.writable_ofMap (m := d.nodes)
      (g := fun _ n => n.toJson)
      fun id n hFound =>
        NodeDocument.writable_toJson (h id n hFound)
  refine .object ?_
  simp only [List.mem_cons, List.not_mem_nil, or_false,
    forall_eq_or_imp, forall_eq]
  exact
    ⟨Json.writable_ofNat _, .string _, .string _,
      Json.writable_ofNat _, Json.writable_ofNat _, hNodes⟩

/- A document is read if each of its fields is. -/
theorem Document.ofJson?_eq_some
    {j : Json}
    {d : Document}
    {version name rootId nextId revision nodes : Option Json}
    (hFields :
      j.fields? Document.fields =
        some [version, name, rootId, nextId, revision, nodes])
    (hVersion :
      Json.given? Json.word32? version = some d.version)
    (hName : Json.given? Json.text? name = some d.name)
    (hRootId : Json.given? Json.text? rootId = some d.rootId)
    (hNextId :
      Json.orElse? 1 Json.word64? nextId = some d.nextId)
    (hRevision :
      Json.orElse? 0 Json.word64? revision = some d.revision)
    (hNodes :
      Json.given? (Json.map? NodeDocument.ofJson?) nodes =
        some d.nodes) :
    Document.ofJson? j = some d := by
  unfold Document.ofJson?
  rw [hFields]
  simp only [Option.bind_eq_bind, Option.bind_some, hVersion,
    hName, hRootId, hNextId, hRevision, hNodes]
  rfl

/- A document that survives is read back from its data. -/
theorem Document.ofJson?_toJson
    {d : Document}
    (h : d.Storable) :
    Document.ofJson? d.toJson = some d := by
  have hNodes :
      Json.map? NodeDocument.ofJson?
          (.ofMap (d.nodes.map fun _ n => n.toJson)) =
        some d.nodes := by
    rw [Json.map?_ofMap_map fun id n hFound =>
      NodeDocument.ofJson?_toJson (h id n hFound),
      NameMap.map_self]
  have hFields :
      d.toJson.fields? Document.fields =
        some
          [some (.ofNat d.version.toNat),
            some (.string d.name), some (.string d.rootId),
            some (.ofNat d.nextId.toNat),
            some (.ofNat d.revision.toNat),
            some (.ofMap (d.nodes.map fun _ n => n.toJson))]
        := by
    simp [Json.fields?, Document.fields, Document.toJson,
      Json.member?]
  refine Document.ofJson?_eq_some hFields ?_ rfl rfl ?_ ?_ ?_
  · rw [Json.given?_some, Json.word32?_ofNat]
  · rw [Json.orElse?_some, Json.word64?_ofNat]
  · rw [Json.orElse?_some, Json.word64?_ofNat]
  · rw [Json.given?_some, hNodes]

/- A document that survives is read back from its text. -/
theorem Document.read?_pretty
    {d : Document}
    (h : d.Storable) :
    Document.read? d.toJson.pretty = some d := by
  unfold Document.read?
  rw [Json.read?_pretty (Document.writable_toJson h),
    Option.bind_some]
  exact Document.ofJson?_toJson h

end CallFlow
