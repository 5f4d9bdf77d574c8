import CallFlow.Proofs.Snapshot.Faults

/-
  The normal form of a document: what is stored again of the
  flow that it describes.

  A document has many spellings that are loaded alike.  Ids
  may be left out, kinds may have their older names, settings
  may be null, and a key may be empty.  All of these are gone
  in the normal form, and nothing else is.  A document can
  therefore be loaded exactly if its normal form is the
  document of a flow without errors.

  Main declarations:
    * `Document.normal`
    * `NodeDocument.node_eq_ok_iff`
    * `Document.flow_eq_ok_iff`
    * `Document.load_outcome`
-/

namespace CallFlow

------------------------------------------------------------
-- Normal Forms
------------------------------------------------------------

/- The name of a kind, in place of an older one. -/
def StepKind.canonical
    (s : String) : String :=
  match all.find? fun k => k.aliases.contains s with
  | some k => k.name
  | none => s

/- A stored node with everything said the one way. -/
def NodeDocument.normal
    (id : String)
    (n : NodeDocument) : NodeDocument where
  id := if n.id = "" then id else n.id
  kind := StepKind.canonical n.kind
  label := n.label
  parentId := n.parentId
  children := n.children
  parameters := n.parameters.filter fun d => !d.isNull
  key := n.key.filter fun s => s ≠ ""

/- A document whose nodes are in normal form. -/
def Document.normal
    (d : Document) : Document :=
  { d with nodes := d.nodes.map NodeDocument.normal }

------------------------------------------------------------
-- Kinds
------------------------------------------------------------

namespace StepKind

/- The name of a kind is no older name of any. -/
theorem name_not_mem_aliases
    (k k' : StepKind) : k.name ∉ k'.aliases := by
  cases k <;> cases k' <;> decide +kernel

/- An older name belongs to one kind only. -/
theorem eq_of_mem_aliases
    {s : String}
    {k k' : StepKind}
    (h : s ∈ k.aliases)
    (h' : s ∈ k'.aliases) : k = k' := by
  have hAll : ∀ k k' : StepKind, ∀ s ∈ k.aliases,
      s ∈ k'.aliases → k = k' := by
    intro k k'
    cases k <;> cases k' <;> decide +kernel
  exact hAll k k' s h h'

/- The name of a kind stands for it already. -/
theorem canonical_name
    (k : StepKind) : canonical k.name = k.name := by
  have hNone : (all.find? fun k' =>
      k'.aliases.contains k.name) = none := by
    simp [List.find?_eq_none, name_not_mem_aliases]
  unfold canonical
  rw [hNone]

/- An older name is replaced by the name of its kind. -/
theorem canonical_alias
    {s : String}
    {k : StepKind}
    (h : s ∈ k.aliases) : canonical s = k.name := by
  unfold canonical
  split
  · rename_i k' hFound
    have hMem := List.find?_some hFound
    rw [List.contains_iff_mem] at hMem
    rw [eq_of_mem_aliases hMem h]
  · rename_i hNone
    have hNot := List.find?_eq_none.mp hNone k (mem_all k)
    exact absurd (List.contains_iff_mem.mpr h) hNot

/- A text that is no older name stays as it is. -/
theorem canonical_eq_self
    {s : String}
    (h : ∀ k : StepKind, s ∉ k.aliases) : canonical s = s := by
  have hNone :
      (all.find? fun k => k.aliases.contains s) = none := by
    simp [List.find?_eq_none, h]
  unfold canonical
  rw [hNone]

/- What is read stands for the name of what it is read as. -/
theorem canonical_of_ofName?
    {s : String}
    {k : StepKind}
    (h : ofName? s = some k) : canonical s = k.name := by
  rcases name_or_alias_of_ofName? h with hName | hAlias
  · rw [hName, canonical_name]
  · exact canonical_alias hAlias

/- What stands for a name of a kind is one itself. -/
theorem name_or_alias_of_canonical
    {s : String}
    (h : ∃ k : StepKind,
      canonical s = k.name ∨ canonical s ∈ k.aliases) :
    ∃ k : StepKind, s = k.name ∨ s ∈ k.aliases := by
  by_cases hAlias : ∃ k : StepKind, s ∈ k.aliases
  · rcases hAlias with ⟨k, hMem⟩
    exact ⟨k, Or.inr hMem⟩
  · rwa [canonical_eq_self (not_exists.mp hAlias)] at h

end StepKind

------------------------------------------------------------
-- Stored Nodes
------------------------------------------------------------

@[simp] theorem Datum.isNull_null : Datum.null.isNull = true :=
  rfl

/- A value is stored as something. -/
theorem Value.isNull_datum
    (v : Value) : v.datum.isNull = false := by
  cases v <;> rfl

namespace NodeDocument

variable {id : String}
variable {n : NodeDocument}

/- A key that is read is what is left of its text. -/
theorem key_of_loadKey
    {k : Option Key}
    (h : n.loadKey id = .ok k) :
    (n.key.filter fun s => s ≠ "") = k.map Key.text := by
  unfold loadKey at h
  generalize n.key = key at h ⊢
  rcases key with _ | s
  · cases h
    rfl
  · by_cases hEmpty : s = ""
    · simp only [hEmpty, if_true] at h
      cases h
      simp [hEmpty]
    · rcases hKey : Key.ofText? s with _ | k'
      · simp [hEmpty, hKey] at h
      · have hText := Key.eq_text_of_ofText? hKey
        simp only [hEmpty, if_false, hKey] at h
        cases h
        rw [hText] at hEmpty
        simp [hText, hEmpty]

/- A setting that is read is null or the datum of a value. -/
theorem of_loadSetting
    {e : String × Datum}
    {o : Option (String × Value)}
    (h : loadSetting id e = .ok o) :
    (e.2 = .null ∧ o = none) ∨
      ∃ v : Value, e.2 = v.datum ∧ o = some (e.1, v) := by
  unfold loadSetting at h
  split at h
  · rename_i hNull
    cases h
    exact Or.inl ⟨hNull, rfl⟩
  · rcases hRead : Value.ofDatum? e.2 with _ | v
    · simp [hRead] at h
    · simp only [hRead] at h
      cases h
      exact Or.inr ⟨v, Datum.eq_datum_of_ofDatum? hRead, rfl⟩

/- Settings that are read are all that are not null. -/
theorem entries_of_loadSettings
    {l : List (String × Datum)}
    {settings : List (Option (String × Value))}
    (h : List.Forall₂ (fun e o => loadSetting id e = .ok o)
      l settings) :
    ((settings.filterMap fun o => o).map fun e =>
        (e.1, e.2.datum)) =
      l.filter fun e => !e.2.isNull := by
  induction h with
  | nil => rfl
  | @cons e _ _ _ hHead _ ih =>
      rcases e with ⟨name, d⟩
      rcases of_loadSetting hHead with
        ⟨rfl, hNone⟩ | ⟨v, rfl, hSome⟩
      · simp [hNone, ih]
      · simp [hSome, v.isNull_datum, ih]

/- The normal form of a node that is loaded is what is stored. -/
theorem normal_of_node
    {m : Node}
    (h : n.node id = .ok m) : n.normal id = m.document id := by
  have hReadable : n.Readable id :=
    faults_eq_nil_iff.mp ((n.failsFirst_node id).eq_nil h)
  have hSame : ¬ (n.id ≠ "" ∧ n.id ≠ id) :=
    not_and_or.mpr
      (hReadable.id.imp not_not.mpr not_not.mpr)
  unfold node at h
  rw [if_neg hSame] at h
  rcases hKind : StepKind.ofName? n.kind with _ | kind
  · simp [hKind] at h
  · simp only [hKind] at h
    rcases bind_eq_ok_iff.mp h with ⟨key, hKey, hRest⟩
    rcases bind_eq_ok_iff.mp hRest with
      ⟨settings, hSettings, hNode⟩
    cases hNode
    have hEntries := entries_of_loadSettings
      (mapM_eq_ok_iff.mp hSettings)
    have hParameters := NameMap.map_ofList
      (g := fun _ (v : Value) => v.datum)
      (m := n.parameters.filter fun d => !d.isNull) hEntries
    have hId : (if n.id = "" then id else n.id) = id := by
      rcases hReadable.id with hEmpty | hSameId
      · rw [if_pos hEmpty]
      · rw [hSameId, ite_self]
    unfold normal Node.document
    rw [hId, StepKind.canonical_of_ofName? hKind,
      key_of_loadKey hKey]
    rw [← hParameters]

/- What is stored of a node has no faults. -/
theorem readable_document
    (m : Node) : (m.document id).Readable id :=
  faults_eq_nil_iff.mp
    (((m.document id).failsFirst_node id).eq_nil
      (m.node_document id))

/- A node has no faults if its normal form has none. -/
theorem readable_of_normal
    (h : (n.normal id).Readable id) : n.Readable id := by
  have hId : n.id = "" ∨ n.id = id := by
    have hNormal := h.id
    unfold normal at hNormal
    by_cases hEmpty : n.id = ""
    · exact Or.inl hEmpty
    · simpa [hEmpty] using hNormal
  have hKey : ∀ s, n.key = some s →
      s = "" ∨ ∃ k : Key, s = k.text := by
    intro s hSome
    by_cases hEmpty : s = ""
    · exact Or.inl hEmpty
    · refine h.key s ?_
      simp [normal, hSome, hEmpty]
  have hSettings : ∀ name d,
      n.parameters.get? name = some d → d.Settable := by
    intro name d hFound
    by_cases hNull : d.isNull = true
    · exact Or.inl (d.isNull_iff.mp hNull)
    · refine h.settings name d ?_
      simp [normal, NameMap.get?_filter, hFound, hNull]
  exact
    ⟨hId, StepKind.name_or_alias_of_canonical h.kind, hKey,
      hSettings⟩

/-
  A stored node is loaded as exactly the node whose document
  is the normal form.
-/
theorem node_eq_ok_iff
    {m : Node} :
    n.node id = .ok m ↔ n.normal id = m.document id := by
  constructor
  · exact normal_of_node
  · intro hNormal
    have hReadable : (n.normal id).Readable id :=
      hNormal ▸ readable_document m
    have hFaults :=
      faults_eq_nil_iff.mpr (readable_of_normal hReadable)
    have hFails := n.failsFirst_node id
    rw [hFaults] at hFails
    rcases hFails.exists_ok with ⟨m', hOk⟩
    have hSame : m'.document id = m.document id :=
      (normal_of_node hOk).symm.trans hNormal
    have hBack := m'.node_document id
    rw [hSame, m.node_document id] at hBack
    rw [hOk, hBack]

end NodeDocument

------------------------------------------------------------
-- Documents
------------------------------------------------------------

namespace Document

variable {d : Document}
variable {t : Flow}

/- Nodes that are loaded are stored in normal form. -/
theorem entries_of_nodes
    {l : List (String × NodeDocument)}
    {nodes : List (String × Node)}
    (h : List.Forall₂
      (fun e m => (do return (e.1, ← e.2.node e.1) :
        Except LoadError (String × Node)) = .ok m) l nodes) :
    (nodes.map fun e => (e.1, e.2.document e.1)) =
      l.map fun e => (e.1, e.2.normal e.1) := by
  induction h with
  | nil => rfl
  | cons hHead _ ih =>
      rcases bind_eq_ok_iff.mp hHead with ⟨m, hNode, hPure⟩
      cases hPure
      rw [List.map_cons, List.map_cons, ih,
        NodeDocument.node_eq_ok_iff.mp hNode]

/- What is stored of an assembled flow is the normal form. -/
theorem document_of_assemble
    (h : d.assemble = .ok t) :
    t.document =
      { d.normal with version := currentVersion } := by
  unfold assemble at h
  rcases bind_eq_ok_iff.mp h with ⟨nodes, hNodes, hFlow⟩
  cases hFlow
  have hEntries :=
    entries_of_nodes (mapM_eq_ok_iff.mp hNodes)
  have hStored : (NameMap.ofList nodes).map Node.document =
      d.nodes.map NodeDocument.normal :=
    NameMap.map_ofList hEntries
  unfold Flow.document
  rw [hStored]
  rfl

/- A document whose normal form is stored has no faults. -/
theorem readable_of_normal
    (h : d.normal = t.document) : d.Readable := by
  have hNodes : d.nodes.map NodeDocument.normal =
      t.nodes.map Node.document := congrArg Document.nodes h
  refine ⟨congrArg Document.version h, fun id n hFound => ?_⟩
  have hLookup :
      (d.nodes.get? id).map (NodeDocument.normal id) =
        (t.nodes.get? id).map (Node.document id) := by
    rw [← NameMap.get?_map, hNodes, NameMap.get?_map]
  rw [hFound, Option.map_some] at hLookup
  rcases Option.map_eq_some_iff.mp hLookup.symm with
    ⟨m, -, hDocument⟩
  apply NodeDocument.readable_of_normal
  rw [← hDocument]
  exact NodeDocument.readable_document m

/- A document without faults describes a flow. -/
theorem Readable.exists_assemble
    (h : d.Readable) :
    ∃ t, d.assemble = .ok t ∧ t.document = d.normal := by
  have hFails := d.failsFirst_assemble
  rw [nodeFaults_eq_nil_iff.mpr h.nodes] at hFails
  rcases hFails.exists_ok with ⟨t, hOk⟩
  refine ⟨t, hOk, (document_of_assemble hOk).trans ?_⟩
  rw [← h.version]
  rfl

/- A flow is determined by what is stored of it. -/
theorem eq_of_document_eq
    {t t' : Flow}
    (h : t.document = t'.document) : t = t' := by
  have hBack := t.assemble_document
  rw [h, t'.assemble_document] at hBack
  cases hBack
  rfl

/- Loading is reading, assembling and checking. -/
theorem flow_eq_ok :
    d.flow = .ok t ↔
      d.version = currentVersion ∧ d.assemble = .ok t ∧
        t.Clean := by
  unfold flow
  by_cases hVersion : d.version = currentVersion
  · rw [if_neg (not_not.mpr hVersion), bind_eq_ok_iff]
    simp only [hVersion, true_and]
    constructor
    · rintro ⟨t', hOk, hChecked⟩
      split at hChecked
      · cases hChecked
      · rename_i hNoError
        cases hChecked
        exact ⟨hOk, (Flow.clean_iff_any_isError t).mpr
          (Bool.eq_false_iff.mpr hNoError)⟩
    · rintro ⟨hOk, hClean⟩
      refine ⟨t, hOk, ?_⟩
      rw [(Flow.clean_iff_any_isError t).mp hClean]
      rfl
  · rw [if_pos hVersion]
    simp [hVersion]

/- A document is loaded exactly as a flow without errors. -/
theorem flow_eq_ok_iff :
    d.flow = .ok t ↔ d.normal = t.document ∧ t.Clean := by
  rw [flow_eq_ok]
  constructor
  · rintro ⟨hVersion, hOk, hClean⟩
    refine ⟨((document_of_assemble hOk).trans ?_).symm, hClean⟩
    rw [← hVersion]
    rfl
  · rintro ⟨hNormal, hClean⟩
    have hReadable := readable_of_normal hNormal
    rcases hReadable.exists_assemble with
      ⟨t', hOk, hDocument⟩
    have hSame := eq_of_document_eq (hDocument.trans hNormal)
    exact ⟨hReadable.version, hSame ▸ hOk, hClean⟩

/- A document with faults is rejected for the first. -/
theorem flow_of_faults
    {e : LoadError}
    {rest : List LoadError}
    (h : d.faults = e :: rest) : d.flow = .error e := by
  unfold faults at h
  unfold flow
  by_cases hVersion : d.version = currentVersion
  · rw [if_pos hVersion, List.nil_append] at h
    rw [if_neg (not_not.mpr hVersion),
      (d.failsFirst_assemble e).mpr (by rw [h]; rfl)]
    rfl
  · rw [if_neg hVersion] at h
    cases h
    rw [if_pos hVersion]

/- A flow with errors is rejected for its findings. -/
theorem flow_of_not_clean
    (hVersion : d.version = currentVersion)
    (hOk : d.assemble = .ok t)
    (hErrors : ¬ t.Clean) :
    d.flow = .error (.malformed t.findings) := by
  have hAny : t.findings.any Finding.isError = true :=
    Bool.of_not_eq_false fun hNone =>
      hErrors ((Flow.clean_iff_any_isError t).mpr hNone)
  unfold flow
  rw [if_neg (not_not.mpr hVersion), hOk]
  show (if t.findings.any Finding.isError then
    Except.error (LoadError.malformed t.findings)
    else pure t) = _
  rw [hAny, if_pos rfl]

/-
  A document is loaded exactly if it has no faults and the
  flow that it describes has no errors.  The first fault is
  the answer, and without faults the findings are.  What is
  stored of a loaded flow is the normal form of its document,
  and is loaded as the same flow.
-/
theorem load_outcome
    (d : Document) :
    ((∃ t, d.flow = .ok t) ↔
      d.Readable ∧ ∃ t, d.assemble = .ok t ∧ t.Clean) ∧
    (d.Readable ↔ d.faults = []) ∧
    (∀ e rest, d.faults = e :: rest → d.flow = .error e) ∧
    (d.Readable →
      ∃ t, d.assemble = .ok t ∧ t.document = d.normal ∧
        (¬ t.Clean →
          d.flow = .error (.malformed t.findings))) ∧
    ∀ t, d.flow = .ok t →
      t.document = d.normal ∧ t.document.flow = .ok t := by
  refine ⟨⟨?_, ?_⟩, faults_eq_nil_iff.symm,
    fun e rest => flow_of_faults, ?_, ?_⟩
  · rintro ⟨t, hLoaded⟩
    have hReadable :=
      readable_of_normal (flow_eq_ok_iff.mp hLoaded).1
    exact ⟨hReadable, t, (flow_eq_ok.mp hLoaded).2⟩
  · rintro ⟨hReadable, t, hOk, hClean⟩
    exact ⟨t, flow_eq_ok.mpr
      ⟨hReadable.version, hOk, hClean⟩⟩
  · intro hReadable
    rcases hReadable.exists_assemble with
      ⟨t, hOk, hDocument⟩
    exact ⟨t, hOk, hDocument,
      flow_of_not_clean hReadable.version hOk⟩
  · intro t hLoaded
    have hStored := flow_eq_ok_iff.mp hLoaded
    exact ⟨hStored.1.symm, Flow.flow_document hStored.2⟩

end Document

end CallFlow
