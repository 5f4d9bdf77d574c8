import CallFlow.Proofs.Flow.Runs
import CallFlow.Proofs.Snapshot.Documents
import CallFlow.Snapshot.Load

/-
  A flow is loaded as it was stored.

  Nothing is lost on the way to the document and on the way
  to its text.  What is left to see is that the check does
  not stand in the way, which holds for whatever a program
  can get to.

  Main declarations:
    * `Flow.storable_document`
    * `Flow.assemble_document`
    * `Flow.flow_document`
    * `Flow.load_save`
    * `Flow.stored_flow_loads`
-/

namespace CallFlow

------------------------------------------------------------
-- Values
------------------------------------------------------------

/- A value is read back from its datum. -/
theorem Value.ofDatum?_datum
    (v : Value) : Value.ofDatum? v.datum = some v := by
  cases v with
  | flag b => rfl
  | integer n =>
      have hLow := Int64.minValue_le_toInt n
      have hHigh := n.toInt_le
      unfold Value.datum Value.ofDatum?
      simp only [hLow, hHigh, and_self, if_true,
        Int64.ofInt_toInt]
  | text s => rfl

/- A value is never stored as null. -/
theorem Value.datum_ne_null
    (v : Value) : v.datum ≠ .null := by
  cases v <;> simp [Value.datum]

/- A value survives being a setting of a stored node. -/
theorem Value.storable_datum
    (v : Value) : v.datum.Storable := by
  cases v with
  | flag b => exact ⟨.bool b, rfl⟩
  | integer n =>
      have hLow := n.le_toInt
      have hHigh := n.toInt_lt
      have hWord : Numeral.isWord n.toInt = true := by
        unfold Numeral.isWord
        simp
        omega
      refine ⟨.number (Json.writable_ofInt n.toInt), ?_⟩
      unfold Value.datum Datum.json Json.ofInt Json.datum?
      unfold Numeral.datum?
      rw [Numeral.integer?_ofInt]
      simp [hWord]
  | text s => exact ⟨.string s, rfl⟩

------------------------------------------------------------
-- Nodes
------------------------------------------------------------

/- A key is read back from a stored node. -/
theorem Node.loadKey_document
    (id : String)
    (n : Node) :
    (n.document id).loadKey id = .ok n.key := by
  unfold NodeDocument.loadKey Node.document
  cases n.key with
  | none => rfl
  | some k =>
      have hNe : k.text ≠ "" := by
        intro hEmpty
        have hRead := Key.ofText?_text k
        rw [hEmpty] at hRead
        cases hRead
      simp [hNe, Key.ofText?_text]

/- Settings are read back from a stored node. -/
theorem Node.loadSetting_document
    (id name : String)
    (v : Value) :
    NodeDocument.loadSetting id (name, v.datum) =
      .ok (some (name, v)) := by
  have hNotNull := v.datum_ne_null
  unfold NodeDocument.loadSetting
  split
  · rename_i hNull
    exact absurd hNull hNotNull
  · rw [Value.ofDatum?_datum]

/- A node is read back from its stored form. -/
theorem Node.node_document
    (id : String)
    (n : Node) : (n.document id).node id = .ok n := by
  have hSettings :
      (n.document id).parameters.entries.mapM
          (NodeDocument.loadSetting id) =
        .ok (n.settings.entries.map some) := by
    unfold Node.document NameMap.map
    rw [List.mapM_map]
    refine mapM_eq_pure ?_
    intro e he
    exact Node.loadSetting_document id e.1 e.2
  have hKept :
      (n.settings.entries.map some).filterMap (fun e => e) =
        n.settings.entries := by
    rw [List.filterMap_map]
    exact List.filterMap_some
  unfold NodeDocument.node
  rw [if_neg (by simp [Node.document])]
  rw [Node.loadKey_document, hSettings]
  simp [Node.document, StepKind.ofName?_name, hKept,
    NameMap.ofList_entries]
  rfl

------------------------------------------------------------
-- Flows
------------------------------------------------------------

namespace Flow

variable {t : Flow}

/- The document of a flow survives being written. -/
theorem storable_document
    (t : Flow) : t.document.Storable := by
  intro id n hNode name d hSetting
  unfold Flow.document at hNode
  rw [NameMap.get?_map] at hNode
  rcases Option.map_eq_some_iff.mp hNode with
    ⟨m, -, hDocument⟩
  rw [← hDocument] at hSetting
  unfold Node.document at hSetting
  rw [NameMap.get?_map] at hSetting
  rcases Option.map_eq_some_iff.mp hSetting with
    ⟨v, -, hDatum⟩
  rw [← hDatum]
  exact v.storable_datum

/- The document of a flow describes that flow. -/
theorem assemble_document
    (t : Flow) : t.document.assemble = .ok t := by
  have hNodes :
      (t.document.nodes.entries.mapM fun e => do
          return (e.1, ← e.2.node e.1)) =
        (.ok t.nodes.entries : Except LoadError _) := by
    unfold Flow.document NameMap.map
    rw [List.mapM_map]
    have hEntries : ∀ e ∈ t.nodes.entries,
        (do return (e.1, ← (e.2.document e.1).node e.1) :
          Except LoadError (String × Node)) = pure (id e) := by
      intro e he
      rw [Node.node_document]
      rfl
    refine (mapM_eq_pure hEntries).trans ?_
    rw [List.map_id]
    rfl
  unfold Document.assemble
  rw [hNodes]
  have hAll : NameMap.ofList t.nodes.entries = t.nodes :=
    NameMap.ofList_entries t.nodes
  simp [Flow.document, hAll]

/- A flow without errors is loaded from its document. -/
theorem flow_document
    (h : t.Clean) : t.document.flow = .ok t := by
  unfold Document.flow
  rw [if_neg (by simp [Flow.document]), assemble_document]
  have hNoError := (clean_iff_any_isError t).mp h
  show (if t.findings.any Finding.isError then
    Except.error (LoadError.malformed t.findings)
    else pure t) = .ok t
  rw [hNoError]
  rfl

/- A flow without errors is loaded from its text. -/
theorem load_save
    (h : t.Clean) : Flow.load t.save = .ok t := by
  unfold Flow.load Flow.save
  rw [Document.read?_pretty (storable_document t)]
  exact flow_document h

/-
  Whatever a program gets to is loaded as it was stored, from
  its document and from its text.
-/
theorem stored_flow_loads
    (h : t.Reachable) :
    t.document.flow = .ok t ∧ Flow.load t.save = .ok t :=
  ⟨flow_document h.sound.clean, load_save h.sound.clean⟩

/- A flow with quotes, line ends and accents in its texts. -/
theorem stored_flow_loads_with_accents :
    let calls : List Call :=
      [.update firstRootId
          { Patch.empty with label := some "\"Grüezi\"\n" },
        .add firstRootId .collect "Zürich \\ Genève"
          (some .pound)]
    let t := (Flow.new "Hôtel ☎").run calls
    t.Reachable ∧ t.size = 2 ∧
      t.document.flow = .ok t ∧ Flow.load t.save = .ok t :=
  have hReachable :=
    ⟨Flow.new "Hôtel ☎", _, Or.inl ⟨_, rfl⟩, rfl⟩
  ⟨hReachable, by decide +kernel,
    stored_flow_loads hReachable⟩

end Flow

end CallFlow
