import CallFlow.Proofs.Json.Grammar
import CallFlow.Proofs.Json.Maps
import CallFlow.Proofs.Json.Records
import CallFlow.Proofs.Snapshot.NormalForm
import Mathlib.Logic.Relation

/-
  Texts that are loaded alike.

  A flow can be stored in many texts.  White space and the
  order of members do not matter, nor do older names, members
  that nobody knows, null settings, and whether defaults are
  written down.  All of these are gone in the normal form of
  the document, which decides what is loaded.

  Main declarations:
    * `SettingsRewording`
    * `NodeRewording`
    * `DocumentRewording`
    * `DocumentRewording.map_normal`
    * `Flow.load_eq_ok_iff_of_rewordings`
-/

namespace CallFlow

------------------------------------------------------------
-- Settings
------------------------------------------------------------

/-
  Other words for the settings of a stored node.  They change
  their places, if no name is repeated, or one that is null is
  added under a new name.
-/
inductive SettingsRewording : Json → Json → Prop where
  | reorder
      {ms ms' : List (String × Json)}
      (hNodup : (ms.map (·.1)).Nodup)
      (hPerm : ms.Perm ms') :
      SettingsRewording (.object ms) (.object ms')
  | null
      {l₁ l₂ : List (String × Json)}
      {name : String}
      (hNew : name ∉ (l₁ ++ l₂).map (·.1)) :
      SettingsRewording (.object (l₁ ++ l₂))
        (.object (l₁ ++ (name, .null) :: l₂))

/- The settings of a stored node, but for those of null. -/
def settings?
    (field : Option Json) : Option (NameMap Datum) :=
  (Json.orElse? .empty
    (Json.map? (Json.datum? settingLevels)) field).map
      (NameMap.filter fun d => !d.isNull)

/- The settings are the same, but for those of null. -/
theorem SettingsRewording.settings?_eq
    {v v' : Json}
    (h : SettingsRewording v v') :
    settings? (some v) = settings? (some v') := by
  unfold settings?
  rw [Json.orElse?_some, Json.orElse?_some]
  cases h with
  | reorder hNodup hPerm => rw [Json.map?_of_perm hNodup hPerm]
  | null hNew =>
      have hRead :
          Json.datum? settingLevels .null = some .null := rfl
      exact (Json.filter_map?_insert hNew hRead rfl).symm

------------------------------------------------------------
-- Nodes
------------------------------------------------------------

namespace NodeDocument

/- The fields of a stored node that can be left out. -/
def defaults : List (List String × Json) :=
  [(["id"], .string ""), (["label"], .string ""),
    (["parentId"], .null), (["children"], .list []),
    (["parameters", "config"], .object []),
    (["dtmfKey"], .null)]

/- No two fields of a stored node share a name. -/
theorem apart_fields : Json.Apart fields :=
  ⟨by decide, by decide⟩

/- The kind of a stored node, by its name of today. -/
def kind?
    (field : Option Json) : Option String :=
  (Json.given? Json.text? field).map StepKind.canonical

/- The fields of a stored node are read one by one. -/
theorem fields?_eq
    (j : Json) :
    j.fields? fields = do
      let id ← j.field? fields ["id"]
      let kind ← j.field? fields ["type"]
      let label ← j.field? fields ["label"]
      let parentId ← j.field? fields ["parentId"]
      let children ← j.field? fields ["children"]
      let parameters ←
        j.field? fields ["parameters", "config"]
      let key ← j.field? fields ["dtmfKey"]
      return [id, kind, label, parentId, children,
        parameters, key] := by
  rw [Json.fields?_eq_mapM apart_fields (by decide)]
  rfl

/- The normal form of a stored node is read field by field. -/
theorem map_normal_ofJson?
    (id : String)
    (j : Json) :
    (ofJson? j).map (normal id) = do
      let own ← j.fieldAs? fields ["id"]
        (Json.orElse? "" Json.text?)
      let kind ← j.fieldAs? fields ["type"] kind?
      let label ← j.fieldAs? fields ["label"]
        (Json.orElse? "" Json.text?)
      let parentId ← j.fieldAs? fields ["parentId"]
        (Json.orElse? none (Json.nullable? Json.text?))
      let children ← j.fieldAs? fields ["children"]
        (Json.orElse? [] (Json.list? Json.text?))
      let parameters ←
        j.fieldAs? fields ["parameters", "config"] settings?
      let key ← j.fieldAs? fields ["dtmfKey"]
        (Json.orElse? none (Json.nullable? Json.text?))
      return ⟨if own = "" then id else own, kind, label,
        parentId, children, parameters,
        key.filter fun s => s ≠ ""⟩ := by
  unfold ofJson? Json.fieldAs? kind? settings?
  rw [fields?_eq]
  rcases j.field? fields ["id"] with _ | own
  · rfl
  rcases j.field? fields ["type"] with _ | kind
  · simp
  rcases j.field? fields ["label"] with _ | label
  · simp
  rcases j.field? fields ["parentId"] with _ | parentId
  · simp
  rcases j.field? fields ["children"] with _ | children
  · simp
  rcases j.field? fields ["parameters", "config"] with
    _ | parameters
  · simp
  rcases j.field? fields ["dtmfKey"] with _ | key
  · simp
  · simp [normal, Option.map_bind, Option.bind_map,
      Function.comp_def]

variable {j j' v v' : Json}

/- The normal form does not depend on the form of the record. -/
theorem map_normal_of_rewording
    (h : Json.Rewording fields defaults j j')
    (id : String) :
    (ofJson? j).map (normal id) =
      (ofJson? j').map (normal id) := by
  -- What is left out is read as the default that it was.
  have hField {α : Type} (names : List String)
      (r : Option Json → Option α)
      (hNames : names ∈ fields)
      (hDefault : ∀ v, (names, v) ∈ defaults →
        r (some v) = r none) :
      j.fieldAs? fields names r = j'.fieldAs? fields names r :=
    h.fieldAs?_eq apart_fields (by decide) hNames hDefault
  rw [map_normal_ofJson?, map_normal_ofJson?]
  rw [hField ["id"] _ (by decide) (by simp [defaults]; rfl),
    hField ["type"] _ (by decide) (by simp [defaults]),
    hField ["label"] _ (by decide) (by simp [defaults]; rfl),
    hField ["parentId"] _ (by decide) (by simp [defaults]; rfl),
    hField ["children"] _ (by decide) (by simp [defaults]; rfl),
    hField ["parameters", "config"] _ (by decide)
      (by simp [defaults]; rfl),
    hField ["dtmfKey"] _ (by decide) (by simp [defaults]; rfl)]

/- Nor on the words for the kind or for the settings. -/
theorem map_normal_of_replaced
    {own : List String}
    (h : Json.Replaced fields own v v' j j')
    (hSame :
      (own = ["type"] ∧ kind? (some v) = kind? (some v')) ∨
      (own = ["parameters", "config"] ∧
        settings? (some v) = settings? (some v')))
    (id : String) :
    (ofJson? j).map (normal id) =
      (ofJson? j').map (normal id) := by
  have hOwn : own ∈ fields := by
    rcases hSame with ⟨rfl, -⟩ | ⟨rfl, -⟩ <;> decide
  -- Only one field is written otherwise, and read alike.
  have hField {α : Type} (names : List String)
      (r : Option Json → Option α)
      (hNames : names ∈ fields)
      (hRead : names = own → r (some v) = r (some v')) :
      j.fieldAs? fields names r = j'.fieldAs? fields names r :=
    h.fieldAs?_eq apart_fields hOwn hNames hRead
  have hOther {α : Type} (names : List String)
      (r : Option Json → Option α)
      (hNames : names ∈ fields)
      (hKind : names ≠ ["type"])
      (hSettings : names ≠ ["parameters", "config"]) :
      j.fieldAs? fields names r =
        j'.fieldAs? fields names r := by
    refine hField names r hNames fun hIs => ?_
    rcases hSame with ⟨rfl, -⟩ | ⟨rfl, -⟩
    · exact absurd hIs hKind
    · exact absurd hIs hSettings
  have hKind : j.fieldAs? fields ["type"] kind? =
      j'.fieldAs? fields ["type"] kind? := by
    refine hField _ _ (by decide) fun hIs => ?_
    rcases hSame with ⟨-, hRead⟩ | ⟨rfl, -⟩
    · exact hRead
    · simp at hIs
  have hSettings :
      j.fieldAs? fields ["parameters", "config"] settings? =
        j'.fieldAs? fields ["parameters", "config"]
          settings? := by
    refine hField _ _ (by decide) fun hIs => ?_
    rcases hSame with ⟨rfl, -⟩ | ⟨-, hRead⟩
    · simp at hIs
    · exact hRead
  rw [map_normal_ofJson?, map_normal_ofJson?, hKind,
    hSettings, hOther ["id"], hOther ["label"],
    hOther ["parentId"], hOther ["children"],
    hOther ["dtmfKey"]] <;> decide

end NodeDocument

/-
  Other words for a stored node.  The record is written in
  another form, the settings get their other name or are
  reworded themselves, or the kind gets an older name.
-/
inductive NodeRewording
    (j j' : Json) : Prop where
  | record
      (h : Json.Rewording NodeDocument.fields
        NodeDocument.defaults j j')
  | rename
      {v : Json}
      (h : Json.Replaced NodeDocument.fields
        ["parameters", "config"] v v j j')
  | settings
      {v v' : Json}
      (hSettings : SettingsRewording v v')
      (h : Json.Replaced NodeDocument.fields
        ["parameters", "config"] v v' j j')
  | older
      {k : StepKind}
      {s : String}
      (hOlder : s ∈ k.aliases)
      (h : Json.Replaced NodeDocument.fields ["type"]
        (.string k.name) (.string s) j j')

/- A reworded node has the same normal form. -/
theorem NodeRewording.map_normal
    {j j' : Json}
    (h : NodeRewording j j')
    (id : String) :
    (NodeDocument.ofJson? j).map (NodeDocument.normal id) =
      (NodeDocument.ofJson? j').map
        (NodeDocument.normal id) := by
  cases h with
  | record h =>
      exact NodeDocument.map_normal_of_rewording h id
  | rename h =>
      exact NodeDocument.map_normal_of_replaced h
        (Or.inr ⟨rfl, rfl⟩) id
  | settings hSettings h =>
      exact NodeDocument.map_normal_of_replaced h
        (Or.inr ⟨rfl, hSettings.settings?_eq⟩) id
  | @older k s hOlder h =>
      have hKind :
          NodeDocument.kind? (some (.string k.name)) =
            NodeDocument.kind? (some (.string s)) := by
        show some (StepKind.canonical k.name) =
          some (StepKind.canonical s)
        rw [StepKind.canonical_name,
          StepKind.canonical_alias hOlder]
      exact NodeDocument.map_normal_of_replaced h
        (Or.inl ⟨rfl, hKind⟩) id

------------------------------------------------------------
-- Documents
------------------------------------------------------------

/-
  Other words for the nodes of a document.  They change their
  places, if no id is repeated, or one of them is reworded.
-/
inductive NodesRewording : Json → Json → Prop where
  | reorder
      {ms ms' : List (String × Json)}
      (hNodup : (ms.map (·.1)).Nodup)
      (hPerm : ms.Perm ms') :
      NodesRewording (.object ms) (.object ms')
  | node
      {l₁ l₂ : List (String × Json)}
      {id : String}
      {v v' : Json}
      (h : NodeRewording v v') :
      NodesRewording (.object (l₁ ++ (id, v) :: l₂))
        (.object (l₁ ++ (id, v') :: l₂))

namespace Document

/- The fields of a document that can be left out. -/
def defaults : List (List String × Json) :=
  [(["nextId"], .ofNat 1), (["revision"], .ofNat 0)]

/- No two fields of a document share a name. -/
theorem apart_fields : Json.Apart fields :=
  ⟨by decide, by decide⟩

/- The nodes of a document, in normal form. -/
def nodes?
    (field : Option Json) : Option (NameMap NodeDocument) :=
  (Json.given? (Json.map? NodeDocument.ofJson?) field).map
    (NameMap.map NodeDocument.normal)

/- Reworded nodes have the same normal forms. -/
theorem nodes?_of_rewording
    {v v' : Json}
    (h : NodesRewording v v') :
    nodes? (some v) = nodes? (some v') := by
  unfold nodes? Json.given?
  rw [Option.bind_some, Option.bind_some]
  cases h with
  | reorder hNodup hPerm => rw [Json.map?_of_perm hNodup hPerm]
  | node h => exact Json.map_map?_congr (h.map_normal _)

/- The fields of a document are read one by one. -/
theorem fields?_eq
    (j : Json) :
    j.fields? fields = do
      let version ← j.field? fields ["version"]
      let name ← j.field? fields ["name"]
      let rootId ← j.field? fields ["rootId"]
      let nextId ← j.field? fields ["nextId"]
      let revision ← j.field? fields ["revision"]
      let nodes ← j.field? fields ["nodes"]
      return [version, name, rootId, nextId, revision,
        nodes] := by
  rw [Json.fields?_eq_mapM apart_fields (by decide)]
  rfl

/- The normal form of a document is read field by field. -/
theorem map_normal_ofJson?
    (j : Json) :
    (ofJson? j).map normal = do
      let version ← j.fieldAs? fields ["version"]
        (Json.given? Json.word32?)
      let name ← j.fieldAs? fields ["name"]
        (Json.given? Json.text?)
      let rootId ← j.fieldAs? fields ["rootId"]
        (Json.given? Json.text?)
      let nextId ← j.fieldAs? fields ["nextId"]
        (Json.orElse? 1 Json.word64?)
      let revision ← j.fieldAs? fields ["revision"]
        (Json.orElse? 0 Json.word64?)
      let nodes ← j.fieldAs? fields ["nodes"] nodes?
      return ⟨version, name, rootId, nextId, revision,
        nodes⟩ := by
  unfold ofJson? Json.fieldAs? nodes?
  rw [fields?_eq]
  rcases j.field? fields ["version"] with _ | version
  · rfl
  rcases j.field? fields ["name"] with _ | name
  · simp
  rcases j.field? fields ["rootId"] with _ | rootId
  · simp
  rcases j.field? fields ["nextId"] with _ | nextId
  · simp
  rcases j.field? fields ["revision"] with _ | revision
  · simp
  rcases j.field? fields ["nodes"] with _ | nodes
  · simp
  · simp [normal, Option.map_bind, Option.bind_map,
      Function.comp_def]

variable {j j' v v' : Json}

/- The normal form does not depend on the form of the record. -/
theorem map_normal_of_rewording
    (h : Json.Rewording fields defaults j j') :
    (ofJson? j).map normal = (ofJson? j').map normal := by
  have hField {α : Type} (names : List String)
      (r : Option Json → Option α)
      (hNames : names ∈ fields)
      (hDefault : ∀ v, (names, v) ∈ defaults →
        r (some v) = r none) :
      j.fieldAs? fields names r = j'.fieldAs? fields names r :=
    h.fieldAs?_eq apart_fields (by decide) hNames hDefault
  rw [map_normal_ofJson?, map_normal_ofJson?]
  rw [hField ["version"] _ (by decide) (by simp [defaults]),
    hField ["name"] _ (by decide) (by simp [defaults]),
    hField ["rootId"] _ (by decide) (by simp [defaults]),
    hField ["nextId"] _ (by decide) (by simp [defaults]; rfl),
    hField ["revision"] _ (by decide) (by simp [defaults]; rfl),
    hField ["nodes"] _ (by decide) (by simp [defaults])]

/- Nor on the words for the nodes. -/
theorem map_normal_of_replaced
    (h : Json.Replaced fields ["nodes"] v v' j j')
    (hNodes : NodesRewording v v') :
    (ofJson? j).map normal = (ofJson? j').map normal := by
  have hField {α : Type} (names : List String)
      (r : Option Json → Option α)
      (hNames : names ∈ fields)
      (hRead : names = ["nodes"] → r (some v) = r (some v')) :
      j.fieldAs? fields names r = j'.fieldAs? fields names r :=
    h.fieldAs?_eq apart_fields (by decide) hNames hRead
  rw [map_normal_ofJson?, map_normal_ofJson?]
  rw [hField ["version"] _ (by decide) (by simp),
    hField ["name"] _ (by decide) (by simp),
    hField ["rootId"] _ (by decide) (by simp),
    hField ["nextId"] _ (by decide) (by simp),
    hField ["revision"] _ (by decide) (by simp),
    hField ["nodes"] _ (by decide) fun _ =>
      nodes?_of_rewording hNodes]

end Document

/-
  Other words for a document.  The record is written in
  another form, or the nodes are reworded.
-/
inductive DocumentRewording
    (j j' : Json) : Prop where
  | record
      (h : Json.Rewording Document.fields Document.defaults
        j j')
  | nodes
      {v v' : Json}
      (hNodes : NodesRewording v v')
      (h : Json.Replaced Document.fields ["nodes"] v v' j j')

/- A reworded document has the same normal form. -/
theorem DocumentRewording.map_normal
    {j j' : Json}
    (h : DocumentRewording j j') :
    (Document.ofJson? j).map Document.normal =
      (Document.ofJson? j').map Document.normal := by
  cases h with
  | record h => exact Document.map_normal_of_rewording h
  | nodes hNodes h =>
      exact Document.map_normal_of_replaced h hNodes

/- So has whatever it is reworded to, step by step. -/
theorem DocumentRewording.map_normal_of_eqvGen
    {j j' : Json}
    (h : Relation.EqvGen DocumentRewording j j') :
    (Document.ofJson? j).map Document.normal =
      (Document.ofJson? j').map Document.normal := by
  induction h with
  | rel _ _ h => exact h.map_normal
  | refl _ => rfl
  | symm _ _ _ ih => exact ih.symm
  | trans _ _ _ _ _ ih ih' => exact ih.trans ih'

------------------------------------------------------------
-- Texts
------------------------------------------------------------

namespace Flow

variable {j j' : Json}
variable {s s' : String}
variable {t : Flow}

/- A text is loaded exactly as its normal form is stored. -/
theorem load_eq_ok_iff
    (hText : Json.Text j s) :
    Flow.load s = .ok t ↔
      (Document.ofJson? j).map Document.normal =
          some t.document ∧ t.Clean := by
  have hRead : Json.read? s = some j :=
    Json.read?_eq_some_iff.mpr hText
  unfold Flow.load Document.read?
  rw [hRead, Option.bind_some]
  rcases Document.ofJson? j with _ | d
  · simp
  · rw [Option.map_some, Option.some.injEq]
    exact Document.flow_eq_ok_iff

/-
  Any text of a document and any text of the document in other
  words are loaded as the same flow, if one of them is loaded
  at all.
-/
theorem load_eq_ok_iff_of_rewordings
    (hText : Json.Text j s)
    (hText' : Json.Text j' s')
    (hWords : Relation.EqvGen DocumentRewording j j')
    (t : Flow) :
    Flow.load s = .ok t ↔ Flow.load s' = .ok t := by
  rw [load_eq_ok_iff hText, load_eq_ok_iff hText',
    DocumentRewording.map_normal_of_eqvGen hWords]

/- A flow of one step, without a name. -/
def lone : Flow where
  name := ""
  rootId := "r"
  nodes := NameMap.empty.insert "r"
    ⟨.playback, "", .empty, none, none, []⟩
  nextId := 1
  version := 0

/- The data of its step, but for some words. -/
def loneStep
    (kind field : String)
    (settings : List (String × Json)) : Json :=
  .object
    [("id", .string "r"), ("type", .string kind),
      ("label", .string ""), ("parentId", .null),
      ("children", .list []), (field, .object settings),
      ("dtmfKey", .null)]

/- The data of its document with this step. -/
def loneData
    (step : Json) : Json :=
  .object
    [("version", .ofNat 1), ("name", .string ""),
      ("rootId", .string "r"), ("nextId", .ofNat 1),
      ("nodes", .object [("r", step)])]

/- Its data in other words. -/
def loneReworded : Json :=
  loneData (loneStep "PlayAudio" "config" [("prompt", .null)])

/- The step can be reworded within the document. -/
theorem rewording_loneData
    {step step' : Json}
    (h : NodeRewording step step') :
    DocumentRewording (loneData step) (loneData step') :=
  .nodes (@NodesRewording.node [] [] "r" _ _ h)
    (@Json.Replaced.member _ _ _ _
      [("version", .ofNat 1), ("name", .string ""),
        ("rootId", .string "r"), ("nextId", .ofNat 1)]
      [] "nodes" "nodes" (by simp) (by simp))

/- The revision, the kind and the settings are reworded. -/
theorem eqvGen_loneReworded :
    Relation.EqvGen DocumentRewording lone.document.toJson
      loneReworded := by
  have hRevision :
      DocumentRewording lone.document.toJson
        (loneData (loneStep "Playback" "parameters" [])) :=
    .record (@Json.Rewording.leaveOut _ _
      [("version", .ofNat 1), ("name", .string ""),
        ("rootId", .string "r"), ("nextId", .ofNat 1)]
      _ ["revision"] "revision" (.ofNat 0)
      (by simp [Document.defaults]) (by simp) (by simp))
  have hKind :
      NodeRewording (loneStep "Playback" "parameters" [])
        (loneStep "PlayAudio" "parameters" []) :=
    .older (k := .playback) (s := "PlayAudio") (by decide)
      (@Json.Replaced.member _ _ _ _ [("id", .string "r")] _
        "type" "type" (by simp) (by simp))
  have hSettings :
      NodeRewording (loneStep "PlayAudio" "parameters" [])
        (loneStep "PlayAudio" "config"
          [("prompt", .null)]) :=
    .settings (@SettingsRewording.null [] [] "prompt" (by simp))
      (@Json.Replaced.member _ _ _ _
        [("id", .string "r"), ("type", .string "PlayAudio"),
          ("label", .string ""), ("parentId", .null),
          ("children", .list [])]
        _ "parameters" "config" (by simp) (by simp))
  exact .trans _ _ _ (.rel _ _ hRevision)
    (.trans _ _ _ (.rel _ _ (rewording_loneData hKind))
      (.rel _ _ (rewording_loneData hSettings)))

/- The data in other words can be written. -/
theorem writable_loneReworded : loneReworded.Writable := by
  have hSettings :
      (Json.object [("prompt", .null)]).Writable :=
    .object (by simp [Json.Writable.null])
  have hStep :
      (loneStep "PlayAudio" "config"
        [("prompt", .null)]).Writable := by
    refine .object ?_
    simp [Json.Writable.string, Json.Writable.null,
      Json.Writable.list, hSettings]
  have hNodes :
      (Json.object [("r", loneStep "PlayAudio" "config"
        [("prompt", .null)])]).Writable :=
    .object (by simpa using hStep)
  refine .object ?_
  simp [Json.Writable.string, Json.writable_ofNat, hNodes]

/-
  The flow is loaded from one line in other words as it is
  from its own text.
-/
theorem load_eq_ok_iff_of_rewordings_lone :
    Json.Text lone.document.toJson lone.save ∧
      Json.Text loneReworded loneReworded.compact ∧
      Relation.EqvGen DocumentRewording lone.document.toJson
        loneReworded ∧
      Flow.load loneReworded.compact = .ok lone := by
  have hText : Json.Text lone.document.toJson lone.save :=
    Json.text_pretty
      (Document.writable_toJson (storable_document lone))
  have hText' : Json.Text loneReworded loneReworded.compact :=
    Json.text_compact writable_loneReworded
  have hClean : lone.Clean :=
    (clean_iff_any_isError lone).mpr (by decide +kernel)
  exact ⟨hText, hText', eqvGen_loneReworded,
    (load_eq_ok_iff_of_rewordings hText hText'
      eqvGen_loneReworded lone).mp (load_save hClean)⟩

end Flow

end CallFlow
