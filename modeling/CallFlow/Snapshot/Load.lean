import CallFlow.Flow.Check
import CallFlow.Snapshot.Document

/-
  This file defines how flows are stored and loaded.

  Loading checks the document node by node, in the order of
  their ids, and then the flow as a whole.  The first fault
  is the answer.  Warnings do not stop a flow from being
  loaded.

  Main declarations:
    * `LoadError`
    * `Flow.document`
    * `Flow.save`
    * `Document.flow`
    * `Flow.load`
-/

namespace CallFlow

------------------------------------------------------------
-- Faults of documents
------------------------------------------------------------

/- Why a document is not loaded. -/
inductive LoadError where
  | unreadable
  | unsupportedVersion (version : UInt32)
  | idMismatch (key id : String)
  | unknownKind (node kind : String)
  | badKey (node key : String)
  | unsupportedValue (node name : String) (value : Datum)
  | malformed (findings : List Finding)

namespace LoadError

/- What every complaint about the form begins with. -/
def formComplaint : String :=
  "Failed to parse snapshot JSON: "

/- What is said of a text that is no document. -/
def unreadableReason : String :=
  "not a snapshot document"

/- What is said of a document that is not loaded. -/
def message : LoadError → String
  | unreadable => formComplaint ++ unreadableReason
  | unsupportedVersion v =>
      "Snapshot format version " ++ toString v.toNat ++
        " is not supported"
  | idMismatch key id =>
      formComplaint ++ "node stored under '" ++ key ++
        "' declares id '" ++ id ++ "'"
  | unknownKind node kind =>
      "Snapshot node '" ++ node ++ "' has an unknown type '" ++
        kind ++ "'"
  | badKey node key =>
      formComplaint ++ "node '" ++ node ++ "': " ++
        Key.rejection key
  | unsupportedValue node name value =>
      formComplaint ++ "node '" ++ node ++ "': parameter '" ++
        name ++ "' holds an unsupported value " ++
        value.json.compact
  | malformed findings =>
      "Snapshot violates flow invariants: " ++
        Finding.summary findings

/- The findings that a document is rejected for. -/
def findings : LoadError → List Finding
  | malformed fs => fs
  | _ => []

end LoadError

------------------------------------------------------------
-- Storing
------------------------------------------------------------

/- The datum of a value. -/
def Value.datum : Value → Datum
  | flag b => .bool b
  | integer n => .integer n.toInt
  | text s => .text s

/- The stored form of a node. -/
def Node.document
    (id : String)
    (n : Node) : NodeDocument where
  id := id
  kind := n.kind.name
  label := n.label
  parentId := n.parent
  children := n.children
  parameters := n.settings.map fun _ v => v.datum
  key := n.key.map Key.text

/- The version of documents that is written and read. -/
def Document.currentVersion : UInt32 :=
  1

/- The stored form of a flow. -/
def Flow.document
    (t : Flow) : Document where
  version := Document.currentVersion
  name := t.name
  rootId := t.rootId
  nextId := t.nextId
  revision := t.version
  nodes := t.nodes.map Node.document

/- The text that a flow is stored as. -/
def Flow.save
    (t : Flow) : String :=
  t.document.toJson.pretty

------------------------------------------------------------
-- Loading
------------------------------------------------------------

/- The value that a datum stands for. -/
def Value.ofDatum? : Datum → Option Value
  | .bool b => some (.flag b)
  | .integer n =>
      if Int64.minValue.toInt ≤ n ∧
          n ≤ Int64.maxValue.toInt then
        some (.integer (Int64.ofInt n))
      else none
  | .text s => some (.text s)
  | _ => none

/- The key of a stored node; an empty text is none. -/
def NodeDocument.loadKey
    (id : String)
    (n : NodeDocument) : Except LoadError (Option Key) :=
  match n.key with
  | none => .ok none
  | some s =>
      if s = "" then .ok none
      else
        match Key.ofText? s with
        | some k => .ok (some k)
        | none => .error (.badKey id s)

/- One setting of a stored node; null stands for none. -/
def NodeDocument.loadSetting
    (id : String)
    (entry : String × Datum) :
    Except LoadError (Option (String × Value)) :=
  match entry.2 with
  | .null => .ok none
  | d =>
      match Value.ofDatum? d with
      | some v => .ok (some (entry.1, v))
      | none => .error (.unsupportedValue id entry.1 d)

/- The node that a stored node stands for. -/
def NodeDocument.node
    (id : String)
    (n : NodeDocument) : Except LoadError Node := do
  if n.id ≠ "" ∧ n.id ≠ id then
    .error (.idMismatch id n.id)
  else
    match StepKind.ofName? n.kind with
    | none => .error (.unknownKind id n.kind)
    | some kind => do
        let key ← n.loadKey id
        let settings ←
          n.parameters.entries.mapM
            (NodeDocument.loadSetting id)
        return {
          kind := kind
          label := n.label
          settings :=
            NameMap.ofList (settings.filterMap fun e => e)
          key := key
          parent := n.parentId
          children := n.children }

/- The flow that a document describes, not yet checked. -/
def Document.assemble
    (d : Document) : Except LoadError Flow := do
  let nodes ← d.nodes.entries.mapM fun e => do
    return (e.1, ← e.2.node e.1)
  return {
    name := d.name
    rootId := d.rootId
    nodes := NameMap.ofList nodes
    nextId := d.nextId
    version := d.revision }

/- The flow that a document stands for. -/
def Document.flow
    (d : Document) : Except LoadError Flow := do
  if d.version ≠ Document.currentVersion then
    .error (.unsupportedVersion d.version)
  else
    let t ← d.assemble
    let found := t.findings
    if found.any Finding.isError then
      .error (.malformed found)
    else return t

/- The flow that a text stores. -/
def Flow.load
    (s : String) : Except LoadError Flow :=
  match Document.read? s with
  | some d => d.flow
  | none => .error .unreadable

end CallFlow
