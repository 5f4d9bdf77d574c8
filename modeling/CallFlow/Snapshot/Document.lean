import CallFlow.Json.Datum
import CallFlow.Json.Printer
import CallFlow.Json.Reader
import CallFlow.Json.Record

/-
  This file defines the documents that flows are stored as,
  and their form as data.

  A document has the shape of a flow, but nothing in it has
  been checked: kinds and keys are plain texts, and settings
  are any data.

  Main declarations:
    * `NodeDocument`
    * `Document`
    * `Document.toJson`
    * `Document.ofJson?`
-/

namespace CallFlow

------------------------------------------------------------
-- Documents
------------------------------------------------------------

/- The stored form of a node. -/
structure NodeDocument where
  id : String
  kind : String
  label : String
  parentId : Option String
  children : List String
  parameters : NameMap Datum
  key : Option String

/- The stored form of a flow. -/
structure Document where
  version : UInt32
  name : String
  rootId : String
  nextId : UInt64
  revision : UInt64
  nodes : NameMap NodeDocument

------------------------------------------------------------
-- Writing
------------------------------------------------------------

/- The data of a stored node. -/
def NodeDocument.toJson
    (n : NodeDocument) : Json :=
  .object
    [("id", .string n.id),
     ("type", .string n.kind),
     ("label", .string n.label),
     ("parentId", .ofText? n.parentId),
     ("children", .ofTexts n.children),
     ("parameters", .ofMap (n.parameters.map fun _ d => d.json)),
     ("dtmfKey", .ofText? n.key)]

/- The data of a document. -/
def Document.toJson
    (d : Document) : Json :=
  .object
    [("version", .ofNat d.version.toNat),
     ("name", .string d.name),
     ("rootId", .string d.rootId),
     ("nextId", .ofNat d.nextId.toNat),
     ("revision", .ofNat d.revision.toNat),
     ("nodes", .ofMap (d.nodes.map fun _ n => n.toJson))]

------------------------------------------------------------
-- Reading
------------------------------------------------------------

/-
  The number of levels that a setting can have.  Data has up
  to 127 levels, and four of them are around a setting.
-/
def settingLevels : Nat :=
  123

/- The fields of a stored node, with their other names. -/
def NodeDocument.fields : List (List String) :=
  [["id"], ["type"], ["label"], ["parentId"], ["children"],
    ["parameters", "config"], ["dtmfKey"]]

/- Read a stored node. -/
def NodeDocument.ofJson?
    (j : Json) : Option NodeDocument := do
  match ← j.fields? NodeDocument.fields with
  | [id, kind, label, parentId, children, parameters, key] =>
      return {
        id := ← Json.orElse? "" Json.text? id
        kind := ← Json.given? Json.text? kind
        label := ← Json.orElse? "" Json.text? label
        parentId :=
          ← Json.orElse? none (Json.nullable? Json.text?)
            parentId
        children :=
          ← Json.orElse? [] (Json.list? Json.text?) children
        parameters :=
          ← Json.orElse? .empty
            (Json.map? (Json.datum? settingLevels))
            parameters
        key :=
          ← Json.orElse? none (Json.nullable? Json.text?)
            key }
  | _ => none

/- The fields of a document. -/
def Document.fields : List (List String) :=
  [["version"], ["name"], ["rootId"], ["nextId"],
    ["revision"], ["nodes"]]

/- Read a document. -/
def Document.ofJson?
    (j : Json) : Option Document := do
  match ← j.fields? Document.fields with
  | [version, name, rootId, nextId, revision, nodes] =>
      return {
        version := ← Json.given? Json.word32? version
        name := ← Json.given? Json.text? name
        rootId := ← Json.given? Json.text? rootId
        nextId := ← Json.orElse? 1 Json.word64? nextId
        revision := ← Json.orElse? 0 Json.word64? revision
        nodes :=
          ← Json.given? (Json.map? NodeDocument.ofJson?)
            nodes }
  | _ => none

/- Read a document from a text. -/
def Document.read?
    (s : String) : Option Document :=
  (Json.read? s).bind Document.ofJson?

end CallFlow
