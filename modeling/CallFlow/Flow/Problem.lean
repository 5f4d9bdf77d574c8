import CallFlow.Audio.Library
import CallFlow.Catalog.Check
import CallFlow.Finding
import CallFlow.Key

/-
  This file defines what can be wrong with a flow, and what
  is said of it.

  Main declarations:
    * `Problem`
    * `Problem.finding`
-/

namespace CallFlow

------------------------------------------------------------
-- Problems
------------------------------------------------------------

/- Something that is wrong with a flow. -/
inductive Problem where
  | rootMissing (root : String)
  | rootHasParent (root parent : String)
  | multipleRoots (ids : List String)
  | danglingParent (node parent : String)
  | notListed (parent child : String)
  | danglingChild (node child : String)
  | foreignChild (node child : String)
  | repeatedChild (node child : String) (count : Nat)
  | cycle (members : List String)
  | unreachable (node : String)
  | rootKey (root : String) (key : Key)
  | duplicateKey
      (parent : String)
      (key : Key)
      (children : List String)
  | duplicateFallback
      (parent : String)
      (children : List String)
  | param (node : String) (e : ParamError)
  | missingParam
      (node : String)
      (kind : StepKind)
      (label name : String)
  | leafWithChildren
      (node : String)
      (kind : StepKind)
      (count : Nat)
  | unresolvedAudio
      (node : String)
      (kind : StepKind)
      (label : String)
      (e : AudioError)
deriving DecidableEq

/- The code of a write that a check rejects. -/
def ParamError.code : ParamError → Code
  | unknown _ _ => .unknownParameter
  | wrongSort _ _ _ => .parameterKind
  | outOfRange _ _ _ _ => .parameterRange
  | unsafeText _ _ => .unsafeText

namespace Problem

/- The code of a problem. -/
def code : Problem → Code
  | rootMissing _ => .rootMissing
  | rootHasParent _ _ => .rootHasParent
  | multipleRoots _ => .multipleRoots
  | danglingParent _ _ => .danglingParent
  | notListed _ _ => .backReference
  | danglingChild _ _ => .danglingChild
  | foreignChild _ _ => .backReference
  | repeatedChild _ _ _ => .backReference
  | cycle _ => .cycle
  | unreachable _ => .unreachable
  | rootKey _ _ => .rootKey
  | duplicateKey _ _ _ => .duplicateKey
  | duplicateFallback _ _ => .duplicateFallback
  | param _ e => e.code
  | missingParam _ _ _ _ => .missingParameter
  | leafWithChildren _ _ _ => .leafWithChildren
  | unresolvedAudio _ _ _ _ => .unresolvedAudio

/- The nodes that a problem is about. -/
def nodes : Problem → List String
  | rootMissing root => [root]
  | rootHasParent root _ => [root]
  | multipleRoots ids => ids
  | danglingParent node _ => [node]
  | notListed parent child => [parent, child]
  | danglingChild node _ => [node]
  | foreignChild node child => [node, child]
  | repeatedChild node child _ => [node, child]
  | cycle members => members
  | unreachable node => [node]
  | rootKey root _ => [root]
  | duplicateKey _ _ children => children
  | duplicateFallback _ children => children
  | param node _ => [node]
  | missingParam node _ _ _ => [node]
  | leafWithChildren node _ _ => [node]
  | unresolvedAudio node _ _ _ => [node]

/- What is said of a problem. -/
def message : Problem → String
  | rootMissing root =>
      "designated root '" ++ root ++
        "' is not part of the flow"
  | rootHasParent _ parent =>
      "root node claims '" ++ parent ++ "' as its parent"
  | multipleRoots _ =>
      "nodes without a parent other than the designated root"
  | danglingParent _ parent =>
      "parent '" ++ parent ++ "' does not exist"
  | notListed parent child =>
      "'" ++ parent ++ "' does not list '" ++ child ++
        "' as a child"
  | danglingChild _ child =>
      "child '" ++ child ++ "' does not exist"
  | foreignChild node child =>
      "'" ++ node ++ "' lists '" ++ child ++
        "' as a child of another parent"
  | repeatedChild _ child count =>
      "child '" ++ child ++ "' is listed " ++
        toString count ++ " times"
  | cycle _ => "node is its own ancestor"
  | unreachable _ => "node cannot be reached from the root"
  | rootKey _ key =>
      "root node carries key '" ++ key.text ++ "'"
  | duplicateKey parent key _ =>
      "key '" ++ key.text ++
        "' selects more than one child of '" ++ parent ++ "'"
  | duplicateFallback parent _ =>
      "'" ++ parent ++
        "' has more than one keyless fallback child"
  | param _ e => e.message
  | missingParam _ kind label name =>
      kind.name ++ " '" ++ label ++
        "' is missing required parameter '" ++ name ++ "'"
  | leafWithChildren _ kind count =>
      kind.name ++ " ends the call, so its " ++
        toString count ++ " child node(s) are never reached"
  | unresolvedAudio _ kind label e =>
      kind.name ++ " '" ++ label ++ "': " ++ e.message

/- The finding that reports a problem. -/
def finding
    (p : Problem) : Finding :=
  ⟨p.code, p.nodes, p.message⟩

end Problem

end CallFlow
