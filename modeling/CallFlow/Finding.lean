/-
  This file defines findings: what a check has to say about
  a flow.

  Main declarations:
    * `Severity`
    * `Code`
    * `Code.severity`
    * `Code.blocksCompile`
    * `Finding`
    * `Finding.display`
    * `Finding.summary`
-/

namespace CallFlow

------------------------------------------------------------
-- Codes
------------------------------------------------------------

/- How serious a finding is. -/
inductive Severity where
  | warning
  | error
deriving DecidableEq, Repr

/- The name of a severity. -/
def Severity.name : Severity → String
  | warning => "warning"
  | error => "error"

/- What a finding is about. -/
inductive Code where
  | rootMissing
  | rootHasParent
  | multipleRoots
  | danglingParent
  | danglingChild
  | backReference
  | cycle
  | unreachable
  | duplicateKey
  | duplicateFallback
  | rootKey
  | unknownParameter
  | parameterKind
  | parameterRange
  | unsafeText
  | missingParameter
  | leafWithChildren
  | unresolvedAudio
deriving DecidableEq, Repr

namespace Code

/- Every code. -/
def all : List Code :=
  [rootMissing, rootHasParent, multipleRoots,
    danglingParent, danglingChild, backReference, cycle,
    unreachable, duplicateKey, duplicateFallback, rootKey,
    unknownParameter, parameterKind, parameterRange,
    unsafeText, missingParameter, leafWithChildren,
    unresolvedAudio]

/- The stable name of a code. -/
def name : Code → String
  | rootMissing => "root-missing"
  | rootHasParent => "root-has-parent"
  | multipleRoots => "multiple-roots"
  | danglingParent => "dangling-parent"
  | danglingChild => "dangling-child"
  | backReference => "back-reference"
  | cycle => "cycle"
  | unreachable => "unreachable"
  | duplicateKey => "duplicate-dtmf-key"
  | duplicateFallback => "duplicate-fallback"
  | rootKey => "root-dtmf-key"
  | unknownParameter => "unknown-parameter"
  | parameterKind => "parameter-kind"
  | parameterRange => "parameter-range"
  | unsafeText => "unsafe-text"
  | missingParameter => "missing-parameter"
  | leafWithChildren => "leaf-with-children"
  | unresolvedAudio => "unresolved-asset"

/- The code with a name. -/
def ofName?
    (s : String) : Option Code :=
  all.find? fun c => c.name == s

/- How serious findings with a code are. -/
def severity : Code → Severity
  | missingParameter => .warning
  | leafWithChildren => .warning
  | unresolvedAudio => .warning
  | _ => .error

/-
  Whether a flow with such a finding cannot be compiled.  An
  incomplete flow can still be edited, but not compiled.
-/
def blocksCompile
    (c : Code) : Bool :=
  c.severity == .error || c == missingParameter ||
    c == unresolvedAudio

end Code

------------------------------------------------------------
-- Findings
------------------------------------------------------------

/- A finding, with the nodes it is about. -/
structure Finding where
  code : Code
  nodes : List String
  message : String
deriving DecidableEq

namespace Finding

/- How serious a finding is. -/
def severity
    (f : Finding) : Severity :=
  f.code.severity

/- Whether a finding is an error. -/
def isError
    (f : Finding) : Bool :=
  f.severity == .error

/- Whether a flow with a finding cannot be compiled. -/
def blocksCompile
    (f : Finding) : Bool :=
  f.code.blocksCompile

/- A finding on one line. -/
def display
    (f : Finding) : String :=
  "[" ++ f.severity.name ++ "] " ++ f.code.name ++
    (if f.nodes.isEmpty then ""
    else " (" ++ ", ".intercalate f.nodes ++ ")") ++
    ": " ++ f.message

/- Some findings in short: the first, and how many more. -/
def summary : List Finding → String
  | [] => "no findings"
  | [f] => f.display
  | f :: rest =>
      f.display ++ " (and " ++ toString rest.length ++ " more)"

end Finding

end CallFlow
