import CallFlow.Catalog.Kind
import CallFlow.Finding
import CallFlow.Json.Record
import CallFlow.Key

/-
  This file defines the options of the compiler, and why a
  flow may fail to compile.

  Main declarations:
    * `CompileError`
    * `Options`
    * `Options.check`
    * `Options.ofJson?`
-/

namespace CallFlow

------------------------------------------------------------
-- Failures
------------------------------------------------------------

/- Why a flow is not compiled. -/
inductive CompileError where
  | notCompilable (findings : List Finding)
  | unresolvedAudio (findings : List Finding)
  | unknownType (node : String) (kind : StepKind)
  | missingParam (node name : String)
  | invalidOption (name value : String)
deriving DecidableEq

namespace CompileError

/- What is said of a flow that is not compiled. -/
def message : CompileError → String
  | notCompilable findings =>
      "Flow is not compilable: " ++ Finding.summary findings
  | unresolvedAudio findings =>
      "Flow references audio that cannot be resolved: " ++
        Finding.summary findings
  | unknownType node kind =>
      "Node '" ++ node ++ "' has an unregistered type '" ++
        kind.name ++ "'"
  | missingParam node name =>
      "Node '" ++ node ++ "' lacks parameter '" ++ name ++
        "' needed to emit it"
  | invalidOption name value =>
      "Compiler option '" ++ name ++
        "' cannot be used in a dialplan: '" ++ value ++ "'"

/- The findings that a flow is not compiled for. -/
def findings : CompileError → List Finding
  | notCompilable fs => fs
  | unresolvedAudio fs => fs
  | _ => []

end CompileError

------------------------------------------------------------
-- Options
------------------------------------------------------------

/- The options of the compiler. -/
structure Options where
  contextStem : String
  entryExtension : String
  answerWait : Option UInt32
  digitTimeout : UInt32
  returnKey : Key
deriving DecidableEq

namespace Options

/- The options of a compiler that was given none. -/
def standard : Options where
  contextStem := "ivr"
  entryExtension := "s"
  answerWait := some 1
  digitTimeout := 10
  returnKey := .zero

/- Whether a character can be part of a block name. -/
def isNameChar
    (c : Char) : Bool :=
  c.isAlphanum || c == '_' || c == '-' || c == '+' || c == '.'

/- Whether a text can begin the name of a block. -/
def isName
    (s : String) : Bool :=
  !s.isEmpty && s.toList.all isNameChar

/- Check the options that become names in the dialplan. -/
def check
    (o : Options) : Except CompileError Unit :=
  if !isName o.contextStem then
    .error (.invalidOption "contextPrefix" o.contextStem)
  else if !isName o.entryExtension then
    .error
      (.invalidOption "entryExtension" o.entryExtension)
  else .ok ()

------------------------------------------------------------
-- Options as data
------------------------------------------------------------

/- The fields of the options. -/
def fields : List (List String) :=
  [["contextPrefix"], ["entryExtension"], ["answerWait"],
    ["digitTimeout"], ["returnDigit"]]

/- The data of the options. -/
def toJson
    (o : Options) : Json :=
  .object
    [("contextPrefix", .string o.contextStem),
     ("entryExtension", .string o.entryExtension),
     ("answerWait",
       .ofNat? (o.answerWait.map UInt32.toNat)),
     ("digitTimeout", .ofNat o.digitTimeout.toNat),
     ("returnDigit", .string o.returnKey.text)]

/- Read options; absent ones are the standard ones. -/
def ofJson?
    (j : Json) : Option Options := do
  match ← j.fields? fields with
  | [contextStem, entryExtension, answerWait,
      digitTimeout, returnKey] =>
      return {
        contextStem :=
          ← Json.orElse? standard.contextStem Json.text?
            contextStem
        entryExtension :=
          ← Json.orElse? standard.entryExtension Json.text?
            entryExtension
        answerWait :=
          ← Json.orElse? standard.answerWait
            (Json.nullable? Json.word32?) answerWait
        digitTimeout :=
          ← Json.orElse? standard.digitTimeout Json.word32?
            digitTimeout
        returnKey :=
          ← Json.orElse? standard.returnKey
            (fun j => j.text?.bind Key.ofText?) returnKey }
  | _ => none

end Options

end CallFlow
