import CallFlow.NameMap
import CallFlow.Text.Lower

/-
  This file defines how audio names stand for sounds that
  can be played.

  Main declarations:
    * `AudioError`
    * `Resolver`
    * `Resolver.direct`
    * `AudioLibrary`
    * `AudioLibrary.upload`
    * `AudioLibrary.resolver`
-/

namespace CallFlow

------------------------------------------------------------
-- Resolvers
------------------------------------------------------------

/- Why an audio name cannot be played. -/
inductive AudioError where
  | notFound (name : String)
deriving DecidableEq

/- What is said of a name that cannot be played. -/
def AudioError.message : AudioError → String
  | notFound name =>
      "Audio asset '" ++ name ++ "' is not available"

/- A resolver gives the location of the sound of a name. -/
abbrev Resolver : Type :=
  String → Except AudioError String

/- Every name but a blank one is its own location. -/
def Resolver.direct : Resolver :=
  fun name =>
    if Text.isBlank name then .error (.notFound name)
    else .ok name

------------------------------------------------------------
-- Libraries
------------------------------------------------------------

/- Registered names, and the number of uploads so far. -/
structure AudioLibrary where
  sounds : NameMap String
  uploads : UInt64
deriving DecidableEq

namespace AudioLibrary

/- The library without sounds. -/
def empty : AudioLibrary :=
  ⟨.empty, 0⟩

/- The library of some names and their locations. -/
def ofList
    (l : List (String × String)) : AudioLibrary :=
  ⟨.ofList l, 0⟩

/- Register a name, replacing an older location. -/
def insert
    (lib : AudioLibrary)
    (name location : String) : AudioLibrary :=
  { lib with sounds := lib.sounds.insert name location }

/- The name of an upload with a number. -/
def uploadName
    (number : UInt64)
    (fileName : String) : String :=
  "custom-" ++ toString number.toNat ++ "-" ++
    Text.uploadSlug fileName

/- Register an uploaded file under a name made for it. -/
def upload
    (lib : AudioLibrary)
    (fileName location : String) : AudioLibrary × String :=
  let number := lib.uploads + 1
  let name := uploadName number fileName
  (⟨lib.sounds.insert name location, number⟩, name)

/- Drop a name. -/
def remove
    (lib : AudioLibrary)
    (name : String) : AudioLibrary :=
  { lib with sounds := lib.sounds.erase name }

/- The location of a registered name. -/
def resolver
    (lib : AudioLibrary) : Resolver :=
  fun name =>
    match lib.sounds.get? name with
    | some location => .ok location
    | none => .error (.notFound name)

end AudioLibrary

end CallFlow
