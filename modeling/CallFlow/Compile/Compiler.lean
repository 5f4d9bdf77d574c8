import CallFlow.Compile.Layout

/-
  This file defines the compiler, which makes the script of
  a flow.

  Nothing is compiled unless the options can be used, no
  finding about the flow stands against it, and all audio
  can be played.

  Main declarations:
    * `Compiler`
    * `Compiler.emitters`
    * `Compilation`
    * `Compiler.compile`
-/

namespace CallFlow

/-
  The options of a compiler, and its emitters, among which
  there is one for every kind of step.
-/
structure Compiler where
  options : Options
  table : Emitters
  complete : ∀ k, (table.lookup k).isSome = true

/- A script with the findings that do not stand against it. -/
structure Compilation where
  script : Script
  findings : List Finding

namespace Compiler

/- The emitter for a kind of step. -/
def emitters
    (c : Compiler)
    (k : StepKind) : Emitter :=
  (c.table.lookup k).get (c.complete k)

/- It is the one that is found in the table. -/
theorem lookup_table
    (c : Compiler)
    (k : StepKind) : c.table.lookup k = some (c.emitters k) :=
  (Option.some_get (c.complete k)).symm

/- The usual emitters are complete. -/
theorem isSome_lookup_registered
    (k : StepKind) :
    (Emitter.registered.lookup k).isSome = true := by
  rw [Emitter.lookup_registered]
  rfl

/- One more emitter leaves none out. -/
theorem isSome_lookup_cons
    {emitters : Emitters}
    (h : ∀ k, (emitters.lookup k).isSome = true)
    (kind : StepKind)
    (e : Emitter)
    (k : StepKind) :
    (List.lookup k ((kind, e) :: emitters)).isSome = true := by
  rw [List.lookup_cons]
  split
  · rfl
  · exact h k

/- The compiler with some options that emits as usual. -/
def withOptions
    (o : Options) : Compiler :=
  ⟨o, Emitter.registered, isSome_lookup_registered⟩

/-
  The compiler with another emitter for a kind of step, which
  is found before the one there was.
-/
def withEmitter
    (c : Compiler)
    (kind : StepKind)
    (e : Emitter) : Compiler where
  options := c.options
  table := (kind, e) :: c.table
  complete := isSome_lookup_cons c.complete kind e

/- The usual emitters are found where no other one is. -/
theorem emitters_withOptions
    (o : Options) :
    (withOptions o).emitters = Emitter.standard := by
  funext k
  apply Option.some.inj
  rw [← lookup_table]
  exact Emitter.lookup_registered k

/- Only the emitter for one kind has been replaced. -/
theorem emitters_withEmitter
    (c : Compiler)
    (kind : StepKind)
    (e : Emitter)
    (k : StepKind) :
    (c.withEmitter kind e).emitters k =
      if k = kind then e else c.emitters k := by
  apply Option.some.inj
  rw [← lookup_table]
  show List.lookup k ((kind, e) :: c.table) = _
  rw [List.lookup_cons]
  by_cases hKind : k = kind
  · simp [hKind]
  · rw [beq_false_of_ne hKind, if_neg hKind]
    exact c.lookup_table k

/- The name of the first block of a flow. -/
def topName
    (c : Compiler)
    (t : Flow) : String :=
  c.options.contextStem ++ "-" ++ Text.contextSlug t.name

/- The script of an outline whose audio can be played. -/
def script
    (c : Compiler)
    (t : Flow)
    (o : Outline)
    (sounds : List Sound) : Except CompileError Script := do
  let p ←
    o.plan c.table sounds c.options.returnKey true
  let y : Layout := ⟨c.options, c.topName t⟩
  return {
    flowName := t.name
    entryExtension := c.options.entryExtension
    blocks := y.blocks p }

/- Compile a flow. -/
def compile
    (c : Compiler)
    (t : Flow)
    (r : Resolver) : Except CompileError Compilation := do
  c.options.check
  let found := t.findings
  if found.any Finding.blocksCompile then
    .error (.notCompilable found)
  else
    match t.outline? with
    | none =>
        .error (.notCompilable
          [(Problem.rootMissing t.rootId).finding])
    | some o =>
        let asked := o.requests
        let missing := AudioRequest.problems r asked
        if missing.isEmpty then
          let s ← c.script t o (AudioRequest.sounds r asked)
          return ⟨s, found⟩
        else
          .error (.unresolvedAudio
            (missing.map Problem.finding))

end Compiler

end CallFlow
