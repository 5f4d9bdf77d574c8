import CallFlow.Command.Run
import CallFlow.Proofs.Compile.Outcome
import CallFlow.Proofs.Snapshot.RoundTrip

/-
  Checking a stored flow and compiling it, on the command
  line.

  What the check turns down is never compiled.  What it lets
  pass is compiled with the standard options and with names
  that stand for themselves, but for one kind of flow: a
  blank text counts as none wherever it is read, and yet a
  blank prompt is looked for like a name of audio.

  What is compiled is written to where it is asked for, up to
  the first file that cannot be written.

  Main declarations:
    * `Flow.AsksBlank`
    * `Flow.Sound.unresolved_direct_eq_nil_iff`
    * `Command.writeScript_cases`
    * `Command.compiles_iff_validates`
    * `Command.blank_prompt_not_compiled`
-/

namespace CallFlow

variable {t : Flow}

------------------------------------------------------------
-- Blank Prompts
------------------------------------------------------------

/-
  A node that calls come to reads digits with a prompt that
  is blank.
-/
def Flow.AsksBlank
    (t : Flow) : Prop :=
  ∃ id n prompt,
    (∀ k a, t.ancestor? (k + 1) id = some a →
      t.branches a = true) ∧
      t.get? id = some n ∧ n.kind = .collect ∧
      n.settings.text? "prompt" = some prompt ∧
      Text.isBlank prompt = true

/- A name that stands for itself is not blank. -/
theorem Resolver.direct_eq_error_iff
    {name : String}
    {e : AudioError} :
    direct name = .error e ↔
      Text.isBlank name = true ∧ e = .notFound name := by
  unfold direct
  by_cases hBlank : Text.isBlank name = true
  · simp [hBlank, eq_comm]
  · simp [hBlank]

/- All audio is required, but for prompts. -/
theorem StepKind.required_of_mem_audioParams
    {k : StepKind}
    {name : String}
    (h : name ∈ k.audioParams) :
    (k = .collect ∧ name = "prompt") ∨
      ∃ p ∈ k.params, p.name = name ∧ p.required = true := by
  rcases List.mem_map.mp h with ⟨p, hAudio, rfl⟩
  rcases List.mem_filter.mp hAudio with ⟨hParam, hSort⟩
  have hAll : ∀ k : StepKind, ∀ p ∈ k.params,
      (p.sort == .audio) = true →
        (k = .collect ∧ p.name = "prompt") ∨
          p.required = true := by
    intro k
    cases k <;> decide +kernel
  exact (hAll k p hParam hSort).imp_right
    fun hRequired => ⟨p, hParam, rfl, hRequired⟩

/- A required parameter that is blank is missing. -/
theorem StepKind.mem_missingParams_of_blank
    {k : StepKind}
    {s : Settings}
    {p : Param}
    {name : String}
    (hParam : p ∈ k.params)
    (hRequired : p.required = true)
    (hText : s.text? p.name = some name)
    (hBlank : Text.isBlank name = true) :
    p.name ∈ k.missingParams s := by
  refine List.mem_map_of_mem (List.mem_filter.mpr ⟨hParam, ?_⟩)
  unfold Settings.text? at hText
  rcases Option.bind_eq_some_iff.mp hText with
    ⟨v, hFound, hIsText⟩
  have hValue : v.isBlank = true := by
    cases v with
    | text s =>
        cases hIsText
        exact hBlank
    | _ => cases hIsText
  rw [hRequired, hFound]
  exact hValue

/-
  Names stand for themselves in a flow that nothing blocks,
  unless a prompt is blank.
-/
theorem Flow.Sound.unresolved_direct_eq_nil_iff
    (h : t.Sound)
    (hFree : ¬ t.Blocked) :
    t.unresolved .direct = [] ↔ ¬ t.AsksBlank := by
  rw [List.eq_nil_iff_forall_not_mem, ← not_exists, not_iff_not]
  constructor
  · rintro ⟨⟨id, p⟩, hMem⟩
    rcases h.mem_unresolved_iff.mp hMem with
      ⟨hAbove, n, name, e, hNode, hParam, hName, hError⟩
    have hBlank := (Resolver.direct_eq_error_iff.mp hError).1
    rcases StepKind.required_of_mem_audioParams hParam with
      ⟨hKind, rfl⟩ | ⟨q, hq, rfl, hRequired⟩
    · exact ⟨id, n, name, hAbove, hNode, hKind, hName, hBlank⟩
    · have hMissing := StepKind.mem_missingParams_of_blank hq
        hRequired hName hBlank
      exact absurd
        ((Compiler.blocked_iff h).mpr
          ⟨id, n, hNode, List.ne_nil_of_mem hMissing⟩) hFree
  · rintro ⟨id, n, prompt, hAbove, hNode, hKind, hName, hBlank⟩
    refine ⟨(id, "prompt"), h.mem_unresolved_iff.mpr ⟨hAbove, n,
      prompt, .notFound prompt, hNode, ?_, hName, ?_⟩⟩
    · rw [hKind]
      decide +kernel
    · exact Resolver.direct_eq_error_iff.mpr ⟨hBlank, rfl⟩

------------------------------------------------------------
-- Commands
------------------------------------------------------------

namespace Command

variable {files : Files}
variable {path : String}
variable {output artifact : Option String}

/- A file holds a flow. -/
def Holds
    (files : Files)
    (path : String)
    (t : Flow) : Prop :=
  ∃ s, files.text path = .ok s ∧ Flow.load s = .ok t

/- A flow that a file holds is one that was loaded. -/
theorem Holds.sound
    (h : Holds files path t) : t.Sound := by
  rcases h with ⟨s, -, hLoad⟩
  unfold Flow.load at hLoad
  split at hLoad
  · rename_i d hRead
    exact Flow.sound_of_clean (Flow.clean_of_flow_eq_ok hLoad)
  · cases hLoad

/- The flow to compile is the one that the file holds. -/
theorem loadFlow_eq_ok_iff :
    loadFlow files path = .ok t ↔ Holds files path t := by
  unfold loadFlow Holds
  rw [bind_eq_ok_iff]
  simp only [mapError_eq_ok_iff]

/- A file holds one flow at most. -/
theorem Holds.unique
    {t' : Flow}
    (h : Holds files path t)
    (h' : Holds files path t') : t = t' := by
  have hLoad := loadFlow_eq_ok_iff.mpr h
  rw [loadFlow_eq_ok_iff.mpr h'] at hLoad
  cases hLoad
  rfl

/- A flow passes the check if it is there and not blocked. -/
theorem exitCode_validate_eq_zero_iff :
    (run files (.validate path)).exitCode = 0 ↔
      ∃ t, Holds files path t ∧ ¬ t.Blocked := by
  unfold run runValidate Holds
  rcases hText : files.text path with reason | s
  · simp [hText, Outcome.failed]
  · rcases hLoad : Flow.load s with e | t
    · cases e <;> simp [hText, hLoad, Outcome.failed]
    · simp [hText, hLoad, Flow.Blocked]

/- What stops a flow from being compiled is all there is. -/
theorem run_compile_of_error
    {e : CompileError}
    (hHolds : Holds files path t)
    (hResult :
      (Compiler.withOptions .standard).compile t .direct =
        .error e) :
    run files (.compile path none none output artifact) =
      .failed e.findings
        ("Compilation failed: " ++ e.message) := by
  have hLoad := loadFlow_eq_ok_iff.mpr hHolds
  simp [run, runCompile, loadOptions, loadAssets, bind,
    Except.bind, pure, Except.pure, hLoad, hResult]

/- A compiled flow is written to where it is asked for. -/
theorem run_compile_of_ok
    {k : Compilation}
    (hHolds : Holds files path t)
    (hResult :
      (Compiler.withOptions .standard).compile t .direct =
        .ok k) :
    run files (.compile path none none output artifact) =
      writeScript files k output artifact := by
  have hLoad := loadFlow_eq_ok_iff.mpr hHolds
  simp [run, runCompile, loadOptions, loadAssets, bind,
    Except.bind, pure, Except.pure, hLoad, hResult]

/- What cannot be compiled gives a reason and no more. -/
theorem exists_run_compile_eq_failed
    (hNever :
      ∀ t k, Holds files path t →
        (Compiler.withOptions .standard).compile t .direct ≠
          .ok k) :
    ∃ fs reason,
      run files (.compile path none none output artifact) =
        .failed fs reason := by
  rcases hLoad : loadFlow files path with reason | t
  · refine ⟨[], reason, ?_⟩
    simp only [run, runCompile, hLoad]
    rfl
  · have hHolds := loadFlow_eq_ok_iff.mp hLoad
    rcases hResult :
        (Compiler.withOptions .standard).compile t .direct with
      e | k
    · exact ⟨_, _, run_compile_of_error hHolds hResult⟩
    · exact absurd hResult (hNever t k hHolds)

/- A flow is compiled if nothing blocks it or asks blankly. -/
theorem exists_compilation_iff :
    (∃ t k, Holds files path t ∧
      (Compiler.withOptions .standard).compile t .direct =
        .ok k) ↔
      ∃ t, Holds files path t ∧ ¬ t.Blocked ∧
        ¬ t.AsksBlank := by
  refine exists_congr fun t => ?_
  rw [exists_and_left]
  refine and_congr_right fun hHolds => ?_
  have hSound := hHolds.sound
  rw [(Compiler.outcome_compile hSound .standard
    .direct).ok_iff]
  simp only [Options.accepted_standard, true_and]
  exact and_congr_right hSound.unresolved_direct_eq_nil_iff

------------------------------------------------------------
-- Written Files
------------------------------------------------------------

/- Files are written up to the first that cannot be. -/
theorem writeAll_cases
    (files : Files)
    (ts : List (String × Contents)) :
    ((∀ w ∈ ts, files.refusal? w.1 w.2 = none) ∧
        writeAll files ts = (ts, none)) ∨
      ∃ before w rest reason,
        ts = before ++ w :: rest ∧
          (∀ u ∈ before, files.refusal? u.1 u.2 = none) ∧
          files.refusal? w.1 w.2 = some reason ∧
          writeAll files ts =
            (before, some (w.2.failure w.1 reason)) := by
  induction ts with
  | nil => exact Or.inl ⟨nofun, rfl⟩
  | cons w rest ih =>
      rcases hRefused : files.refusal? w.1 w.2 with _ | reason
      · have hWrite :
            writeAll files (w :: rest) =
              (w :: (writeAll files rest).1,
                (writeAll files rest).2) := by
          simp only [writeAll, hRefused]
        rcases ih with
          ⟨hAll, hRest⟩ |
            ⟨before, u, later, reason, hSplit, hBefore, hStops,
              hRest⟩
        · refine Or.inl ⟨?_, by rw [hWrite, hRest]⟩
          exact List.forall_mem_cons.mpr ⟨hRefused, hAll⟩
        · refine Or.inr ⟨w :: before, u, later, reason,
            by rw [hSplit]; rfl, ?_, hStops,
            by rw [hWrite, hRest]⟩
          exact List.forall_mem_cons.mpr ⟨hRefused, hBefore⟩
      · refine Or.inr ⟨[], w, rest, reason, rfl, nofun,
          hRefused, ?_⟩
        simp only [writeAll, hRefused]

/-
  A script is written to all files that it is asked for, or
  the command fails at the first that cannot be written.  The
  text is printed in either case if there is no file for it.
-/
theorem writeScript_cases
    (files : Files)
    (k : Compilation)
    (output artifact : Option String) :
    let ts := targets k.script output artifact
    let c := writeScript files k output artifact
    (output = none → c.output = k.script.render) ∧
      (((∀ w ∈ ts, files.refusal? w.1 w.2 = none) ∧
          c.exitCode = 0 ∧ c.written = ts) ∨
        ∃ before w rest reason,
          ts = before ++ w :: rest ∧
            (∀ u ∈ before, files.refusal? u.1 u.2 = none) ∧
            files.refusal? w.1 w.2 = some reason ∧
            c.exitCode = 1 ∧ c.written = before) := by
  intro ts c
  have hWrite : c = writeScript files k output artifact := rfl
  unfold writeScript at hWrite
  rcases writeAll_cases files ts with
    ⟨hAll, hWrites⟩ |
      ⟨before, w, rest, reason, hSplit, hBefore, hStops,
        hWrites⟩
  · rw [hWrites] at hWrite
    rw [hWrite]
    exact ⟨fun hPrints => by rw [hPrints]; rfl,
      Or.inl ⟨hAll, rfl, rfl⟩⟩
  · rw [hWrites] at hWrite
    rw [hWrite]
    exact ⟨fun hPrints => by rw [hPrints]; rfl,
      Or.inr
        ⟨before, w, rest, reason, hSplit, hBefore, hStops, rfl,
          rfl⟩⟩

------------------------------------------------------------
-- Agreement
------------------------------------------------------------

/-
  A stored flow is compiled exactly if it passes the check
  and no call comes to a blank prompt.  The script is that of
  the flow, for the standard options and names that stand for
  themselves.  The command then succeeds exactly if all files
  can be written that it is asked for.  If not, it fails at
  the first of them, with those before it written, and the
  text is printed all the same where there is no file for it.
  What is not compiled is neither printed nor written.
-/
theorem compiles_iff_validates
    (files : Files)
    (path : String)
    (output artifact : Option String) :
    let v := run files (.validate path)
    let c := run files
      (.compile path none none output artifact)
    ((∃ t k, Holds files path t ∧
        (Compiler.withOptions .standard).compile t .direct =
          .ok k) ↔
      v.exitCode = 0 ∧
        ∀ t, Holds files path t → ¬ t.AsksBlank) ∧
    (∀ t k, Holds files path t →
      (Compiler.withOptions .standard).compile t .direct =
        .ok k →
      let ts := targets k.script output artifact
      c = writeScript files k output artifact ∧
      (output = none → c.output = k.script.render) ∧
      (c.exitCode = 0 ↔
        ∀ w ∈ ts, files.refusal? w.1 w.2 = none) ∧
      (c.exitCode = 0 → c.written = ts) ∧
      (c.exitCode ≠ 0 → c.exitCode = 1 ∧
        ∃ before w rest reason,
          ts = before ++ w :: rest ∧
            (∀ u ∈ before, files.refusal? u.1 u.2 = none) ∧
            files.refusal? w.1 w.2 = some reason ∧
            c.written = before)) ∧
    ((∀ t k, Holds files path t →
      (Compiler.withOptions .standard).compile t .direct ≠
        .ok k) →
      c.exitCode = 1 ∧ c.output = "" ∧ c.written = []) := by
  intro v c
  refine ⟨?_, ?_, ?_⟩
  · show _ ↔ (run files _).exitCode = 0 ∧ _
    rw [exists_compilation_iff, exitCode_validate_eq_zero_iff]
    constructor
    · rintro ⟨t, hHolds, hFree, hAsks⟩
      exact ⟨⟨t, hHolds, hFree⟩,
        fun t' hOther => hHolds.unique hOther ▸ hAsks⟩
    · rintro ⟨⟨t, hHolds, hFree⟩, hAsks⟩
      exact ⟨t, hHolds, hFree, hAsks t hHolds⟩
  · intro t k hHolds hResult ts
    have hWritten : c = writeScript files k output artifact :=
      run_compile_of_ok hHolds hResult
    rcases writeScript_cases files k output artifact with
      ⟨hPrints, hDone⟩
    rw [← hWritten] at hPrints hDone
    refine ⟨hWritten, hPrints, ?_⟩
    rcases hDone with
      ⟨hAll, hZero, hFiles⟩ |
        ⟨before, w, rest, reason, hSplit, hBefore, hStops,
          hOne, hFiles⟩
    · exact ⟨iff_of_true hZero hAll, fun _ => hFiles,
        fun hNotZero => absurd hZero hNotZero⟩
    · have hNotZero : c.exitCode ≠ 0 := by
        rw [hOne]
        decide
      refine ⟨iff_of_false hNotZero fun hAll => ?_,
        fun hZero => absurd hZero hNotZero, fun _ =>
          ⟨hOne, before, w, rest, reason, hSplit, hBefore,
            hStops, hFiles⟩⟩
      have hMem : w ∈ ts := by
        rw [show ts = _ from hSplit]
        simp
      rw [hAll w hMem] at hStops
      cases hStops
  · intro hNever
    rcases exists_run_compile_eq_failed hNever with
      ⟨fs, reason, hFailed⟩
    rw [show c = _ from hFailed]
    exact ⟨rfl, rfl, rfl⟩

/- A flow that reads four digits, with an empty prompt. -/
def blankPrompt : Flow :=
  (Flow.new "main").run
    [.update Flow.firstRootId
      { Patch.empty with
        kind := some .collect
        settings := NameMap.ofList
          [("maxDigits", some (.integer 4)),
            ("prompt", some (.text ""))] }]

/- Every call comes to the prompt, which is at the root. -/
theorem asksBlank_blankPrompt : blankPrompt.AsksBlank := by
  have hRoot :
      blankPrompt.get? Flow.firstRootId =
        some ⟨.collect, Flow.firstRootLabel,
          .ofList
            [("maxDigits", .integer 4), ("prompt", .text ""),
              ("returnToRoot", .flag false),
              ("timeout", .integer 5),
              ("variable", .text "digits")],
          none, none, []⟩ := by
    decide +kernel
  refine ⟨Flow.firstRootId, _, "", ?_, hRoot, rfl,
    by decide +kernel, by decide +kernel⟩
  intro k a hAbove
  rcases Flow.exists_parentId?_of_ancestor?_succ hAbove with
    ⟨p, hParent, -⟩
  rw [Flow.parentId?_of_get? hRoot] at hParent
  cases hParent

/- The check lets it pass, but it is not compiled. -/
theorem exitCodes_of_holds_blankPrompt
    (hHolds : Holds files path blankPrompt) :
    (run files (.validate path)).exitCode = 0 ∧
      ∃ fs reason,
        run files
            (.compile path none none output artifact) =
          .failed fs reason := by
  have hFree : ¬ blankPrompt.Blocked := by
    unfold Flow.Blocked
    decide +kernel
  refine ⟨exitCode_validate_eq_zero_iff.mpr
    ⟨blankPrompt, hHolds, hFree⟩, ?_⟩
  apply exists_run_compile_eq_failed
  intro t k hOther hResult
  rcases exists_compilation_iff.mp ⟨t, k, hOther, hResult⟩ with
    ⟨t', hSame, -, hNot⟩
  exact hNot (hSame.unique hHolds ▸ asksBlank_blankPrompt)

/- Files that all hold the flow with the empty prompt. -/
def blankPromptFiles : Files :=
  ⟨fun _ => .ok blankPrompt.save, fun _ => .error "",
    fun _ _ => none⟩

/-
  A file with an empty prompt passes the check, but it is not
  compiled.
-/
theorem blank_prompt_not_compiled :
    (run blankPromptFiles (.validate "flow.json")).exitCode =
        0 ∧
      (run blankPromptFiles
        (.compile "flow.json" none none none none)).exitCode =
          1 ∧
      (run blankPromptFiles
        (.compile "flow.json" none none none none)).output =
          "" := by
  have hClean : blankPrompt.Clean :=
    (Flow.clean_iff_any_isError _).mpr (by decide +kernel)
  have hHolds :
      Holds blankPromptFiles "flow.json" blankPrompt :=
    ⟨blankPrompt.save, rfl, Flow.load_save hClean⟩
  rcases exitCodes_of_holds_blankPrompt hHolds with
    ⟨hZero, fs, reason, hFailed⟩
  rw [hFailed]
  exact ⟨hZero, rfl, rfl⟩

end Command

end CallFlow
