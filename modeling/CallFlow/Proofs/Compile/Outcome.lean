import CallFlow.Proofs.Compile.Complete
import CallFlow.Proofs.Compile.Correctness
import CallFlow.Proofs.Compile.Preorder
import CallFlow.Proofs.Flow.Reporting
import Mathlib.Data.List.Forall2

/-
  What compiling a flow comes to.

  The options are looked at first, then the findings about
  the flow, and then the audio of the nodes that calls come
  to.  A flow that passes all three compiles: what emitting
  asks for later has been made sure of by then.

  Main declarations:
    * `Options.Accepted`
    * `Flow.Blocked`
    * `Flow.unresolved`
    * `Flow.Sound.mem_unresolved_iff`
    * `Flow.nodup_unresolved`
    * `Flow.Reports`
    * `Compiler.Outcome`
    * `Compiler.compile_ne_unknownType`
    * `Compiler.outcome_compile`
    * `Compiler.compile_outcome`
-/

namespace CallFlow

variable {t : Flow}
variable {o : Options}
variable {r : Resolver}

------------------------------------------------------------
-- Options
------------------------------------------------------------

namespace Options

/- A text that can be used as a name in the dialplan. -/
def Usable
    (s : String) : Prop :=
  s ≠ "" ∧
    ∀ c ∈ s.toList,
      c.isAlphanum = true ∨ c ∈ ['_', '-', '+', '.']

/- The check of names accepts the usable ones. -/
theorem isName_iff
    (s : String) : isName s = true ↔ Usable s := by
  unfold isName Usable
  rw [Bool.and_eq_true, List.all_eq_true]
  apply and_congr
  · simp
  · refine forall_congr' fun c => imp_congr_right fun _ => ?_
    simp [isNameChar, or_assoc]

/- Options are accepted if both names are usable. -/
def Accepted
    (o : Options) : Prop :=
  Usable o.contextStem ∧ Usable o.entryExtension

/- A text that is not usable does not pass the check. -/
private theorem isName_eq_false
    {s : String}
    (h : ¬ Usable s) : isName s = false :=
  Bool.eq_false_iff.mpr fun hName => h ((isName_iff s).mp hName)

/- The standard options are accepted. -/
theorem accepted_standard : standard.Accepted :=
  ⟨(isName_iff "ivr").mp (by decide +kernel),
    (isName_iff "s").mp (by decide +kernel)⟩

/- Accepted options pass the check. -/
private theorem Accepted.check
    (h : o.Accepted) : o.check = .ok () := by
  unfold Options.check
  rw [(isName_iff _).mpr h.1, (isName_iff _).mpr h.2]
  rfl

/- Options that pass the check are accepted. -/
theorem accepted_of_check
    (h : o.check = .ok ()) : o.Accepted := by
  unfold Options.check at h
  split at h
  · cases h
  · rename_i hStem
    split at h
    · cases h
    · rename_i hEntry
      exact
        ⟨(isName_iff _).mp (by simpa using hStem),
          (isName_iff _).mp (by simpa using hEntry)⟩

/- Options fail the check for one of them. -/
theorem exists_invalidOption_of_check
    {e : CompileError}
    (h : o.check = .error e) :
    ∃ name value, e = .invalidOption name value := by
  unfold Options.check at h
  split at h
  · exact ⟨_, _, (Except.error.inj h).symm⟩
  · split at h
    · exact ⟨_, _, (Except.error.inj h).symm⟩
    · cases h

/- The beginning of block names is looked at first. -/
private theorem check_of_contextStem
    (h : ¬ Usable o.contextStem) :
    o.check =
      .error (.invalidOption "contextPrefix" o.contextStem) := by
  unfold check
  rw [isName_eq_false h]
  rfl

/- The extension is looked at next. -/
private theorem check_of_entryExtension
    (hStem : Usable o.contextStem)
    (h : ¬ Usable o.entryExtension) :
    o.check =
      .error
        (.invalidOption "entryExtension" o.entryExtension) := by
  unfold check
  rw [(isName_iff _).mpr hStem, isName_eq_false h]
  rfl

end Options

------------------------------------------------------------
-- Findings That Block
------------------------------------------------------------

/- A flow with a finding that it cannot be compiled with. -/
def Flow.Blocked
    (t : Flow) : Prop :=
  ∃ f ∈ t.findings, f.blocksCompile = true

/- A finding that does not block is about a leaf. -/
private theorem Finding.code_of_not_blocksCompile
    {f : Finding}
    (h : ¬ f.blocksCompile = true) :
    f.code = .leafWithChildren := by
  have hAll : ∀ c : Code,
      ¬ c.blocksCompile = true → c = .leafWithChildren := by
    intro c
    cases c <;> decide
  exact hAll f.code h

------------------------------------------------------------
-- Audio That Cannot Be Played
------------------------------------------------------------

namespace Node

/- The parameters of a node whose audio cannot be played. -/
def unresolved
    (r : Resolver)
    (n : Node) : List String :=
  n.kind.audioParams.filter fun p =>
    match n.settings.text? p with
    | some name => !(r name).isOk
    | none => false

/- They name audio that the resolver has an error for. -/
theorem mem_unresolved_iff
    {n : Node}
    {p : String} :
    p ∈ n.unresolved r ↔
      p ∈ n.kind.audioParams ∧
        ∃ name e, n.settings.text? p = some name ∧
          r name = .error e := by
  unfold unresolved
  rw [List.mem_filter]
  apply and_congr_right
  intro _
  cases n.settings.text? p with
  | none => simp
  | some name =>
      cases hResolved : r name <;>
        simp [Except.isOk, Except.toBool, hResolved]

end Node

namespace Flow

/-
  The nodes that calls come to, in display pre-order, with
  their parameters whose audio cannot be played.
-/
def unresolved
    (t : Flow)
    (r : Resolver) : List (String × String) :=
  (t.preorder.filter t.comesTo).flatMap fun id =>
    match t.get? id with
    | some n => (n.unresolved r).map fun p => (id, p)
    | none => []

/- A finding reports a parameter of a node, and its audio. -/
def Reports
    (t : Flow)
    (r : Resolver)
    (asked : String × String)
    (f : Finding) : Prop :=
  ∃ n name e, t.get? asked.1 = some n ∧
    n.settings.text? asked.2 = some name ∧
    r name = .error e ∧
    f =
      (Problem.unresolvedAudio asked.1 n.kind n.label
        e).finding

/- What cannot be played, node by node and by parameter. -/
theorem Sound.mem_unresolved_iff
    (h : t.Sound)
    {id p : String} :
    (id, p) ∈ t.unresolved r ↔
      (∀ k a, t.ancestor? (k + 1) id = some a →
        t.branches a = true) ∧
        ∃ n name e, t.get? id = some n ∧
          p ∈ n.kind.audioParams ∧
          n.settings.text? p = some name ∧
          r name = .error e := by
  unfold unresolved
  rw [List.mem_flatMap]
  constructor
  · rintro ⟨id', hReached, hListed⟩
    cases hNode : t.get? id' with
    | none => simp [hNode] at hListed
    | some n =>
        rw [hNode] at hListed
        rcases List.mem_map.mp hListed with ⟨p', hp, hSame⟩
        cases hSame
        rcases List.mem_filter.mp hReached with ⟨-, hComes⟩
        have hContains := (t.contains_iff id).mpr ⟨n, hNode⟩
        rcases Node.mem_unresolved_iff.mp hp with
          ⟨hParam, name, e, hName, hError⟩
        exact
          ⟨(h.comesTo_iff hContains).mp hComes, n, name, e,
            hNode, hParam, hName, hError⟩
  · rintro ⟨hAbove, n, name, e, hNode, hParam, hName, hError⟩
    have hContains := (t.contains_iff id).mpr ⟨n, hNode⟩
    refine ⟨id, List.mem_filter.mpr ⟨?_, ?_⟩, ?_⟩
    · exact h.mem_preorder hContains
    · exact (h.comesTo_iff hContains).mpr hAbove
    · rw [hNode]
      refine List.mem_map_of_mem ?_
      exact Node.mem_unresolved_iff.mpr
        ⟨hParam, name, e, hName, hError⟩

/- The same by what calls come to. -/
theorem Sound.mem_unresolved_iff_comesTo
    (h : t.Sound)
    {id p : String} :
    (id, p) ∈ t.unresolved r ↔
      t.comesTo id = true ∧
        ∃ n, t.get? id = some n ∧ p ∈ n.unresolved r := by
  rw [h.mem_unresolved_iff]
  constructor
  · rintro ⟨hAbove, n, name, e, hNode, hListed⟩
    have hContains := (t.contains_iff id).mpr ⟨n, hNode⟩
    exact ⟨(h.comesTo_iff hContains).mpr hAbove, n, hNode,
      Node.mem_unresolved_iff.mpr
        ⟨hListed.1, name, e, hListed.2⟩⟩
  · rintro ⟨hComes, n, hNode, hListed⟩
    have hContains := (t.contains_iff id).mpr ⟨n, hNode⟩
    rcases Node.mem_unresolved_iff.mp hListed with
      ⟨hParam, name, e, hText, hError⟩
    exact ⟨(h.comesTo_iff hContains).mp hComes, n, name, e,
      hNode, hParam, hText, hError⟩

/- Each node comes once with each parameter. -/
theorem nodup_unresolved
    (t : Flow)
    (r : Resolver) : (t.unresolved r).Nodup := by
  unfold unresolved
  refine List.nodup_flatMap.mpr ⟨?_, ?_⟩
  · intro id _
    cases hNode : t.get? id with
    | none => exact List.nodup_nil
    | some n =>
        have hParams : n.kind.audioParams.Nodup := by
          cases n.kind <;> decide +kernel
        refine (hParams.filter _).map ?_
        intro p q hSame
        exact (Prod.mk.inj hSame).2
  · refine (t.nodup_preorder.filter _).imp ?_
    intro a b hNe pair ha hb
    have hFirst : ∀ {id : String},
        (pair ∈
          match t.get? id with
          | some n => (n.unresolved r).map fun p => (id, p)
          | none => []) → pair.1 = id := by
      intro id hMem
      split at hMem
      · rcases List.mem_map.mp hMem with ⟨p, -, rfl⟩
        rfl
      · cases hMem
    exact hNe ((hFirst ha).symm.trans (hFirst hb))

/- Findings about the same parameter are the same. -/
private theorem Reports.unique
    {asked : String × String}
    {f f' : Finding}
    (h : t.Reports r asked f)
    (h' : t.Reports r asked f') : f = f' := by
  rcases h with ⟨n, name, e, hNode, hName, hError, rfl⟩
  rcases h' with ⟨n', name', e', hNode', hName', hError', rfl⟩
  rw [hNode] at hNode'
  cases hNode'
  rw [hName] at hName'
  cases hName'
  rw [hError] at hError'
  cases hError'
  rfl

end Flow

------------------------------------------------------------
-- Findings about Audio
------------------------------------------------------------

section Audio

/- Lists that are related part by part are related. -/
private theorem forall₂_flatMap
    {α β γ : Type}
    {R : β → γ → Prop}
    {l : List α}
    {f : α → List β}
    {g : α → List γ}
    (h : ∀ a ∈ l, List.Forall₂ R (f a) (g a)) :
    List.Forall₂ R (l.flatMap f) (l.flatMap g) := by
  induction l with
  | nil => exact .nil
  | cons a rest ih =>
      rw [List.flatMap_cons, List.flatMap_cons]
      apply List.rel_append
      · exact h a List.mem_cons_self
      · exact ih fun b hb => h b (List.mem_cons_of_mem a hb)

/- The problems with the audio of a node, by parameter. -/
private theorem reports_of_node
    {id : String}
    {n : Node}
    (hNode : t.get? id = some n) :
    List.Forall₂ (t.Reports r)
      ((n.unresolved r).map fun p => (id, p))
      ((AudioRequest.problems r (n.requests id)).map
        Problem.finding) := by
  unfold Node.unresolved Node.requests AudioRequest.problems
  induction n.kind.audioParams with
  | nil => exact .nil
  | cons p rest ih =>
      cases hName : n.settings.text? p with
      | none =>
          rw [List.filter_cons_of_neg (by simp [hName]),
            List.filterMap_cons_none (by rw [hName]; rfl)]
          exact ih
      | some name =>
          rw [List.filterMap_cons_some (by rw [hName]; rfl)]
          cases hResolved : r name with
          | ok location =>
              rw [List.filter_cons_of_neg
                  (by simp [hName, hResolved, Except.isOk,
                    Except.toBool]),
                List.filterMap_cons_none
                  (by simp [hResolved])]
              exact ih
          | error e =>
              rw [List.filter_cons_of_pos
                  (by simp [hName, hResolved, Except.isOk,
                    Except.toBool]),
                List.filterMap_cons_some
                  (by simp only [hResolved]; rfl)]
              exact .cons
                ⟨n, name, e, hNode, hName, hResolved, rfl⟩ ih

/-
  The audio that cannot be played is reported parameter by
  parameter, in the order of the pre-order.
-/
private theorem reports_of_outline
    {x : Outline}
    (h : t.Sound)
    (hShows : x.Shows t)
    (hId : x.id = t.rootId) :
    List.Forall₂ (t.Reports r) (t.unresolved r)
      ((AudioRequest.problems r x.requests).map
        Problem.finding) := by
  unfold Flow.unresolved Outline.requests
  rw [← Outline.map_fst_emitted h hShows hId,
    List.flatMap_map]
  unfold AudioRequest.problems
  rw [List.filterMap_flatMap, List.map_flatMap]
  apply forall₂_flatMap
  rintro ⟨id, n⟩ hMem
  have hNode := Outline.get?_of_mem_emitted hShows hMem
  simp only [hNode]
  exact reports_of_node hNode

end Audio

------------------------------------------------------------
-- Outcomes
------------------------------------------------------------

namespace Compiler

/- How compiling a flow comes out, and when. -/
inductive Outcome
    (t : Flow)
    (o : Options)
    (r : Resolver) : Except CompileError Compilation → Prop where
  | contextStem
      (hStem : ¬ Options.Usable o.contextStem) :
      Outcome t o r
        (.error
          (.invalidOption "contextPrefix" o.contextStem))
  | entryExtension
      (hStem : Options.Usable o.contextStem)
      (hEntry : ¬ Options.Usable o.entryExtension) :
      Outcome t o r
        (.error
          (.invalidOption "entryExtension"
            o.entryExtension))
  | notCompilable
      (hOptions : o.Accepted)
      (hBlocked : t.Blocked) :
      Outcome t o r (.error (.notCompilable t.findings))
  | unresolvedAudio
      {fs : List Finding}
      (hOptions : o.Accepted)
      (hFree : ¬ t.Blocked)
      (hMissing : t.unresolved r ≠ [])
      (hReports :
        List.Forall₂ (t.Reports r) (t.unresolved r) fs) :
      Outcome t o r (.error (.unresolvedAudio fs))
  | compiled
      {c : Compilation}
      (hOptions : o.Accepted)
      (hFree : ¬ t.Blocked)
      (hPlayable : t.unresolved r = [])
      (hFindings : c.findings = t.findings) :
      Outcome t o r (.ok c)

/- A flow that nothing blocks misses no parameter. -/
private theorem missingParams_eq_nil
    (hFree : ¬ t.Blocked)
    {id : String}
    {n : Node}
    (hNode : t.get? id = some n) :
    n.kind.missingParams n.settings = [] := by
  rw [List.eq_nil_iff_forall_not_mem]
  intro name hMissing
  have hParam :
      .missingParam id n.kind n.label name ∈
        t.paramProblems := by
    refine List.mem_flatMap.mpr ⟨(id, n), ?_, ?_⟩
    · exact (t.nodes.mem_entries_iff id n).mpr hNode
    · exact List.mem_append_right _
        (List.mem_map_of_mem hMissing)
  have hMem :
      .missingParam id n.kind n.label name ∈ t.problems := by
    rw [Flow.mem_problems_iff]
    simp only [hParam, true_or, or_true]
  exact hFree ⟨_, List.mem_map_of_mem hMem, rfl⟩

/-
  A sound flow can be compiled with all findings but those of
  required parameters that nodes miss.
-/
theorem blocked_iff
    (h : t.Sound) :
    t.Blocked ↔
      ∃ id n, t.get? id = some n ∧
        n.kind.missingParams n.settings ≠ [] := by
  constructor
  · rintro ⟨f, hFound, hBlocks⟩
    rcases List.mem_map.mp hFound with ⟨p, hp, rfl⟩
    rcases (t.clean_iff).mp h.clean with
      ⟨hRoot, hLinks, hCycles, hReach, hKeys, hSettings⟩
    rw [Flow.mem_problems_iff, hRoot, hLinks, hCycles,
      hReach, hKeys] at hp
    simp only [List.not_mem_nil, false_or] at hp
    rcases hp with hParam | hLeaf
    · rcases List.mem_flatMap.mp hParam with
        ⟨⟨id, n⟩, hEntry, hIn⟩
      have hNode := (t.nodes.mem_entries_iff id n).mp hEntry
      refine ⟨id, n, hNode, fun hNone => ?_⟩
      rw [hSettings id n hNode, hNone] at hIn
      cases hIn
    · rcases List.mem_filterMap.mp hLeaf with
        ⟨e, -, hOnly⟩
      split at hOnly
      · cases hOnly
        cases hBlocks
      · cases hOnly
  · rintro ⟨id, n, hNode, hMissing⟩
    by_contra hFree
    exact hMissing (missingParams_eq_nil hFree hNode)

/- A node that calls come to has its audio played. -/
private theorem exists_location
    {x : Outline}
    (h : t.Sound)
    (hShows : x.Shows t)
    (hId : x.id = t.rootId)
    (hPlayable : t.unresolved r = [])
    {id : String}
    {n : Node}
    (hMem : (id, n) ∈ x.emitted)
    {p name : String}
    (hParam : p ∈ n.kind.audioParams)
    (hName : n.settings.text? p = some name) :
    ∃ location, r name = .ok location := by
  have hNode := Outline.get?_of_mem_emitted hShows hMem
  have hReached : id ∈ t.preorder.filter t.comesTo := by
    rw [← Outline.map_fst_emitted h hShows hId]
    exact List.mem_map_of_mem hMem
  cases hResolved : r name with
  | ok location => exact ⟨location, rfl⟩
  | error e =>
      have hNone :=
        List.flatMap_eq_nil_iff.mp hPlayable id hReached
      rw [hNode] at hNone
      have hListed : p ∈ n.unresolved r :=
        Node.mem_unresolved_iff.mpr
          ⟨hParam, name, e, hName, hResolved⟩
      rw [List.map_eq_nil_iff.mp hNone] at hListed
      cases hListed

/- A complete node that calls come to has an action. -/
theorem exists_action
    {emitters : Emitters}
    (hStandard :
      ∀ k, emitters.lookup k = some (Emitter.standard k))
    {x : Outline}
    (h : t.Sound)
    (hShows : x.Shows t)
    (hId : x.id = t.rootId)
    (hFree : ¬ t.Blocked)
    (hPlayable : t.unresolved r = [])
    {e : String × Node}
    (hMem : e ∈ x.emitted) :
    ∃ action,
      e.2.action emitters
          (AudioRequest.sounds r x.requests) e.1 =
        .ok action := by
  rcases e with ⟨id, n⟩
  have hNode := Outline.get?_of_mem_emitted hShows hMem
  have hSounds :
      ∀ p ∈ n.kind.audioParams, ∀ name,
        n.settings.text? p = some name →
          ∃ location,
            Sound.find? (AudioRequest.sounds r x.requests)
              id p = some location := by
    intro p hParam name hName
    rcases exists_location h hShows hId hPlayable hMem hParam
      hName with ⟨location, hLocation⟩
    refine ⟨location, ?_⟩
    rw [Outline.find?_sounds hShows r hMem hParam]
    unfold Node.sound?
    rw [hName, Option.bind_some, hLocation]
    rfl
  rcases Emitter.exists_standard (h.settings id n hNode)
    (missingParams_eq_nil hFree hNode) hSounds with
    ⟨action, hEmitted⟩
  exact ⟨action,
    (Node.action_eq_ok_iff (hStandard n.kind)).mpr hEmitted⟩

/- The script of a complete flow is laid out. -/
private theorem exists_script
    {x : Outline}
    (h : t.Sound)
    (hShows : x.Shows t)
    (hId : x.id = t.rootId)
    (hFree : ¬ t.Blocked)
    (hPlayable : t.unresolved r = []) :
    ∃ s,
      (withOptions o).script t x
          (AudioRequest.sounds r x.requests) = .ok s := by
  rcases Outline.exists_plan o.returnKey true
    (fun e he =>
      exists_action Emitter.lookup_registered h hShows hId
        hFree hPlayable he) with
    ⟨p, hPlan⟩
  unfold script
  show ∃ s,
    (x.plan Emitter.registered _ o.returnKey true >>= _) =
      .ok s
  rw [hPlan]
  exact ⟨_, rfl⟩

/-
  A compiler has an emitter for every node, whichever ones
  have been replaced, so a script fails only for a parameter
  that one of them misses.
-/
private theorem exists_missingParam_of_script
    {k : Compiler}
    {x : Outline}
    {sounds : List Sound}
    {e : CompileError}
    (h : k.script t x sounds = .error e) :
    ∃ id name, e = .missingParam id name := by
  unfold script at h
  rcases bind_eq_error_iff.mp h with hPlan | ⟨p, -, hLaid⟩
  · rcases Outline.exists_action_of_plan_eq_error hPlan with
      ⟨⟨id, n⟩, -, hFails⟩
    rw [Node.action_of_lookup (k.lookup_table _),
      mapError_eq_error_iff] at hFails
    rcases hFails with ⟨name, -, rfl⟩
    exact ⟨id, name, rfl⟩
  · cases hLaid

/- So no compiler lacks an emitter for a kind of step. -/
theorem compile_ne_unknownType
    (k : Compiler)
    (t : Flow)
    (r : Resolver)
    (id : String)
    (kind : StepKind) :
    k.compile t r ≠ .error (.unknownType id kind) := by
  intro h
  unfold compile at h
  rcases bind_eq_error_iff.mp h with hOptions | ⟨u, -, hRest⟩
  · rcases Options.exists_invalidOption_of_check hOptions with
      ⟨name, value, hSame⟩
    cases hSame
  · dsimp only at hRest
    split at hRest
    · cases hRest
    · split at hRest
      · cases hRest
      · split at hRest
        · rcases bind_eq_error_iff.mp hRest with
            hScript | ⟨s, -, hDone⟩
          · rcases exists_missingParam_of_script hScript with
              ⟨id', name, hSame⟩
            cases hSame
          · cases hDone
        · cases hRest

/- Compiling a sound flow comes out in one of these ways. -/
theorem outcome_compile
    (h : t.Sound)
    (o : Options)
    (r : Resolver) :
    Outcome t o r ((withOptions o).compile t r) := by
  unfold compile
  show Outcome t o r (o.check >>= _)
  by_cases hStem : Options.Usable o.contextStem
  · by_cases hEntry : Options.Usable o.entryExtension
    · have hOptions : o.Accepted := ⟨hStem, hEntry⟩
      rw [hOptions.check]
      show Outcome t o r (if _ then _ else _)
      split
      · rename_i hBlocked
        exact .notCompilable hOptions
          (List.any_eq_true.mp hBlocked)
      · rename_i hNotBlocked
        have hFree : ¬ t.Blocked := fun hBlocked =>
          hNotBlocked (List.any_eq_true.mpr hBlocked)
        rcases h.exists_outline? with
          ⟨x, hOutline, hId, hShows⟩
        have hReports :=
          reports_of_outline (r := r) h hShows hId
        simp only [hOutline]
        split
        · rename_i hNone
          rw [List.isEmpty_iff.mp hNone, List.map_nil,
            List.forall₂_nil_right_iff] at hReports
          rcases exists_script (o := o) h hShows hId hFree
            hReports with ⟨s, hScript⟩
          rw [hScript]
          exact .compiled hOptions hFree hReports rfl
        · rename_i hSome
          refine .unresolvedAudio hOptions hFree ?_ hReports
          intro hNone
          rw [hNone, List.forall₂_nil_left_iff,
            List.map_eq_nil_iff] at hReports
          exact hSome (List.isEmpty_iff.mpr hReports)
    · rw [Options.check_of_entryExtension hStem hEntry]
      exact .entryExtension hStem hEntry
  · rw [Options.check_of_contextStem hStem]
    exact .contextStem hStem

namespace Outcome

variable {x : Except CompileError Compilation}

/- An option is rejected if its name is not usable. -/
theorem invalidOption_iff
    (h : Outcome t o r x)
    (name value : String) :
    x = .error (.invalidOption name value) ↔
      (¬ Options.Usable o.contextStem ∧
          name = "contextPrefix" ∧ value = o.contextStem) ∨
        (Options.Usable o.contextStem ∧
          ¬ Options.Usable o.entryExtension ∧
          name = "entryExtension" ∧
          value = o.entryExtension) := by
  cases h with
  | contextStem hStem => simp [hStem, eq_comm]
  | entryExtension hStem hEntry =>
      simp [hStem, hEntry, eq_comm]
  | notCompilable hOptions hBlocked =>
      simp [hOptions.1, hOptions.2]
  | unresolvedAudio hOptions hFree hMissing hReports =>
      simp [hOptions.1, hOptions.2]
  | compiled hOptions hFree hPlayable hFindings =>
      simp [hOptions.1, hOptions.2]

/- A flow is rejected for its findings if one of them blocks. -/
theorem notCompilable_iff
    (h : Outcome t o r x)
    (fs : List Finding) :
    x = .error (.notCompilable fs) ↔
      o.Accepted ∧ t.Blocked ∧ fs = t.findings := by
  cases h with
  | contextStem hStem => simp [Options.Accepted, hStem]
  | entryExtension hStem hEntry =>
      simp [Options.Accepted, hEntry]
  | notCompilable hOptions hBlocked =>
      simp [hOptions, hBlocked, eq_comm]
  | unresolvedAudio hOptions hFree hMissing hReports =>
      simp [hFree]
  | compiled hOptions hFree hPlayable hFindings =>
      simp [hFree]

/- A flow is rejected for audio if some cannot be played. -/
theorem unresolvedAudio_iff
    (h : Outcome t o r x)
    (fs : List Finding) :
    x = .error (.unresolvedAudio fs) ↔
      o.Accepted ∧ ¬ t.Blocked ∧ t.unresolved r ≠ [] ∧
        List.Forall₂ (t.Reports r) (t.unresolved r) fs := by
  cases h with
  | contextStem hStem => simp [Options.Accepted, hStem]
  | entryExtension hStem hEntry =>
      simp [Options.Accepted, hEntry]
  | notCompilable hOptions hBlocked => simp [hBlocked]
  | @unresolvedAudio found hOptions hFree hMissing hReports =>
      constructor
      · intro hSame
        cases hSame
        exact ⟨hOptions, hFree, hMissing, hReports⟩
      · rintro ⟨-, -, -, hReports'⟩
        have hUnique : Relator.RightUnique (t.Reports r) :=
          fun _ _ _ => Flow.Reports.unique
        rw [List.right_unique_forall₂' hUnique hReports
          hReports']
  | compiled hOptions hFree hPlayable hFindings =>
      simp [hPlayable]

/- There is a list of the audio whenever some is missing. -/
theorem exists_unresolvedAudio
    (h : Outcome t o r x)
    (hOptions : o.Accepted)
    (hFree : ¬ t.Blocked)
    (hMissing : t.unresolved r ≠ []) :
    ∃ fs, x = .error (.unresolvedAudio fs) ∧
      List.Forall₂ (t.Reports r) (t.unresolved r) fs := by
  cases h with
  | contextStem hStem => exact absurd hOptions.1 hStem
  | entryExtension hStem hEntry =>
      exact absurd hOptions.2 hEntry
  | notCompilable _ hBlocked => exact absurd hBlocked hFree
  | @unresolvedAudio fs _ _ _ hReports =>
      exact ⟨fs, rfl, hReports⟩
  | compiled _ _ hPlayable _ =>
      exact absurd hPlayable hMissing

/- Otherwise a flow is compiled. -/
theorem ok_iff
    (h : Outcome t o r x) :
    (∃ c, x = .ok c) ↔
      o.Accepted ∧ ¬ t.Blocked ∧ t.unresolved r = [] := by
  cases h with
  | contextStem hStem => simp [Options.Accepted, hStem]
  | entryExtension hStem hEntry =>
      simp [Options.Accepted, hEntry]
  | notCompilable hOptions hBlocked => simp [hBlocked]
  | unresolvedAudio hOptions hFree hMissing hReports =>
      simp [hMissing]
  | compiled hOptions hFree hPlayable hFindings =>
      simp [hOptions, hFree, hPlayable]

/- A compiled flow comes with warnings about leaves only. -/
theorem findings_of_ok
    (h : Outcome t o r x)
    {c : Compilation}
    (hOk : x = .ok c) :
    c.findings = t.findings ∧
      ∀ f ∈ c.findings, f.code = .leafWithChildren := by
  subst hOk
  cases h with
  | compiled hOptions hFree hPlayable hFindings =>
      refine ⟨hFindings, ?_⟩
      intro f hf
      rw [hFindings] at hf
      exact Finding.code_of_not_blocksCompile fun hBlocks =>
        hFree ⟨f, hf, hBlocks⟩

/- No emitter fails for want of a parameter. -/
theorem ne_missingParam
    (h : Outcome t o r x)
    (id name : String) :
    x ≠ .error (.missingParam id name) := by
  cases h <;> nofun

/- What is reported of audio is about audio. -/
private theorem code_of_reports
    {asked : List (String × String)}
    {fs : List Finding}
    (h : List.Forall₂ (t.Reports r) asked fs) :
    ∀ f ∈ fs, f.code = .unresolvedAudio := by
  induction h with
  | nil => nofun
  | cons hFirst hRest ih =>
      intro f hf
      rcases List.mem_cons.mp hf with hHere | hLater
      · rcases hFirst with ⟨n, name, e, -, -, -, hFinding⟩
        rw [hHere, hFinding]
        rfl
      · exact ih f hLater

/- No root is found to be missing. -/
private theorem code_ne_rootMissing
    (h : Outcome t o r x)
    (hSound : t.Sound)
    {e : CompileError}
    (hError : x = .error e) :
    ∀ f ∈ e.findings, f.code ≠ .rootMissing := by
  subst hError
  cases h with
  | contextStem hStem => nofun
  | entryExtension hStem hEntry => nofun
  | notCompilable hOptions hBlocked =>
      intro f hf hCode
      have hNoError := hSound.clean f hf
      unfold Finding.isError Finding.severity at hNoError
      rw [hCode] at hNoError
      cases hNoError
  | unresolvedAudio hOptions hFree hMissing hReports =>
      intro f hf hCode
      rw [code_of_reports hReports f hf] at hCode
      cases hCode

end Outcome

/-
  Compiling a flow that a program can get to.  It fails for
  an option exactly if one of the two names is not usable;
  else for the findings, all of which it gives, exactly if
  one of them blocks; else for audio exactly if a node below
  nothing but nodes that can branch asks for some that cannot
  be played, with one finding for each such parameter, in
  display pre-order.  Else it succeeds, and has only leaves
  with children to warn of.  It never fails for a parameter
  that an emitter misses, nor for an emitter or a root that
  is missing.
-/
theorem compile_outcome
    (hReachable : t.Reachable)
    (o : Options)
    (r : Resolver) :
    let result := (withOptions o).compile t r
    (∀ name value,
      result = .error (.invalidOption name value) ↔
        (¬ Options.Usable o.contextStem ∧
            name = "contextPrefix" ∧ value = o.contextStem) ∨
          (Options.Usable o.contextStem ∧
            ¬ Options.Usable o.entryExtension ∧
            name = "entryExtension" ∧
            value = o.entryExtension)) ∧
      (∀ fs, result = .error (.notCompilable fs) ↔
        o.Accepted ∧ t.Blocked ∧ fs = t.findings) ∧
      (∀ fs, result = .error (.unresolvedAudio fs) ↔
        o.Accepted ∧ ¬ t.Blocked ∧ t.unresolved r ≠ [] ∧
          List.Forall₂ (t.Reports r) (t.unresolved r) fs) ∧
      ((∃ c, result = .ok c) ↔
        o.Accepted ∧ ¬ t.Blocked ∧ t.unresolved r = []) ∧
      (∀ c, result = .ok c →
        c.findings = t.findings ∧
          ∀ f ∈ c.findings, f.code = .leafWithChildren) ∧
      (∀ id name, result ≠ .error (.missingParam id name)) ∧
      (∀ id kind, result ≠ .error (.unknownType id kind)) ∧
      (∀ e, result = .error e →
        ∀ f ∈ e.findings, f.code ≠ .rootMissing) ∧
      (t.unresolved r).Nodup ∧
      ∀ id p, (id, p) ∈ t.unresolved r ↔
        (∀ k a, t.ancestor? (k + 1) id = some a →
          t.branches a = true) ∧
          ∃ n name e, t.get? id = some n ∧
            p ∈ n.kind.audioParams ∧
            n.settings.text? p = some name ∧
            r name = .error e := by
  intro result
  have hSound := hReachable.sound
  have hOutcome : Outcome t o r result :=
    outcome_compile hSound o r
  exact
    ⟨hOutcome.invalidOption_iff, hOutcome.notCompilable_iff,
      hOutcome.unresolvedAudio_iff, hOutcome.ok_iff,
      fun _ hOk => hOutcome.findings_of_ok hOk,
      hOutcome.ne_missingParam,
      compile_ne_unknownType _ t r,
      fun _ hError => hOutcome.code_ne_rootMissing hSound hError,
      t.nodup_unresolved r,
      fun _ _ => hSound.mem_unresolved_iff⟩

/-
  A flow with a sound that is not there, and a step below a
  hang-up with another one.  No call comes to that step, so
  only the first sound is reported.
-/
theorem compile_outcome_below_hangup :
    let set (name : String) (v : Value) : Patch :=
      { Patch.empty with
        settings := NameMap.ofList [(name, some v)] }
    let t := (Flow.new "Hotline").run
      [.update Flow.firstRootId (set "audio" (.text "hello")),
        .add Flow.firstRootId .hangup "Bye" (some .star),
        .add "n1" .playback "Never" none,
        .update "n2" (set "audio" (.text "never"))]
    let r := AudioLibrary.empty.resolver
    t.Reachable ∧
      t.unresolved r = [(Flow.firstRootId, "audio")] ∧
      (withOptions .standard).compile t r =
        .error
          (.unresolvedAudio
            [(Problem.unresolvedAudio Flow.firstRootId
              .playback Flow.firstRootLabel
              (.notFound "hello")).finding]) := by
  intro set t r
  have hReachable : t.Reachable :=
    ⟨Flow.new "Hotline", _, Or.inl ⟨"Hotline", rfl⟩, rfl⟩
  have hUnresolved :
      t.unresolved r = [(Flow.firstRootId, "audio")] := by
    decide +kernel
  have hAccepted : Options.standard.Accepted :=
    Options.accepted_standard
  have hFree : ¬ t.Blocked := by
    unfold Flow.Blocked
    decide +kernel
  have hRoot :
      t.get? Flow.firstRootId =
        some ⟨.playback, Flow.firstRootLabel,
          .ofList
            [("audio", .text "hello"),
              ("returnToRoot", .flag false),
              ("terminal", .flag false)],
          none, none, ["n1"]⟩ := by
    decide +kernel
  refine ⟨hReachable, hUnresolved, ?_⟩
  refine
    ((compile_outcome hReachable .standard r).2.2.1 _).mpr
      ⟨hAccepted, hFree, by simp [hUnresolved], ?_⟩
  rw [hUnresolved]
  refine .cons ?_ .nil
  exact
    ⟨_, "hello", .notFound "hello", hRoot, by decide +kernel,
      by decide +kernel, rfl⟩

end Compiler

end CallFlow
