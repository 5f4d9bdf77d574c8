import CallFlow.Proofs.Command.Agreement
import CallFlow.Proofs.Compile.Clearing

/-
  A blank text compiles as an absent one does, but for the
  prompt of a step that reads digits.

  Two flows that are cleared of blank texts to the same flow
  have the same findings and the same plan.  So they compile
  to the same, unless one of them asks for audio under a blank
  name where the other asks for none.  A blank name of audio
  that is required counts as missing, and blocks both.  The
  prompt is the only audio that is not required: a blank one
  is looked for, and not found.

  Main declarations:
    * `Flow.AsksAs`
    * `Compiler.compile_eq_of_cleared_eq`
    * `Patch.setting`
    * `Compiler.SeeksPrompt`
    * `Flow.Blanks`
    * `Compiler.blank_compiles_as_unset_iff`
    * `Compiler.blank_prompt_not_as_unset`
-/

namespace CallFlow

namespace Flow

variable {t t' : Flow}
variable {r : Resolver}
variable {id : String}

------------------------------------------------------------
-- Flows Cleared to the Same
------------------------------------------------------------

/- Each node has one in the other flow, cleared to the same. -/
private theorem exists_get?_of_cleared_eq
    (h : t.cleared = t'.cleared)
    {n : Node}
    (hNode : t.get? id = some n) :
    ∃ n', t'.get? id = some n' ∧
      n'.cleared = n.cleared := by
  have hBoth : t.cleared.get? id = t'.cleared.get? id :=
    congrArg (Flow.get? · id) h
  rw [get?_cleared, get?_cleared, hNode] at hBoth
  exact Option.map_eq_some_iff.mp hBoth.symm

/- Nodes cleared to the same differ in settings only. -/
private theorem kind_and_label_of_cleared_eq
    {n n' : Node}
    (h : n'.cleared = n.cleared) :
    n'.kind = n.kind ∧ n'.label = n.label :=
  ⟨show n'.cleared.kind = n.cleared.kind by rw [h],
    show n'.cleared.label = n.cleared.label by rw [h]⟩

/- Calls come to the same nodes. -/
theorem comesTo_of_cleared_eq
    (h : t.cleared = t'.cleared)
    (id : String) : t'.comesTo id = t.comesTo id := by
  rw [← comesTo_cleared, ← h, comesTo_cleared]

/- Findings that block one of the flows block the other. -/
theorem blocked_iff_of_cleared_eq
    (hSound : t.Sound)
    (hSound' : t'.Sound)
    (h : t.cleared = t'.cleared) :
    t'.Blocked ↔ t.Blocked := by
  unfold Blocked
  rw [← hSound'.findings_cleared, ← h,
    hSound.findings_cleared]

/-
  A flow asks for the same audio as another one, wherever
  calls come to.
-/
def AsksAs
    (t t' : Flow) : Prop :=
  ∀ id n n', t.get? id = some n → t'.get? id = some n' →
    t.comesTo id = true →
      ∀ p ∈ n.kind.audioParams,
        n'.settings.text? p = n.settings.text? p

/- Then the same audio cannot be played. -/
private theorem unresolved_of_cleared_eq
    (h : t.cleared = t'.cleared)
    (hAsks : t.AsksAs t')
    (r : Resolver) : t'.unresolved r = t.unresolved r := by
  have hReached :
      t'.preorder.filter t'.comesTo =
        t.preorder.filter t.comesTo := by
    have hComes : t'.comesTo = t.comesTo :=
      funext (comesTo_of_cleared_eq h)
    rw [hComes, ← preorder_cleared (t := t'), ← h,
      preorder_cleared]
  unfold unresolved
  rw [hReached]
  refine List.flatMap_congr fun id hid => ?_
  cases hNode : t.get? id with
  | none =>
      have hNone : t'.get? id = none := by
        cases hNode' : t'.get? id with
        | none => rfl
        | some n' =>
            rcases exists_get?_of_cleared_eq h.symm hNode'
              with ⟨n, hSome, -⟩
            rw [hNode] at hSome
            cases hSome
      rw [hNone]
  | some n =>
      rcases exists_get?_of_cleared_eq h hNode with
        ⟨n', hNode', hSame⟩
      have hKind := (kind_and_label_of_cleared_eq hSame).1
      have hTexts := hAsks id n n' hNode hNode'
        (List.mem_filter.mp hid).2
      simp only [hNode']
      congr 1
      unfold Node.unresolved
      rw [hKind]
      refine List.filter_congr fun p hp => ?_
      rw [hTexts p hp]

/- And the same is reported of it. -/
private theorem reports_of_cleared_eq
    (hSound : t.Sound)
    (h : t.cleared = t'.cleared)
    (hAsks : t.AsksAs t')
    {asked : String × String}
    (hAsked : asked ∈ t.unresolved r)
    {f : Finding}
    (hReports : t.Reports r asked f) :
    t'.Reports r asked f := by
  rcases asked with ⟨id, p⟩
  rcases hSound.mem_unresolved_iff.mp hAsked with
    ⟨hAbove, n, name, e, hNode, hParam, hName, hError⟩
  rcases hReports with
    ⟨m, name', e', hNode', hName', hError', rfl⟩
  simp only at hNode' hName'
  rw [hNode] at hNode'
  cases hNode'
  rcases exists_get?_of_cleared_eq h hNode with
    ⟨n', hNode', hSame⟩
  have hComes : t.comesTo id = true :=
    (hSound.comesTo_iff
      ((t.contains_iff id).mpr ⟨n, hNode⟩)).mpr hAbove
  have hText := hAsks id n n' hNode hNode' hComes p hParam
  rcases kind_and_label_of_cleared_eq hSame with
    ⟨hKind, hLabel⟩
  refine ⟨n', name', e', hNode', ?_, hError', ?_⟩
  · rw [hText]
    exact hName'
  · rw [hKind, hLabel]

/- The other flow then asks for the same audio as the one. -/
private theorem AsksAs.symm
    (h : t.cleared = t'.cleared)
    (hAsks : t.AsksAs t') : t'.AsksAs t := by
  intro id n' n hNode' hNode hComes p hp
  rcases exists_get?_of_cleared_eq h.symm hNode' with
    ⟨m, hSame, hCleared⟩
  rw [hNode] at hSame
  cases hSame
  have hKind := (kind_and_label_of_cleared_eq hCleared).1
  rw [comesTo_of_cleared_eq h] at hComes
  rw [← hKind] at hp
  exact (hAsks id n n' hNode hNode' hComes p hp).symm

end Flow

------------------------------------------------------------
-- Results
------------------------------------------------------------

namespace Compiler

variable {t t' : Flow}
variable {o : Options}
variable {r : Resolver}

/- Flows that ask for the same audio fail in the same way. -/
private theorem error_of_cleared_eq
    (hSound : t.Sound)
    (hSound' : t'.Sound)
    (h : t.cleared = t'.cleared)
    (hAsks : o.Accepted → ¬ t.Blocked → t.AsksAs t')
    {e : CompileError}
    (hError : (withOptions o).compile t r = .error e) :
    (withOptions o).compile t' r = .error e := by
  have hOutcome := outcome_compile hSound o r
  have hOutcome' := outcome_compile hSound' o r
  have hBlocked :=
    Flow.blocked_iff_of_cleared_eq hSound hSound' h
  cases e with
  | invalidOption name value =>
      rw [hOutcome.invalidOption_iff] at hError
      rwa [hOutcome'.invalidOption_iff]
  | unknownType id kind =>
      exact absurd hError
        (compile_ne_unknownType _ t r id kind)
  | missingParam id name =>
      exact absurd hError (hOutcome.ne_missingParam id name)
  | notCompilable fs =>
      rw [hOutcome.notCompilable_iff] at hError
      rw [hOutcome'.notCompilable_iff, hBlocked,
        ← hSound'.findings_cleared, ← h,
        hSound.findings_cleared]
      exact hError
  | unresolvedAudio fs =>
      rw [hOutcome.unresolvedAudio_iff] at hError
      rcases hError with
        ⟨hOptions, hFree, hMissing, hReports⟩
      have hSame := hAsks hOptions hFree
      rw [hOutcome'.unresolvedAudio_iff, hBlocked,
        Flow.unresolved_of_cleared_eq h hSame]
      refine ⟨hOptions, hFree, hMissing, ?_⟩
      refine ((List.forall₂_and_left _ _).mpr
        ⟨fun asked hAsked => hAsked, hReports⟩).imp ?_
      rintro asked f ⟨hAsked, hHere⟩
      exact Flow.reports_of_cleared_eq hSound h hSame hAsked
        hHere

/- The scripts of such flows are laid out from one plan. -/
private theorem script_of_cleared_eq
    (h : t.cleared = t'.cleared)
    (hRejects : r.Rejects)
    {c c' : Compilation}
    (hCompile : (withOptions o).compile t r = .ok c)
    (hCompile' : (withOptions o).compile t' r = .ok c') :
    c.script = c'.script := by
  rcases exists_chart hCompile with
    ⟨-, -, p, hChart, hScript⟩
  rcases exists_chart hCompile' with
    ⟨-, -, p', hChart', hScript'⟩
  have hRoot : t.rootId = t'.rootId :=
    show t.cleared.rootId = t'.cleared.rootId by rw [h]
  have hName : t.name = t'.name :=
    show t.cleared.name = t'.cleared.name by rw [h]
  have hCleared := hChart.cleared hRejects
  have hCleared' := hChart'.cleared hRejects
  rw [h, hRoot] at hCleared
  rw [hScript, hScript', hCleared.unique hCleared', topName,
    topName, hName]

/-
  Flows that are cleared to the same compile to the same if
  they ask for the same audio where there is any to look for.
-/
theorem compile_eq_of_cleared_eq
    (hSound : t.Sound)
    (hSound' : t'.Sound)
    (h : t.cleared = t'.cleared)
    (hRejects : r.Rejects)
    (hAsks : o.Accepted → ¬ t.Blocked → t.AsksAs t') :
    (withOptions o).compile t r =
      (withOptions o).compile t' r := by
  cases hCompile : (withOptions o).compile t r with
  | error e =>
      exact
        (error_of_cleared_eq hSound hSound' h hAsks
          hCompile).symm
  | ok c =>
      cases hCompile' : (withOptions o).compile t' r with
      | error e =>
          have hAsks' :
              o.Accepted → ¬ t'.Blocked → t'.AsksAs t := by
            intro hOptions hFree
            rw [Flow.blocked_iff_of_cleared_eq hSound hSound'
              h] at hFree
            exact (hAsks hOptions hFree).symm h
          rw [error_of_cleared_eq hSound' hSound h.symm hAsks'
            hCompile'] at hCompile
          cases hCompile
      | ok c' =>
          -- A compilation is its script and its findings.
          have hFound :=
            ((outcome_compile hSound o r).findings_of_ok
              hCompile).1
          have hFound' :=
            ((outcome_compile hSound' o r).findings_of_ok
              hCompile').1
          have hScript :=
            script_of_cleared_eq h hRejects hCompile hCompile'
          rw [← hSound.findings_cleared, h,
            hSound'.findings_cleared, ← hFound'] at hFound
          cases c
          cases c'
          simp only at hScript hFound
          rw [hScript, hFound]

end Compiler

------------------------------------------------------------
-- Setting and Removing a Text
------------------------------------------------------------

/- The patch that writes one setting, or removes it. -/
def Patch.setting
    (name : String)
    (value : Option Value) : Patch :=
  { Patch.empty with settings := .ofList [(name, value)] }

/- A blank text leaves nothing behind, as no text does. -/
theorem Settings.cleared_insert_of_blank
    {s : Settings}
    {name text : String}
    (hBlank : Text.isBlank text = true) :
    Settings.cleared (s.insert name (.text text)) =
      Settings.cleared (s.erase name) := by
  refine cleared_eq_iff.mpr fun other => ?_
  unfold given?
  rw [NameMap.get?_insert, NameMap.get?_erase]
  by_cases hOther : other = name
  · simp [hOther, Option.filter, Value.isBlank, hBlank]
  · simp [hOther]

/- The text that was written is read. -/
theorem Settings.text?_insert_self
    {s : Settings}
    {name text : String} :
    Settings.text? (s.insert name (.text text)) name =
      some text := by
  unfold text?
  rw [NameMap.get?_insert, if_pos rfl]
  rfl

/- None is read where one was removed. -/
theorem Settings.text?_erase_self
    {s : Settings}
    {name : String} :
    Settings.text? (s.erase name) name = none := by
  unfold text?
  rw [NameMap.get?_erase, if_pos rfl]
  rfl

/- Texts under other names are read as before either way. -/
theorem Settings.text?_insert_of_ne
    {s : Settings}
    {name other text : String}
    (hOther : other ≠ name) :
    Settings.text? (s.insert name (.text text)) other =
      Settings.text? (s.erase name) other := by
  unfold text?
  rw [NameMap.get?_insert, NameMap.get?_erase, if_neg hOther,
    if_neg hOther]

/- A blank name of audio is what else cannot be played. -/
theorem Node.mem_unresolved_insert_iff
    {n : Node}
    {r : Resolver}
    (hRejects : r.Rejects)
    {name text p : String}
    (hAudio : name ∈ n.kind.audioParams)
    (hBlank : Text.isBlank text = true) :
    p ∈ Node.unresolved r { n with
        settings := n.settings.insert name (.text text) } ↔
      p = name ∨
        p ∈ Node.unresolved r { n with
          settings := n.settings.erase name } := by
  rw [mem_unresolved_iff, mem_unresolved_iff]
  by_cases hName : p = name
  · subst hName
    rcases hRejects text hBlank with ⟨e, hError⟩
    simp only [true_or, iff_true]
    exact ⟨hAudio, text, e, Settings.text?_insert_self,
      hError⟩
  · simp only [hName, false_or,
      Settings.text?_insert_of_ne hName]

namespace Flow

/- A flow one version on, where a node has other settings. -/
def withSettings
    (t : Flow)
    (id : String)
    (n : Node)
    (s : Settings) : Flow :=
  { t with
    nodes := t.nodes.insert id { n with settings := s }
    version := t.version + 1 }

variable {t : Flow}
variable {id name : String}
variable {n : Node}
variable {s s' : Settings}

/- Only that node is another one. -/
theorem get?_withSettings
    {other : String} :
    (t.withSettings id n s).get? other =
      if other = id then some { n with settings := s }
      else t.get? other :=
  NameMap.get?_insert _ _ _ _

/- Settings cleared to the same give flows cleared so. -/
theorem cleared_withSettings
    (h : s.cleared = s'.cleared) :
    (t.withSettings id n s).cleared =
      (t.withSettings id n s').cleared := by
  have hNodes :
      (t.withSettings id n s).cleared.nodes =
        (t.withSettings id n s').cleared.nodes := by
    refine NameMap.ext_get? fun other => ?_
    show (Flow.cleared _).get? other =
      (Flow.cleared _).get? other
    rw [get?_cleared, get?_cleared, get?_withSettings,
      get?_withSettings]
    by_cases hHere : other = id
    · simp [hHere, Node.cleared, h]
    · simp [hHere]
  show { t.withSettings id n s with
      nodes := (t.withSettings id n s).cleared.nodes } = _
  rw [hNodes]
  rfl

/- Changing one setting, if it may be changed so. -/
theorem update_setting
    {value : Option Value}
    (hNext : t.HasNext)
    (hNode : t.get? id = some n)
    (hChange :
      n.kind.change n.settings (name, value) = .ok s) :
    t.update id (.setting name value) =
      .ok (t.withSettings id n s) := by
  have hFound : t.node id = .ok n := by
    unfold node
    rw [hNode]
  have hSettings :
      patchedSettings n (.setting name value) = .ok s := by
    have hEntries :
        (NameMap.ofList [(name, value)]).entries =
          [(name, value)] :=
      rfl
    refine mapError_eq_ok_iff.mpr ?_
    simp [StepKind.changeAll, Patch.setting, Patch.empty,
      hEntries, hChange]
  have hUpdated :
      t.updated id (.setting name value) =
        .ok
          { t with
            nodes :=
              t.nodes.insert id { n with settings := s } } := by
    unfold updated
    rw [hFound]
    show (patchedSettings n (.setting name value) >>= _) = _
    rw [hSettings]
    rfl
  exact bind_eq_ok_iff.mpr
    ⟨_, mapError_eq_ok_iff.mpr hUpdated,
      commit_eq_ok_iff.mpr ⟨hNext, rfl⟩⟩

end Flow

------------------------------------------------------------
-- Blank and Absent Texts
------------------------------------------------------------

section Blank

variable {t blank unset : Flow}
variable {id name text : String}
variable {n : Node}
variable {o : Options}
variable {r : Resolver}

/-
  A setting is the prompt of a node that calls come to, in a
  flow whose audio is looked for.
-/
def Compiler.SeeksPrompt
    (o : Options)
    (t : Flow)
    (id name : String) : Prop :=
  o.Accepted ∧ ¬ t.Blocked ∧ t.comesTo id = true ∧
    (t.get? id).map Node.kind = some .collect ∧
      name = "prompt"

/-
  Two flows that have a blank text, and none, as one of the
  settings of a node.
-/
structure Flow.Blanks
    (blank unset : Flow)
    (id name : String)
    (n : Node)
    (text : String) : Prop where
  blanked :
    blank.get? id =
      some { n with
        settings := n.settings.insert name (.text text) }
  emptied :
    unset.get? id =
      some { n with settings := n.settings.erase name }
  rest :
    ∀ other, other ≠ id →
      blank.get? other = unset.get? other
  isBlank : Text.isBlank text = true
  soundBlank : blank.Sound
  soundUnset : unset.Sound
  cleared : blank.cleared = unset.cleared

namespace Flow.Blanks

variable (h : blank.Blanks unset id name n text)

include h

/- So the same is asked for, but for a prompt on the way. -/
theorem asksAs
    (hOptions : o.Accepted)
    (hFree : ¬ unset.Blocked)
    (hNot : ¬ Compiler.SeeksPrompt o unset id name) :
    unset.AsksAs blank := by
  intro other m m' hNode hNode' hComes p hp
  by_cases hHere : other = id
  · subst hHere
    rw [h.emptied] at hNode
    rw [h.blanked] at hNode'
    cases hNode
    cases hNode'
    by_cases hName : p = name
    · subst hName
      exfalso
      rcases StepKind.required_of_mem_audioParams hp with
        ⟨hKind, hPrompt⟩ | ⟨q, hq, rfl, hRequired⟩
      · refine hNot ⟨hOptions, hFree, hComes, ?_, hPrompt⟩
        rw [h.emptied]
        exact congrArg some hKind
      · -- What is required is missing, and blocks both flows.
        have hBlocked : blank.Blocked := by
          refine (Compiler.blocked_iff h.soundBlank).mpr
            ⟨_, _, h.blanked,
              List.ne_nil_of_mem (a := q.name) ?_⟩
          exact StepKind.mem_missingParams_of_blank hq
            hRequired Settings.text?_insert_self h.isBlank
        exact hFree
          ((blocked_iff_of_cleared_eq h.soundUnset h.soundBlank
            h.cleared.symm).mp hBlocked)
    · exact Settings.text?_insert_of_ne hName
  · rw [h.rest other hHere, hNode] at hNode'
    cases hNode'
    rfl

/- A blank prompt on the way is what else cannot be played. -/
theorem mem_unresolved_iff
    (hRejects : r.Rejects)
    (hAudio : name ∈ n.kind.audioParams)
    (hComes : unset.comesTo id = true)
    {asked : String × String} :
    asked ∈ blank.unresolved r ↔
      asked = (id, name) ∨ asked ∈ unset.unresolved r := by
  rcases asked with ⟨other, p⟩
  rw [h.soundBlank.mem_unresolved_iff_comesTo,
    h.soundUnset.mem_unresolved_iff_comesTo,
    comesTo_of_cleared_eq h.cleared.symm]
  by_cases hHere : other = id
  · subst hHere
    rw [h.blanked, h.emptied]
    have hNode := Node.mem_unresolved_insert_iff (p := p)
      hRejects hAudio h.isBlank
    simp [hNode, hComes]
  · rw [h.rest other hHere]
    simp [hHere]

/- No audio is missing for the setting that was removed. -/
theorem not_mem_unresolved :
    (id, name) ∉ unset.unresolved r := by
  rw [h.soundUnset.mem_unresolved_iff_comesTo, h.emptied]
  rintro ⟨-, m, hNode, hListed⟩
  cases hNode
  rcases Node.mem_unresolved_iff.mp hListed with
    ⟨-, name', e, hText, -⟩
  rw [Settings.text?_erase_self] at hText
  cases hText

/- One more finding is about audio with the blank prompt. -/
theorem length_unresolved
    (hRejects : r.Rejects)
    (hAudio : name ∈ n.kind.audioParams)
    (hComes : unset.comesTo id = true) :
    (blank.unresolved r).length =
      (unset.unresolved r).length + 1 := by
  have hPerm :
      (blank.unresolved r).Perm
        ((id, name) :: unset.unresolved r) := by
    refine (List.perm_ext_iff_of_nodup
      (blank.nodup_unresolved r)
      (List.nodup_cons.mpr ⟨h.not_mem_unresolved,
        unset.nodup_unresolved r⟩)).mpr fun asked => ?_
    rw [h.mem_unresolved_iff hRejects hAudio hComes,
      List.mem_cons]
  exact hPerm.length_eq

/- A prompt that is looked for is a parameter with audio. -/
theorem mem_audioParams
    (hSeeks : Compiler.SeeksPrompt o unset id name) :
    name ∈ n.kind.audioParams := by
  rcases hSeeks with ⟨-, -, -, hKind, rfl⟩
  rw [h.emptied] at hKind
  rw [show n.kind = .collect from Option.some.inj hKind]
  decide +kernel

/- A blank prompt that is looked for is not found. -/
theorem compile_blank
    (hRejects : r.Rejects)
    (hSeeks : Compiler.SeeksPrompt o unset id name) :
    ∃ fs,
      (Compiler.withOptions o).compile blank r =
          .error (.unresolvedAudio fs) ∧
        List.Forall₂ (blank.Reports r) (blank.unresolved r)
          fs := by
  have hAudio := h.mem_audioParams hSeeks
  rcases hSeeks with ⟨hOptions, hFree, hComes, -⟩
  have hListed : (id, name) ∈ blank.unresolved r :=
    (h.mem_unresolved_iff hRejects hAudio hComes).mpr
      (.inl rfl)
  have hFree' : ¬ blank.Blocked := by
    rwa [blocked_iff_of_cleared_eq h.soundUnset h.soundBlank
      h.cleared.symm]
  exact (Compiler.outcome_compile h.soundBlank o
    r).exists_unresolvedAudio hOptions hFree'
      (List.ne_nil_of_mem hListed)

/- It is the only setting for which that matters. -/
theorem compile_eq_iff
    (hRejects : r.Rejects) :
    (Compiler.withOptions o).compile blank r =
        (Compiler.withOptions o).compile unset r ↔
      ¬ Compiler.SeeksPrompt o unset id name := by
  constructor
  · intro hSame hSeeks
    rcases h.compile_blank hRejects hSeeks with
      ⟨fs, hBlank, hReports⟩
    -- The same findings would report audio of both flows, but
    -- there is more of it in the flow with the blank prompt.
    have hReports' :=
      ((Compiler.outcome_compile h.soundUnset o
        r).unresolvedAudio_iff fs).mp (hSame ▸ hBlank)
    have hMore := h.length_unresolved hRejects
      (h.mem_audioParams hSeeks) hSeeks.2.2.1
    have hLength := hReports.length_eq
    rw [← hReports'.2.2.2.length_eq] at hLength
    omega
  · intro hNot
    exact (Compiler.compile_eq_of_cleared_eq h.soundUnset
      h.soundBlank h.cleared.symm hRejects
      fun hOptions hFree =>
        h.asksAs hOptions hFree hNot).symm

end Flow.Blanks

/- Writing a blank text, and removing it. -/
private theorem exists_blanks
    (hSound : t.Sound)
    (hNext : t.HasNext)
    (hNode : t.get? id = some n)
    (hCheck : n.kind.check name (.text text) = .ok ())
    (hBlank : Text.isBlank text = true) :
    ∃ blank unset,
      t.update id (.setting name (some (.text text))) =
          .ok blank ∧
        t.update id (.setting name none) = .ok unset ∧
        blank.Blanks unset id name n text := by
  have hWrite :
      n.kind.change n.settings (name, some (.text text)) =
        .ok (n.settings.insert name (.text text)) := by
    show (n.kind.check name (.text text) >>= _) = _
    rw [hCheck]
    rfl
  have hRemove :
      n.kind.change n.settings (name, none) =
        .ok (n.settings.erase name) := by
    have hParam : (n.kind.param? name).isSome = true := by
      unfold StepKind.check at hCheck
      cases hFound : n.kind.param? name with
      | none =>
          rw [hFound] at hCheck
          cases hCheck
      | some p => rfl
    unfold StepKind.change
    rw [if_pos hParam]
    rfl
  have hBlankUpdate := Flow.update_setting hNext hNode hWrite
  have hUnsetUpdate := Flow.update_setting hNext hNode hRemove
  refine ⟨_, _, hBlankUpdate, hUnsetUpdate, {
    blanked := ?_
    emptied := ?_
    rest := ?_
    isBlank := hBlank
    soundBlank := hSound.update hBlankUpdate
    soundUnset := hSound.update hUnsetUpdate
    cleared := Flow.cleared_withSettings
      (Settings.cleared_insert_of_blank hBlank) }⟩
  · rw [Flow.get?_withSettings, if_pos rfl]
  · rw [Flow.get?_withSettings, if_pos rfl]
  · intro other hOther
    rw [Flow.get?_withSettings, Flow.get?_withSettings,
      if_neg hOther, if_neg hOther]

namespace Compiler

/-
  Writing a blank text to any parameter with audio or text
  compiles to the same as removing the parameter, unless it is
  the prompt of a node whose audio is looked for.  Then the
  blank prompt is reported as not found, next to whatever is
  reported without it.  There has to be a next version, as
  both are edits.
-/
theorem blank_compiles_as_unset_iff
    (hReachable : t.Reachable)
    (hNext : t.HasNext)
    (hNode : t.get? id = some n)
    (hCheck : n.kind.check name (.text text) = .ok ())
    (hBlank : Text.isBlank text = true)
    (hRejects : r.Rejects)
    (o : Options) :
    ∃ blank unset,
      t.update id (.setting name (some (.text text))) =
          .ok blank ∧
        t.update id (.setting name none) = .ok unset ∧
        ((withOptions o).compile blank r =
            (withOptions o).compile unset r ↔
          ¬ SeeksPrompt o unset id name) ∧
        (SeeksPrompt o unset id name →
          (∀ asked,
            asked ∈ blank.unresolved r ↔
              asked = (id, name) ∨
                asked ∈ unset.unresolved r) ∧
          ∃ fs,
            (withOptions o).compile blank r =
                .error (.unresolvedAudio fs) ∧
              List.Forall₂ (blank.Reports r)
                (blank.unresolved r) fs) := by
  rcases exists_blanks hReachable.sound hNext hNode hCheck
    hBlank with ⟨blank, unset, hWrite, hRemove, hBlanks⟩
  refine ⟨blank, unset, hWrite, hRemove,
    hBlanks.compile_eq_iff hRejects, fun hSeeks => ⟨?_,
      hBlanks.compile_blank hRejects hSeeks⟩⟩
  intro asked
  exact hBlanks.mem_unresolved_iff hRejects
    (hBlanks.mem_audioParams hSeeks) hSeeks.2.2.1

/- A flow that reads four digits into a variable. -/
def fourDigits : Flow :=
  (Flow.new "Hotline").run
    [.update Flow.firstRootId
      { Patch.empty with
        kind := some .collect
        settings :=
          NameMap.ofList [("maxDigits", some (.integer 4))] }]

/- Its root, with the settings that come with the kind. -/
def fourDigitsRoot : Node :=
  ⟨.collect, Flow.firstRootLabel,
    .ofList
      [("maxDigits", .integer 4),
        ("returnToRoot", .flag false),
        ("timeout", .integer 5), ("variable", .text "digits")],
    none, none, []⟩

/- Names that stand for themselves are not blank. -/
theorem rejects_direct : Resolver.direct.Rejects :=
  fun name hBlank =>
    ⟨.notFound name,
      Resolver.direct_eq_error_iff.mpr ⟨hBlank, rfl⟩⟩

/- A blank variable is as good as none, and is compiled. -/
theorem blank_compiles_as_unset_variable :
    fourDigits.Reachable ∧ fourDigits.HasNext ∧
      fourDigits.get? Flow.firstRootId = some fourDigitsRoot ∧
      fourDigitsRoot.kind.check "variable" (.text " ") =
        .ok () ∧
      Text.isBlank " " = true ∧
      Resolver.direct.Rejects ∧
      ∃ blank unset,
        fourDigits.update Flow.firstRootId
            (.setting "variable" (some (.text " "))) =
          .ok blank ∧
        fourDigits.update Flow.firstRootId
            (.setting "variable" none) =
          .ok unset ∧
        (withOptions .standard).compile blank .direct =
          (withOptions .standard).compile unset .direct := by
  have hReachable : fourDigits.Reachable :=
    ⟨Flow.new "Hotline", _, .inl ⟨"Hotline", rfl⟩, rfl⟩
  have hNode :
      fourDigits.get? Flow.firstRootId =
        some fourDigitsRoot := by
    decide +kernel
  have hCheck :
      fourDigitsRoot.kind.check "variable" (.text " ") =
        .ok () := by
    decide +kernel
  have hBlank : Text.isBlank " " = true := by decide +kernel
  have hNext : fourDigits.HasNext := by decide +kernel
  rcases blank_compiles_as_unset_iff hReachable hNext hNode
    hCheck hBlank rejects_direct .standard with
    ⟨blank, unset, hWrite, hRemove, hSame, -⟩
  refine ⟨hReachable, hNext, hNode, hCheck, hBlank, rejects_direct,
    blank, unset, hWrite, hRemove, hSame.mpr ?_⟩
  rintro ⟨-, -, -, -, hPrompt⟩
  exact absurd hPrompt (by decide)

/- A blank prompt is not: the flow is not compiled with it. -/
theorem blank_prompt_not_as_unset :
    fourDigits.Reachable ∧
      fourDigits.get? Flow.firstRootId = some fourDigitsRoot ∧
      fourDigitsRoot.kind.check "prompt" (.text "") = .ok () ∧
      Text.isBlank "" = true ∧
      Resolver.direct.Rejects ∧
      ∃ blank unset,
        fourDigits.update Flow.firstRootId
            (.setting "prompt" (some (.text ""))) =
          .ok blank ∧
        fourDigits.update Flow.firstRootId
            (.setting "prompt" none) =
          .ok unset ∧
        (withOptions .standard).compile blank .direct ≠
          (withOptions .standard).compile unset .direct := by
  have hReachable : fourDigits.Reachable :=
    ⟨Flow.new "Hotline", _, .inl ⟨"Hotline", rfl⟩, rfl⟩
  have hCompiles (v : Option Value) (b : Bool)
      (h :
        (fourDigits.update Flow.firstRootId
            (.setting "prompt" v)).toOption.map (fun t =>
          ((withOptions .standard).compile t
            .direct).toOption.isSome) = some b) :=
    exists_ok_of_toOption_map h
  rcases hCompiles (some (.text "")) false
    (by decide +kernel) with ⟨blank, hWrite, hRefused⟩
  rcases hCompiles none true (by decide +kernel) with
    ⟨unset, hRemove, hCompiled⟩
  refine ⟨hReachable, by decide +kernel, by decide +kernel,
    by decide +kernel, rejects_direct, blank, unset, hWrite,
    hRemove, fun hSame => ?_⟩
  rw [hSame, hCompiled] at hRefused
  cases hRefused

end Compiler

end Blank

end CallFlow
