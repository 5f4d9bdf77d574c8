import CallFlow.Proofs.Script.Running
import Mathlib.Data.List.Basic

/-
  The steps that a call can come to.

  A call comes to the steps of a label one after the other, to
  where a jump leads, and from a step that asks to the label
  for whatever the caller does.  Steps are run to the last one
  if all before it let the call go on.  If this is so for each
  label of a script, and a block has a label for everything
  that it asks for, a call never comes to the end of a label
  with nothing to go on with.

  Main declarations:
    * `Instr.GoesOn`
    * `RunsTo`
    * `Script.Visits`
    * `Script.Visits.of_append`
    * `Script.Visits.of_runsTo`
    * `Script.Closed`
    * `Script.Visits.ne_nil`
    * `Script.Plays.ending_ne_lost`
-/

namespace CallFlow

------------------------------------------------------------
-- Running to the Last Step
------------------------------------------------------------

/- An instruction that is performed, and the next one too. -/
structure Instr.GoesOn
    (i : Instr) : Prop where
  isAction : i.isAction = true
  endsLabel : i.endsLabel = false

/- The call is not over after such an instruction. -/
theorem Instr.GoesOn.endsCall
    {i : Instr}
    (h : i.GoesOn) : i.endsCall = false := by
  rw [Instr.endsCall_eq_endsLabel h.isAction]
  exact h.endsLabel

/- What neither jumps nor asks nor ends the call is such. -/
theorem Instr.goesOn_of_not_endsCall
    {i : Instr}
    (hGoto : ∀ name l tag, i ≠ .goto name l tag)
    (hAsks : i.asks = false)
    (hEnds : i.endsCall = false) : i.GoesOn := by
  cases i with
  | waitForDigit timeout => cases hAsks
  | dispatch channelVar => cases hAsks
  | bridge target timeout options => cases hEnds
  | hangup cause => cases hEnds
  | goto name l tag => exact absurd rfl (hGoto name l tag)
  | _ => exact ⟨rfl, rfl⟩

/-
  Steps of which the last one has an instruction of some sort,
  and all others let the call go on.
-/
def RunsTo
    (last : Instr → Prop)
    (steps : List Step) : Prop :=
  ∃ before st, steps = before ++ [st] ∧
    (∀ st' ∈ before, st'.instr.GoesOn) ∧ last st.instr

namespace RunsTo

variable {last : Instr → Prop}
variable {before steps : List Step}
variable {st : Step}

/- One step is the last one. -/
theorem single
    (h : last st.instr) : RunsTo last [st] :=
  ⟨[], st, rfl, by simp, h⟩

/- The steps are run to the last one with more before them. -/
theorem append
    (hBefore : ∀ st' ∈ before, st'.instr.GoesOn)
    (h : RunsTo last steps) :
    RunsTo last (before ++ steps) := by
  rcases h with ⟨more, st, rfl, hMore, hLast⟩
  refine ⟨before ++ more, st, by simp, ?_, hLast⟩
  exact List.forall_mem_append.mpr ⟨hBefore, hMore⟩

/- There is a last step. -/
theorem ne_nil
    (h : RunsTo last steps) : steps ≠ [] := by
  rcases h with ⟨before, st, rfl, -, -⟩
  simp

/- The last step may be known less well. -/
theorem imp
    {last' : Instr → Prop}
    (h : RunsTo last steps)
    (hImp : ∀ i, last i → last' i) : RunsTo last' steps := by
  rcases h with ⟨before, st, hSteps, hBefore, hLast⟩
  exact ⟨before, st, hSteps, hBefore, hImp st.instr hLast⟩

/- What stands before a step lets the call go on. -/
theorem goesOn_of_append
    {rest : List Step}
    (h : RunsTo last (before ++ st :: rest)) :
    ∀ st' ∈ before, st'.instr.GoesOn := by
  rcases h with ⟨others, final, hSteps, hOthers, -⟩
  have hBefore : others = before ++ (st :: rest).dropLast := by
    have hDrop := congrArg List.dropLast hSteps
    rw [List.dropLast_concat,
      List.dropLast_append_of_ne_nil
        (List.cons_ne_nil st rest)] at hDrop
    exact hDrop.symm
  intro st' hst'
  exact hOthers st' (hBefore ▸ List.mem_append_left _ hst')

/- A step that goes on is not the last one. -/
theorem ne_nil_of_goesOn
    {rest : List Step}
    (h : RunsTo last (before ++ st :: rest))
    (hLast : ∀ i, last i → ¬ i.GoesOn)
    (hGoes : st.instr.GoesOn) : rest ≠ [] := by
  rintro rfl
  rcases h with ⟨others, st', hSteps, -, hHere⟩
  have hSame : [st] = [st'] :=
    (List.append_inj' hSteps rfl).2
  cases hSame
  exact hLast st.instr hHere hGoes

end RunsTo

------------------------------------------------------------
-- Visits
------------------------------------------------------------

/- A block has a label if it has a step under the label. -/
theorem Block.mem_labels_iff
    {b : Block}
    {l : Label} : l ∈ b.labels ↔ b.stepsUnder l ≠ [] := by
  unfold Block.labels Block.stepsUnder
  simp [List.filter_eq_nil_iff]

namespace Script

/- A call can come to some steps of a block. -/
inductive Visits
    (s : Script) : Block → List Step → Prop where
  | start
      {b : Block}
      (hBlock : s.entryBlock? = some b) :
      Visits s b (b.stepsUnder .entry)
  | next
      {b : Block}
      {st : Step}
      {rest : List Step}
      (h : Visits s b (st :: rest))
      (hGoes : st.instr.GoesOn) : Visits s b rest
  | jump
      {b b' : Block}
      {st : Step}
      {rest steps : List Step}
      {name : String}
      {l : Label}
      {tag : Option Tag}
      (h : Visits s b (st :: rest))
      (hGoto : st.instr = .goto name l tag)
      (hLands : s.landing? name l tag = some (b', steps)) :
      Visits s b' steps
  | choose
      {b : Block}
      {st : Step}
      {rest : List Step}
      (h : Visits s b (st :: rest))
      (hAsks : st.instr.asks = true)
      (e : CallEvent) :
      Visits s b (b.stepsUnder (b.answerLabel e))

variable {s : Script}
variable {b : Block}

namespace Visits

/- A call comes to what follows steps that let it go on. -/
theorem of_append
    {before rest : List Step}
    (h : s.Visits b (before ++ rest))
    (hBefore : ∀ st ∈ before, st.instr.GoesOn) :
    s.Visits b rest := by
  induction before with
  | nil => exact h
  | cons st before ih =>
      rcases List.forall_mem_cons.mp hBefore with
        ⟨hHere, hMore⟩
      exact ih (h.next hHere) hMore

/- A call comes to each of the steps up to the last one. -/
theorem of_runsTo
    {last : Instr → Prop}
    {before rest : List Step}
    {st : Step}
    (h : s.Visits b (before ++ st :: rest))
    (hRuns : RunsTo last (before ++ st :: rest)) :
    s.Visits b (st :: rest) :=
  h.of_append hRuns.goesOn_of_append

end Visits

/-
  A script in which the steps of each label run to one that
  does not just go on.  Every block can be entered and has a
  label for everything that it asks for, and every jump leads
  somewhere.
-/
structure Closed
    (s : Script) : Prop where
  entered : ∀ b ∈ s.blocks, .entry ∈ b.labels
  runs :
    ∀ b ∈ s.blocks, ∀ l ∈ b.labels,
      RunsTo (fun i => ¬ i.GoesOn) (b.stepsUnder l)
  answers :
    ∀ b ∈ s.blocks, ∀ st ∈ b.steps, st.instr.asks = true →
      ∀ e, b.answerLabel e ∈ b.labels
  lands :
    ∀ b ∈ s.blocks, ∀ st ∈ b.steps,
      ∀ name l tag, st.instr = .goto name l tag →
        (s.landing? name l tag).isSome = true

/- The steps of a label, from one of them on. -/
private def Within
    (s : Script)
    (b : Block)
    (steps : List Step) : Prop :=
  b ∈ s.blocks ∧ steps ≠ [] ∧
    ∃ l ∈ b.labels, steps <:+ b.stepsUnder l

/- All steps of a label are steps of it. -/
private theorem Closed.within_stepsUnder
    (h : s.Closed)
    (hBlock : b ∈ s.blocks)
    {l : Label}
    (hLabel : l ∈ b.labels) : s.Within b (b.stepsUnder l) :=
  ⟨hBlock, (h.runs b hBlock l hLabel).ne_nil, l, hLabel,
    List.suffix_refl _⟩

/- A jump leads to steps of a label. -/
private theorem within_of_landing?
    {name : String}
    {l : Label}
    {tag : Option Tag}
    {steps : List Step}
    (h : s.landing? name l tag = some (b, steps)) :
    s.Within b steps := by
  unfold landing? at h
  rcases Option.bind_eq_some_iff.mp h with
    ⟨b', hBlock, hSteps⟩
  split at hSteps
  · cases hSteps
  · rename_i hSome
    cases hSteps
    have hSuffix : b.stepsFrom l tag <:+ b.stepsUnder l := by
      cases tag with
      | none => exact List.suffix_refl _
      | some g => exact List.dropWhile_suffix _
    refine
      ⟨List.mem_of_find?_eq_some hBlock, hSome, l, ?_,
        hSuffix⟩
    rw [Block.mem_labels_iff]
    intro hNil
    rw [hNil] at hSuffix
    exact hSome (List.suffix_nil.mp hSuffix)

/- Wherever a call comes to, it is at steps of a label. -/
private theorem Visits.within
    (hClosed : s.Closed)
    {steps : List Step}
    (h : s.Visits b steps) : s.Within b steps := by
  induction h with
  | start hBlock =>
      have hMem := List.mem_of_head? hBlock
      exact hClosed.within_stepsUnder hMem
        (hClosed.entered _ hMem)
  | next h hGoes ih =>
      rcases ih with ⟨hBlock, -, l, hLabel, before, hSteps⟩
      have hRuns := hClosed.runs _ hBlock l hLabel
      rw [← hSteps] at hRuns
      refine
        ⟨hBlock, hRuns.ne_nil_of_goesOn (fun _ hi => hi) hGoes,
          l, hLabel, ?_⟩
      exact (List.suffix_cons _ _).trans ⟨before, hSteps⟩
  | jump h hGoto hLands ih => exact within_of_landing? hLands
  | choose h hAsks e ih =>
      rcases ih with ⟨hBlock, -, l, hLabel, hSuffix⟩
      have hStep := List.mem_of_mem_filter
        (hSuffix.mem List.mem_cons_self)
      exact hClosed.within_stepsUnder hBlock
        (hClosed.answers _ hBlock _ hStep hAsks e)

namespace Visits

variable {steps : List Step}

/- A call always has a step to go on with. -/
theorem ne_nil
    (h : s.Visits b steps)
    (hClosed : s.Closed) : steps ≠ [] :=
  (h.within hClosed).2.1

/- The step that a call comes to is one of the block. -/
private theorem mem_steps
    {st : Step}
    {rest : List Step}
    (h : s.Visits b (st :: rest))
    (hClosed : s.Closed) :
    b ∈ s.blocks ∧ st ∈ b.steps := by
  rcases h.within hClosed with ⟨hBlock, -, l, -, hSuffix⟩
  exact
    ⟨hBlock,
      List.mem_of_mem_filter
        (hSuffix.mem List.mem_cons_self)⟩

/-
  A run from where a call can come to is never lost.  The
  induction is on the turns that the run takes.
-/
theorem ending_ne_lost
    (h : s.Visits b steps)
    (hClosed : s.Closed)
    {turns : Nat}
    {events : List CallEvent}
    {c : Course}
    (hRun : s.course? turns b steps events = some c) :
    c.ending ≠ .lost := by
  induction turns generalizing b steps events c with
  | zero => cases hRun
  | succ turns ih =>
      cases steps with
      | nil => exact absurd rfl (h.ne_nil hClosed)
      | cons st rest =>
          rcases Script.course?_cons_cases hRun with
            ⟨name, l, tag, hGoto, hJump⟩ |
              ⟨hAsks, hEvents⟩ | ⟨hGoto, hAsks, hDone⟩
          · rcases hJump with
              ⟨hNowhere, -⟩ | ⟨b', steps, hLands, hMore⟩
            · rcases h.mem_steps hClosed with ⟨hBlock, hst⟩
              have hLands := hClosed.lands b hBlock st hst
                name l tag hGoto
              rw [hNowhere] at hLands
              cases hLands
            · exact ih (h.jump hGoto hLands) hMore
          · rcases hEvents with
              ⟨-, rfl⟩ | ⟨e, later, -, hMore⟩
            · exact nofun
            · exact ih (h.choose hAsks e) hMore
          · rcases hDone with
              ⟨-, rfl⟩ | ⟨hEnds, c', hRest, rfl⟩
            · exact nofun
            · have hGoes : st.instr.GoesOn :=
                Instr.goesOn_of_not_endsCall hGoto hAsks hEnds
              have hMore : c'.ending ≠ .lost :=
                ih (h.next hGoes) hRest
              exact hMore

end Visits

/- No run from the start of such a script is lost. -/
theorem Plays.ending_ne_lost
    {events : List CallEvent}
    {c : Course}
    (h : s.Plays events c)
    (hClosed : s.Closed) : c.ending ≠ .lost := by
  rcases h with ⟨b, hBlock, turns, hRun⟩
  exact (Visits.start hBlock).ending_ne_lost hClosed hRun

end Script

end CallFlow
