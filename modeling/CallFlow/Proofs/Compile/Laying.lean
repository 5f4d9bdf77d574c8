import CallFlow.Proofs.Compile.Naming
import CallFlow.Proofs.Script.Texts

/-
  What holds of every instruction of a compiled script.

  An instruction of a script is emitted for a node, or it is
  put around what is emitted: it opens or ends the call, waits
  for a digit, looks at digits that were read, or jumps to a
  block.  So what holds of both holds of the whole script.

  Main declarations:
    * `Layout.Keeps`
    * `Layout.Keeps.of_mem_menuSteps`
    * `Compiler.forall_instrs`
-/

namespace CallFlow

namespace Layout

------------------------------------------------------------
-- Instructions Around Actions
------------------------------------------------------------

/-
  What holds of everything that is put around actions, if the
  blocks have names that can be used.  Digits are looked at
  where an action has read them.
-/
structure Keeps
    (P : Instr → Prop) : Prop where
  answer : P .answer
  wait : ∀ seconds, P (.wait seconds)
  waitForDigit : ∀ timeout, P (.waitForDigit timeout)
  dispatch :
    ∀ channelVar prompt maxDigits timeout,
      P (.readDigits channelVar prompt maxDigits timeout) →
        P (.dispatch channelVar)
  goto :
    ∀ name tag, Options.Usable name →
      P (.goto name .entry tag)
  hangup : P (.hangup none)

namespace Keeps

variable {P : Instr → Prop}
variable {y : Layout}
variable {name : String}
variable {action : List Instr}
variable {choices : List (Option Key × Plan)}
variable {st : Step}

/- A plain step has one of the instructions. -/
private theorem of_mem_map_plain
    {l : Label}
    (hAction : ∀ i ∈ action, P i)
    (hst : st ∈ action.map (plain l)) : P st.instr := by
  rcases List.mem_map.mp hst with ⟨i, hi, rfl⟩
  exact hAction i hi

/- The opening of a call. -/
theorem of_mem_opening
    (hP : Keeps P) : ∀ i ∈ y.opening, P i := by
  unfold opening
  refine List.forall_mem_cons.mpr ⟨hP.answer, ?_⟩
  cases y.options.answerWait with
  | none => simp
  | some seconds => simpa using hP.wait seconds

/- An action that can be entered again. -/
theorem of_mem_actionSteps
    (hAction : ∀ i ∈ action, P i)
    (hst : st ∈ actionSteps action) : P st.instr := by
  cases action with
  | nil => cases hst
  | cons i rest =>
      rcases List.forall_mem_cons.mp hAction with
        ⟨hHere, hMore⟩
      rcases List.mem_cons.mp hst with rfl | hRest
      · exact hHere
      · exact of_mem_map_plain hMore hRest

/- The step that asks for a choice. -/
theorem of_askStep
    (hP : Keeps P)
    (hAction : ∀ i ∈ action, P i) :
    P (y.askStep action).instr := by
  unfold askStep
  split
  · rename_i channelVar prompt maxDigits timeout hLast
    exact hP.dispatch channelVar prompt maxDigits timeout
      (hAction _ (List.mem_of_getLast? hLast))
  · exact hP.waitForDigit _

/- The steps after a bad choice. -/
theorem of_mem_retrySteps
    {l : Label}
    (hP : Keeps P)
    (hName : Options.Usable name)
    (hAction : ∀ i ∈ action, P i)
    (hst : st ∈ retrySteps name l action) : P st.instr := by
  rcases List.mem_append.mp hst with hReplay | hJump
  · split at hReplay
    · exact of_mem_map_plain hAction hReplay
    · cases hReplay
  · rw [List.mem_singleton.mp hJump]
    exact hP.goto name _ hName

/- The name of a menu inside another one can be used. -/
private theorem usable_nestedName
    (hName : Options.Usable name)
    (key : Option Key) :
    Options.Usable (nestedName name key) := by
  have hBlock := hName.blockName [key]
  simpa [blockName, nestedName, String.append_assoc] using
    hBlock

/- The steps of a choice. -/
theorem of_mem_choiceSteps
    {c : Option Key × Plan}
    (hP : Keeps P)
    (hTop : Options.Usable y.top)
    (hName : Options.Usable name)
    (hLeaf :
      ∀ action endsCall, c.2 = .leaf action endsCall →
        ∀ i ∈ action, P i)
    (hst : st ∈ y.choiceSteps name c) : P st.instr := by
  rcases c with ⟨key, p⟩
  unfold choiceSteps at hst
  cases p with
  | menu action choices =>
      rw [List.mem_singleton.mp hst]
      exact hP.goto _ none (usable_nestedName hName key)
  | back =>
      rw [List.mem_singleton.mp hst]
      exact hP.goto y.top _ hTop
  | leaf action endsCall =>
      rcases List.mem_append.mp hst with hAction | hLast
      · exact of_mem_map_plain (hLeaf action endsCall rfl)
          hAction
      · split at hLast
        · cases hLast
        · rw [List.mem_singleton.mp hLast]
          cases endsCall with
          | true => exact hP.hangup
          | false => exact hP.goto y.top _ hTop

/- The steps of a menu. -/
theorem of_mem_menuSteps
    (hP : Keeps P)
    (hTop : Options.Usable y.top)
    (hName : Options.Usable name)
    (hAction : ∀ i ∈ action, P i)
    (hLeaf :
      ∀ c ∈ choices, ∀ action endsCall,
        c.2 = .leaf action endsCall → ∀ i ∈ action, P i)
    (hst : st ∈ y.menuSteps name action choices) :
    P st.instr := by
  rw [menuSteps_eq] at hst
  simp only [List.mem_append, List.mem_singleton] at hst
  rcases hst with (((hst | rfl) | hst) | hst) | hst
  · exact of_mem_actionSteps hAction hst
  · exact hP.of_askStep hAction
  · rcases List.mem_flatMap.mp hst with ⟨c, hc, hIn⟩
    exact hP.of_mem_choiceSteps hTop hName
      (hLeaf c (List.mem_of_mem_filter hc)) hIn
  · unfold fallbackSteps at hst
    split at hst
    · rename_i c hFallback
      have hc := List.mem_of_mem_filter
        (List.mem_of_getLast? hFallback)
      exact hP.of_mem_choiceSteps hTop hName (hLeaf c hc) hst
    · exact hP.of_mem_retrySteps hName hAction hst
  · exact hP.of_mem_retrySteps hName hAction hst

/- The steps of a root that is no menu. -/
theorem of_mem_leafSteps
    (hP : Keeps P)
    (hAction : ∀ i ∈ action, P i)
    (hst : st ∈ leafSteps action) : P st.instr := by
  rcases List.mem_append.mp hst with hSteps | hLast
  · exact of_mem_actionSteps hAction hSteps
  · split at hLast
    · cases hLast
    · rw [List.mem_singleton.mp hLast]
      exact hP.hangup

end Keeps

end Layout

------------------------------------------------------------
-- Instructions of Scripts
------------------------------------------------------------

/-
  What holds of the instructions that are emitted for nodes,
  and of those that are put around them, holds of every
  instruction of the script.
-/
theorem Compiler.forall_instrs
    {t : Flow}
    {k : Compiler}
    {r : Resolver}
    {c : Compilation}
    {P : Instr → Prop}
    (h : k.compile t r = .ok c)
    (hP : Layout.Keeps P)
    (hEmits :
      ∀ id n action, t.get? id = some n →
        k.emitters n.kind n (n.heard r) = .ok action →
          ∀ i ∈ action, P i) :
    ∀ i ∈ c.script.instrs, P i := by
  intro i hi
  rcases Script.mem_instrs.mp hi with ⟨b, hb, st, hst, rfl⟩
  rcases exists_chart h with ⟨hOptions, -⟩
  have hTop :=
    usable_topName (Options.accepted_of_check hOptions) t
  have hName := usable_name h hb
  have hAction {id : String} {p : Plan}
      (hChart : t.Charts k r id p) : ∀ i ∈ p.action, P i := by
    rcases hChart.exists_node with ⟨n, hNode, hEmitted⟩
    exact hEmits id n p.action hNode hEmitted
  have hOpening :
      st ∈ (Layout.mk k.options (k.topName t)).opening.map
          (Layout.plain .entry) → P st.instr :=
    Layout.Keeps.of_mem_map_plain hP.of_mem_opening
  rcases exists_blockOf h hb with ⟨e, hOf⟩
  cases hOf with
  | @menu opening action choices hNamed hChart hOpened
      hHolds =>
      have hLeaf :
          ∀ d ∈ choices, ∀ action endsCall,
            d.2 = .leaf action endsCall →
              ∀ i ∈ action, P i := by
        rintro ⟨key, p⟩ hd action' endsCall rfl
        rcases hChart.of_mem_choices hd with
          hBack | ⟨c', hBelow⟩
        · cases hBack
        · exact hAction hBelow
      rw [hHolds.steps, hOpened] at hst
      rcases List.mem_append.mp hst with hFirst | hMenu
      · split at hFirst
        · exact hOpening hFirst
        · cases hFirst
      · exact hP.of_mem_menuSteps hTop hName
          (hAction hChart) hLeaf hMenu
  | @leaf action endsCall hNamed hChart hFirst hSteps =>
      rw [hSteps] at hst
      rcases List.mem_append.mp hst with hFirst | hLeaf
      · exact hOpening hFirst
      · exact hP.of_mem_leafSteps (hAction hChart) hLeaf

end CallFlow
