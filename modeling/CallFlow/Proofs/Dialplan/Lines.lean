import CallFlow.Proofs.Dialplan.Boundaries

/-
  The lines of a dialplan are read back from its text.

  Whatever texts a script is made of, no line of its dialplan
  holds a control character.  Arguments are escaped, comments
  and the heads of contexts are kept on one line, and nothing
  else in a line comes from outside.  So no text can end the
  line that it stands in, and to cut the dialplan where lines
  end gives the lines that were written.

  Main declarations:
    * `Dialplan.plain_escape`
    * `Dialplan.plain_application`
    * `Dialplan.plain_of_mem_lines`
    * `Dialplan.pieces_render`
-/

namespace CallFlow

namespace Dialplan

------------------------------------------------------------
-- Plain Lines
------------------------------------------------------------

/- An escaped value is plain, whatever it was. -/
theorem plain_escape
    (s : String) : Plain (escape s) := by
  intro c hc
  rw [escape, String.toList_ofList] at hc
  rcases List.mem_flatMap.mp hc with ⟨d, -, hIn⟩
  rcases escapeChar_cases d with
    ⟨hSep, hChar⟩ | ⟨-, hChar⟩ | ⟨hComma, hSemicolon, hChar⟩
  · rw [hChar] at hIn
    rcases hSep with rfl | rfl <;>
      simp only [List.mem_cons, List.not_mem_nil,
        or_false] at hIn <;>
      rcases hIn with rfl | rfl <;>
      rfl
  · rw [hChar] at hIn
    cases hIn
  · unfold escapeChar at hIn hChar
    rw [if_neg (by simp [hComma, hSemicolon])] at hIn hChar
    split at hIn
    · cases hIn
    · rename_i hPlain
      rw [List.mem_singleton.mp hIn]
      exact Bool.eq_false_iff.mpr hPlain

/- So is a value that may be absent. -/
private theorem plain_escape?
    (s : Option String) : Plain (escape? s) := by
  rw [escape?_eq]
  exact plain_escape _

/- A call with plain arguments is plain. -/
private theorem plain_call
    {app : String}
    {args : List String}
    (hApp : Plain app)
    (hArgs : ∀ a ∈ args, Plain a) : Plain (call app args) := by
  unfold call
  simp only [plain_append_iff, and_assoc]
  refine ⟨hApp, by decide, ?_, by decide +kernel⟩
  intro c hc
  rw [String.toList_intercalate] at hc
  rcases mem_intercalate hc with hComma | ⟨w, hw, hIn⟩
  · rw [List.mem_singleton.mp hComma]
    rfl
  · rcases List.mem_map.mp hw with ⟨a, ha, rfl⟩
    exact hArgs a (mem_of_mem_dropTrailingEmpty ha) c hIn

/- The extension of a label is plain if that of entries is. -/
private theorem plain_extension
    {entry : String}
    (h : Plain entry)
    (l : Label) : Plain (extension entry l) := by
  cases l with
  | entry => exact h
  | digit k =>
      have hAll : ∀ k ∈ Key.all, Plain k.text := by
        decide
      exact hAll k k.mem_all
  | invalid =>
      show Plain "i"
      decide
  | timeout =>
      show Plain "t"
      decide

/- So is a jump to what a variable holds. -/
private theorem plain_dispatchCall
    {channelVar : String}
    (h : Plain channelVar) :
    Plain (dispatchCall channelVar) := by
  have hValue : Plain (valueOf channelVar) := by
    unfold valueOf
    simp only [plain_append_iff, and_assoc]
    exact ⟨by decide, h, by decide +kernel⟩
  unfold dispatchCall
  simp only [plain_append_iff, and_assoc]
  exact
    ⟨by decide, hValue, by decide +kernel, hValue,
      by decide⟩

/- Whatever texts an instruction has, its call is plain. -/
theorem plain_application
    {entry : String}
    (h : Plain entry)
    (i : Instr) : Plain (application entry i) := by
  have hCount (n : UInt32) : Plain n.toNat.repr :=
    plain_countText (some n)
  cases i with
  | answer =>
      show Plain "Answer()"
      decide
  | wait seconds =>
      exact plain_call (by decide)
        (by simp [hCount])
  | play sound blocking options =>
      refine plain_call ?_
        (by simp [plain_escape, plain_escape?])
      cases blocking <;> decide
  | waitForDigit timeout =>
      exact plain_call (by decide)
        (by simp [hCount])
  | readDigits channelVar prompt maxDigits timeout =>
      exact plain_call (by decide)
        (by simp [plain_escape, plain_escape?, plain_empty,
          hCount])
  | dispatch channelVar =>
      exact plain_dispatchCall (plain_escape channelVar)
  | bridge target timeout options =>
      cases target with
      | queue name =>
          exact plain_call (by decide)
            (by simp [plain_escape, plain_escape?,
              plain_empty, plain_countText])
      | number technology destination =>
          have hTarget :
              Plain
                (escape technology ++ "/" ++
                  escape destination) := by
            simp only [plain_append_iff, and_assoc]
            exact
              ⟨plain_escape technology, plain_slash,
                plain_escape destination⟩
          exact plain_call (by decide)
            (by simp [hTarget, plain_escape?,
              plain_countText])
  | goto block l tag =>
      have hTag : Plain ((tag.map Tag.name).getD "1") := by
        rcases tag with _ | _ | _ <;> decide
      unfold application
      simp only [plain_append_iff, and_assoc]
      exact
        ⟨by decide, plain_escape block,
          by decide, plain_extension h l,
          by decide, hTag, by decide +kernel⟩
  | hangup cause =>
      exact plain_call (by decide)
        (by simp [plain_countText])

/- A text on one line is plain. -/
private theorem plain_onOneLine
    (s : String) : Plain (Text.onOneLine s) := by
  intro c hc
  rw [Text.onOneLine, String.toList_ofList] at hc
  rcases List.mem_map.mp hc with ⟨d, -, rfl⟩
  split
  · rfl
  · rename_i hPlain
    exact Bool.eq_false_iff.mpr hPlain

/- The mark of a tag is plain. -/
private theorem plain_tagMark
    (tag : Option Tag) : Plain (tagMark tag) := by
  rcases tag with _ | _ | _ <;> decide

/- The line of a step that starts an extension is plain. -/
private theorem plain_firstLine
    {entry : String}
    (h : Plain entry)
    (s : Step) : Plain (firstLine entry s) := by
  unfold firstLine
  simp only [plain_append_iff, and_assoc]
  exact
    ⟨by decide, plain_extension h s.label,
      by decide, plain_tagMark s.tag,
      by decide, plain_application h s.instr⟩

/- So is that of a step that continues one. -/
private theorem plain_nextLine
    {entry : String}
    (h : Plain entry)
    (s : Step) : Plain (nextLine entry s) := by
  unfold nextLine
  simp only [plain_append_iff, and_assoc]
  exact
    ⟨by decide, plain_tagMark s.tag,
      by decide, plain_application h s.instr⟩

/- So are those of all steps. -/
private theorem plain_of_mem_linesAfter
    {entry : String}
    (h : Plain entry)
    {before : Label}
    {steps : List Step} :
    ∀ l ∈ linesAfter entry before steps, Plain l := by
  induction steps generalizing before with
  | nil => simp [linesAfter]
  | cons s rest ih =>
      unfold linesAfter
      split
      · exact List.forall_mem_cons.mpr
          ⟨plain_nextLine h s, ih⟩
      · exact List.forall_mem_cons.mpr
          ⟨plain_empty, List.forall_mem_cons.mpr
            ⟨plain_firstLine h s, ih⟩⟩

/- Every line of a script is plain. -/
theorem plain_of_mem_lines
    (s : Script) : ∀ l ∈ s.lines, Plain l := by
  have hEntry := plain_escape s.entryExtension
  have hHead : Plain s.headLine := by
    unfold Script.headLine
    simp only [plain_append_iff, and_assoc]
    exact
      ⟨by decide, plain_onOneLine s.flowName,
        by decide⟩
  refine List.forall_mem_cons.mpr ⟨hHead, fun l hl => ?_⟩
  rcases List.mem_flatMap.mp hl with ⟨b, -, hIn⟩
  rcases List.mem_cons.mp hIn with rfl | hIn
  · exact plain_empty
  · rcases List.mem_cons.mp hIn with rfl | hIn
    · simp only [plain_append_iff, and_assoc]
      exact
        ⟨by decide, plain_onOneLine b.name,
          by decide⟩
    · unfold stepLines at hIn
      split at hIn
      · cases hIn
      · rcases List.mem_cons.mp hIn with rfl | hIn
        · exact plain_firstLine hEntry _
        · exact plain_of_mem_linesAfter hEntry l hIn

------------------------------------------------------------
-- Cutting Text Into Lines
------------------------------------------------------------

/- A separator after a piece without one ends the piece. -/
private theorem pieces_append_cons
    {sep : Char → Bool}
    {w : List Char}
    {d : Char}
    (hw : ∀ c ∈ w, sep c = false)
    (hd : sep d = true)
    (rest : List Char) :
    Text.pieces sep (w ++ d :: rest) =
      w :: Text.pieces sep rest := by
  induction w with
  | nil => simp [Text.pieces, hd]
  | cons c w ih =>
      rcases List.forall_mem_cons.mp hw with ⟨hc, hMore⟩
      simp [Text.pieces, hc, ih hMore]

/- The lines of a text are read back from it. -/
private theorem pieces_join
    {lines : List String}
    (h : ∀ l ∈ lines, Plain l) :
    Text.pieces (· == '\n')
        (String.join (lines.map fun l => l ++ "\n")).toList =
      lines.map String.toList ++ [[]] := by
  induction lines with
  | nil => simp [Text.pieces]
  | cons l rest ih =>
      rcases List.forall_mem_cons.mp h with ⟨hHere, hMore⟩
      have hLine : ∀ c ∈ l.toList, (c == '\n') = false := by
        intro c hc
        rw [beq_eq_false_iff_ne]
        rintro rfl
        have hControl := hHere '\n' hc
        cases hControl
      have hText :
          (String.join
              ((l :: rest).map fun l => l ++ "\n")).toList =
            l.toList ++
              '\n' ::
                (String.join
                  (rest.map fun l => l ++ "\n")).toList := by
        simp [String.join_cons, String.toList_append]
      rw [hText, pieces_append_cons hLine rfl, ih hMore]
      rfl

/- The lines of a script are read back from its text. -/
theorem pieces_render
    (s : Script) :
    Text.pieces (· == '\n') s.render.toList =
      s.lines.map String.toList ++ [[]] :=
  pieces_join (plain_of_mem_lines s)

end Dialplan

end CallFlow
