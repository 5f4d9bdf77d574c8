import CallFlow.Proofs.Dialplan.StepLines
import CallFlow.Proofs.Script.Texts
import CallFlow.Proofs.Text.Nesting

/-
  The calls of safe texts are closed where they end.

  Safe texts stay safe when they are escaped, joined and put
  behind each other, so the arguments of every application
  are safe as a whole, and the parenthesis behind its name is
  closed by the last character of the line.  A script whose
  texts are safe has no semicolon in the line of a step, so no
  part of such a line is taken for a comment.

  Main declarations:
    * `Dialplan.isDialplanSafe_escape`
    * `Dialplan.Closed`
    * `Dialplan.calls_closed_of_safe`
-/

namespace CallFlow

namespace Dialplan

open Text (isDialplanSafe)

------------------------------------------------------------
-- Safe Arguments
------------------------------------------------------------

/- Escaping leaves the depth as it is. -/
private theorem closes_flatMap_escapeChar
    {depth : Nat}
    {cs : List Char}
    (h : Text.closes depth cs = true) :
    Text.closes depth (cs.flatMap escapeChar) = true := by
  fun_induction Text.closes depth cs with
  | case1 depth => exact h
  | case2 depth rest ih =>
      show Text.closes depth
        ('(' :: rest.flatMap escapeChar) = true
      rw [Text.closes_open]
      exact ih h
  | case3 => cases h
  | case4 rest depth hOpen ih =>
      show Text.closes (depth + 1)
        (')' :: rest.flatMap escapeChar) = true
      rw [Text.closes_close]
      exact ih h
  | case5 => cases h
  | case6 depth c rest hOpen hClose hGood ih =>
      have hHere :
          escapeChar c = [c] ∨ escapeChar c = ['\\', c] := by
        rcases escapeChar_cases c with
          ⟨-, hChar⟩ | ⟨hControl, -⟩ | ⟨-, -, hChar⟩
        · exact Or.inr hChar
        · simp [hControl] at hGood
        · exact Or.inl hChar
      rw [List.flatMap_cons]
      rcases hHere with hChar | hChar
      · rw [hChar, List.singleton_append,
          Text.closes_other hOpen hClose hGood]
        exact ih h
      · rw [hChar, List.cons_append, List.singleton_append,
          Text.closes_other (by decide) (by decide)
            (by decide),
          Text.closes_other hOpen hClose hGood]
        exact ih h

/- An escaped text is safe if the text is. -/
theorem isDialplanSafe_escape
    {s : String}
    (hSafe : isDialplanSafe s = true) :
    isDialplanSafe (escape s) = true := by
  rw [isDialplanSafe, escape, String.toList_ofList]
  exact closes_flatMap_escapeChar hSafe

/- So is one that may be absent. -/
private theorem isDialplanSafe_escape?
    {s : Option String}
    (hSafe : ∀ t ∈ s.toList, isDialplanSafe t = true) :
    isDialplanSafe (escape? s) = true := by
  cases s with
  | none => rfl
  | some t => exact isDialplanSafe_escape (hSafe t (by simp))

/- A number as text is safe. -/
theorem isDialplanSafe_countText
    (n : Option UInt32) :
    isDialplanSafe (countText n) = true := by
  refine Text.isDialplanSafe_of_forall fun c hc => ?_
  have hDigit := isDigit_of_mem_countText hc
  refine ⟨?_, ?_, ?_, (escapeChar_of_isDigit hDigit).1⟩ <;>
    rintro rfl <;> cases hDigit

/- The extension of a label is safe if that of entries is. -/
private theorem isDialplanSafe_extension
    {entry : String}
    (hEntry : isDialplanSafe entry = true)
    (l : Label) :
    isDialplanSafe (extension entry l) = true := by
  cases l with
  | entry => exact hEntry
  | digit k =>
      have hAll :
          ∀ k ∈ Key.all, isDialplanSafe k.text = true := by
        decide
      exact hAll k k.mem_all
  | invalid =>
      show isDialplanSafe "i" = true
      decide
  | timeout =>
      show isDialplanSafe "t" = true
      decide

/- So is the mark of a tag. -/
private theorem isDialplanSafe_tagMark
    (tag : Option Tag) :
    isDialplanSafe (tagMark tag) = true := by
  rcases tag with _ | _ | _ <;> decide

------------------------------------------------------------
-- Closed Calls
------------------------------------------------------------

/-
  A text is the call of an application: a name of letters and
  arguments in parentheses.  The parenthesis behind the name
  is closed by the last character and by none before it.
-/
def Closed
    (text : String) : Prop :=
  ∃ app args : String,
    text = app ++ "(" ++ args ++ ")" ∧
    app ≠ "" ∧
    (∀ c ∈ app.toList, c.isAlpha = true) ∧
    Text.ClosesLast (args ++ ")").toList

/-
  A call with safe arguments: it is closed, and it is safe
  itself.
-/
private structure SafeCall
    (text : String) : Prop where
  closed : Closed text
  safe : isDialplanSafe text = true

/- A text of letters names an application. -/
private def IsName
    (app : String) : Prop :=
  app ≠ "" ∧ app.toList.all Char.isAlpha = true ∧
    isDialplanSafe app = true

private instance
    (app : String) : Decidable (IsName app) :=
  inferInstanceAs
    (Decidable
      (app ≠ "" ∧ app.toList.all Char.isAlpha = true ∧
        isDialplanSafe app = true))

/- A call is safe if its arguments are, as a whole. -/
private theorem safeCall_of_args
    {app args : String}
    (hApp : IsName app)
    (hArgs : isDialplanSafe args = true) :
    SafeCall (app ++ "(" ++ args ++ ")") := by
  rcases hApp with ⟨hFilled, hLetters, hSafe⟩
  refine
    ⟨⟨app, args, rfl, hFilled, List.all_eq_true.mp hLetters,
      Text.closesLast_of_isDialplanSafe hArgs⟩, ?_⟩
  have hText :
      app ++ "(" ++ args ++ ")" =
        app ++ ("(" ++ args ++ ")") := by
    simp only [String.append_assoc]
  rw [hText]
  exact Text.isDialplanSafe_append hSafe
    (Text.isDialplanSafe_enclosed hArgs)

/- A call is safe if each of its arguments is. -/
private theorem safeCall_call
    {app : String}
    {args : List String}
    (hApp : IsName app)
    (hArgs : ∀ a ∈ args, isDialplanSafe a = true) :
    SafeCall (call app args) :=
  safeCall_of_args hApp
    (Text.isDialplanSafe_intercalate (by decide) fun a ha =>
      hArgs a (mem_of_mem_dropTrailingEmpty ha))

/- The arguments of a jump to what a variable holds. -/
private def dispatchArguments
    (channelVar : String) : String :=
  "$\x7bIF($[\"" ++ valueOf channelVar ++ "\" = \"\"]?t:" ++
    valueOf channelVar ++ ")\x7d,1"

/- They are safe if the variable is. -/
private theorem isDialplanSafe_dispatchArguments
    {channelVar : String}
    (hSafe : isDialplanSafe channelVar = true) :
    isDialplanSafe (dispatchArguments channelVar) = true := by
  have hAppend (depth : Nat) (cs : List Char) :
      Text.closes depth (channelVar.toList ++ cs) =
        Text.closes depth cs :=
    Text.closes_append_of_isDialplanSafe hSafe
  unfold isDialplanSafe dispatchArguments valueOf
  simp only [String.toList_append, List.append_assoc]
  simp [Text.closes, hAppend]
  decide

/- So is the jump. -/
private theorem safeCall_dispatchCall
    {channelVar : String}
    (hSafe : isDialplanSafe channelVar = true) :
    SafeCall (dispatchCall channelVar) := by
  have hText :
      dispatchCall channelVar =
        "Goto" ++ "(" ++ dispatchArguments channelVar ++
          ")" := by
    unfold dispatchCall dispatchArguments
    apply String.toList_inj.mp
    simp [String.toList_append]
  rw [hText]
  exact safeCall_of_args (by decide)
    (isDialplanSafe_dispatchArguments hSafe)

/- The call of an instruction with safe texts is safe. -/
private theorem safeCall_application
    {entry : String}
    {i : Instr}
    (hEntry : isDialplanSafe entry = true)
    (hSafe : i.TextSafe) : SafeCall (application entry i) := by
  have hSounds := hSafe.sounds
  have hWords := hSafe.words
  have hEmpty : isDialplanSafe "" = true := rfl
  have hCount (n : UInt32) :
      isDialplanSafe n.toNat.repr = true :=
    isDialplanSafe_countText (some n)
  cases i with
  | answer =>
      show SafeCall ("Answer" ++ "(" ++ "" ++ ")")
      exact safeCall_of_args (by decide) hEmpty
  | wait seconds =>
      exact safeCall_call (by decide) (by simp [hCount])
  | play sound blocking options =>
      have hSound := isDialplanSafe_escape
        (hSounds sound (by simp [Instr.sounds]))
      have hOptions := isDialplanSafe_escape? hWords
      refine safeCall_call ?_ (by simp [hSound, hOptions])
      cases blocking <;> decide
  | waitForDigit timeout =>
      exact safeCall_call (by decide) (by simp [hCount])
  | readDigits channelVar prompt maxDigits timeout =>
      have hVar := isDialplanSafe_escape
        (hWords channelVar (by simp [Instr.words]))
      have hPrompt := isDialplanSafe_escape? hSounds
      exact safeCall_call (by decide)
        (by simp [hVar, hPrompt, hEmpty, hCount])
  | dispatch channelVar =>
      exact safeCall_dispatchCall
        (isDialplanSafe_escape
          (hWords channelVar (by simp [Instr.words])))
  | bridge target timeout options =>
      have hTimeout := isDialplanSafe_countText timeout
      cases target with
      | queue name =>
          rcases List.forall_mem_cons.mp hWords with
            ⟨hName, hOptions⟩
          have hName := isDialplanSafe_escape hName
          have hOptions := isDialplanSafe_escape? hOptions
          exact safeCall_call (by decide)
            (by simp [hName, hOptions, hEmpty, hTimeout])
      | number technology destination =>
          simp only [Instr.words, List.forall_mem_cons]
            at hWords
          rcases hWords with ⟨hTechnology, hMore⟩
          rcases hMore with ⟨hDestination, hOptions⟩
          have hTarget := Text.isDialplanSafe_append
            (Text.isDialplanSafe_append
              (isDialplanSafe_escape hTechnology)
              (show isDialplanSafe "/" = true by decide))
            (isDialplanSafe_escape hDestination)
          have hOptions := isDialplanSafe_escape? hOptions
          exact safeCall_call (by decide)
            (by simp [hTarget, hOptions, hTimeout])
  | goto block label tag =>
      have hBlock := isDialplanSafe_escape
        (hWords block (by simp [Instr.words]))
      have hLabel := isDialplanSafe_extension hEntry label
      have hTag :
          isDialplanSafe ((tag.map Tag.name).getD "1") =
            true := by
        rcases tag with _ | _ | _ <;> decide
      have hComma : isDialplanSafe "," = true := by decide
      have hArgs := Text.isDialplanSafe_append
        (Text.isDialplanSafe_append
          (Text.isDialplanSafe_append
            (Text.isDialplanSafe_append hBlock hComma)
            hLabel)
          hComma)
        hTag
      have hName : IsName "Goto" := by decide
      have hCall := safeCall_of_args hName hArgs
      simpa [application, String.append_assoc] using hCall
  | hangup cause =>
      exact safeCall_call (by decide)
        (by simp [isDialplanSafe_countText])

/- The line of a step with safe texts is safe. -/
private theorem isDialplanSafe_stepLine
    {entry : String}
    {first : Bool}
    {st : Step}
    (hEntry : isDialplanSafe entry = true)
    (hSafe : st.instr.TextSafe) :
    isDialplanSafe (stepLine entry first st) = true := by
  have hCall := (safeCall_application hEntry hSafe).safe
  have hLabel := isDialplanSafe_extension hEntry st.label
  have hTag := isDialplanSafe_tagMark st.tag
  have hMark :
      isDialplanSafe
        (if first then
            "exten => " ++ extension entry st.label ++ ",1"
          else " same => n") = true := by
    cases first with
    | true =>
        exact Text.isDialplanSafe_append
          (Text.isDialplanSafe_append (by decide) hLabel)
          (by decide)
    | false =>
        show isDialplanSafe " same => n" = true
        decide
  exact Text.isDialplanSafe_append
    (Text.isDialplanSafe_append
      (Text.isDialplanSafe_append hMark hTag) (by decide))
    hCall

/-
  In the text of a script of safe texts, every line of a step
  ends in a call that is closed by the last character of the
  line and by none before it.  No such line has a semicolon or
  a control character.
-/
theorem calls_closed_of_safe
    (s : Script)
    (hSafe : s.Safe) :
    ∀ l ∈ readStepLines s.render,
      (∃ b ∈ s.blocks, ∃ st ∈ b.steps, ∃ first,
        l = stepLine (escape s.entryExtension) first st ∧
        Closed
          (application (escape s.entryExtension) st.instr)) ∧
      ∀ c ∈ l.toList, c ≠ ';' ∧ Text.isControl c = false := by
  intro l hl
  rcases Script.safe_iff.mp hSafe with ⟨hEntry, hInstrs⟩
  have hEscaped := isDialplanSafe_escape hEntry
  rcases exists_of_mem_readStepLines hl with
    ⟨first, b, hb, st, hst, rfl⟩
  have hText : st.instr.TextSafe :=
    hInstrs _ (Script.mem_instrs.mpr ⟨b, hb, st, hst, rfl⟩)
  have hLine :
      isDialplanSafe
        (stepLine (escape s.entryExtension) first st) =
          true :=
    isDialplanSafe_stepLine hEscaped hText
  exact
    ⟨⟨b, hb, st, hst, first, rfl,
        (safeCall_application hEscaped hText).closed⟩,
      (Text.isDialplanSafe_iff.mp hLine).2⟩

/-
  A variable that is named twice inside parentheses, options
  with parentheses of their own, and a call that leaves its
  last arguments out.
-/
theorem calls_closed_of_safe_collecting :
    let s : Script :=
      { flowName := "Hotline"
        entryExtension := "s"
        blocks :=
          [{ index := 0
             name := "ivr-hotline"
             steps :=
               [⟨.entry, some .collect,
                  .readDigits "code(x)" (some "a,b") 4 5⟩,
                ⟨.entry, none, .dispatch "code(x)"⟩,
                ⟨.invalid, none,
                  .bridge (.number "PJSIP" "42") none
                    (some "tTm(hold(a))")⟩,
                ⟨.timeout, none,
                  .bridge (.queue "sales") none none⟩] }] }
    s.Safe ∧
      ∀ l ∈ readStepLines s.render,
        (∃ b ∈ s.blocks, ∃ st ∈ b.steps, ∃ first,
          l = stepLine (escape s.entryExtension) first st ∧
          Closed
            (application (escape s.entryExtension)
              st.instr)) ∧
        ∀ c ∈ l.toList,
          c ≠ ';' ∧ Text.isControl c = false := by
  intro s
  have hSafe : s.Safe := by decide +kernel
  exact ⟨hSafe, calls_closed_of_safe s hSafe⟩

end Dialplan

end CallFlow
