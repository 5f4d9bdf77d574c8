import CallFlow.Dialplan.Render
import CallFlow.Proofs.Dialplan.Arguments
import CallFlow.Proofs.Number.Numeral
import CallFlow.Proofs.Text.Nesting

/-
  The boundaries between the arguments of an application.

  An application that plays, reads or connects is called with
  values in fixed positions.  If the texts are safe, the call
  gives the values back, unless one of them ends in a
  backslash and another one comes after it.

  Main declarations:
    * `Application`
    * `Instr.Calls`
    * `Instr.Safe`
    * `Instr.exists_calls`
    * `Dialplan.application_eq_call`
    * `Dialplan.readArguments_application`
    * `Dialplan.Apart`
    * `Dialplan.boundaries_kept_iff`
    * `Dialplan.separator_swallowed`
-/

namespace CallFlow

------------------------------------------------------------
-- Values of Instructions
------------------------------------------------------------

/- An application that plays, reads or connects. -/
inductive Application where
  | playback
  | background
  | read
  | queue
  | dial
deriving DecidableEq

namespace Application

/- The name of an application. -/
def name : Application → String
  | playback => "Playback"
  | background => "Background"
  | read => "Read"
  | queue => "Queue"
  | dial => "Dial"

/- The number of the positions that are written. -/
def arity : Application → Nat
  | playback => 2
  | background => 2
  | read => 6
  | queue => 5
  | dial => 3

end Application

namespace Instr

/-
  An instruction calls an application with values in its
  positions.
-/
inductive Calls :
    Instr → Application → List String → Prop where
  | playback
      (sound : String)
      (options : Option String) :
      Calls (.play sound true options) .playback
        [sound, options.getD ""]
  | background
      (sound : String)
      (options : Option String) :
      Calls (.play sound false options) .background
        [sound, options.getD ""]
  | read
      (channelVar : String)
      (prompt : Option String)
      (maxDigits timeout : UInt32) :
      Calls (.readDigits channelVar prompt maxDigits timeout)
        .read
        [channelVar, prompt.getD "",
          countText (some maxDigits), "", "",
          countText (some timeout)]
  | queue
      (name : String)
      (timeout : Option UInt32)
      (options : Option String) :
      Calls (.bridge (.queue name) timeout options) .queue
        [name, options.getD "", "", "", countText timeout]
  | dial
      (technology destination : String)
      (timeout : Option UInt32)
      (options : Option String) :
      Calls
        (.bridge (.number technology destination) timeout
          options)
        .dial
        [technology ++ "/" ++ destination,
          countText timeout, options.getD ""]

/- The texts that an instruction hands to an application. -/
def texts : Instr → List String
  | play sound _ options => sound :: options.toList
  | readDigits channelVar prompt _ _ =>
      channelVar :: prompt.toList
  | bridge (.queue name) _ options =>
      name :: options.toList
  | bridge (.number technology destination) _ options =>
      technology :: destination :: options.toList
  | _ => []

/- Every text of an instruction can stand as it is. -/
def Safe
    (i : Instr) : Prop :=
  ∀ t ∈ i.texts, Text.isDialplanSafe t = true

instance
    (i : Instr) : Decidable i.Safe :=
  inferInstanceAs
    (Decidable
      (∀ t ∈ i.texts, Text.isDialplanSafe t = true))

/- An instruction with texts calls an application. -/
theorem exists_calls
    {i : Instr}
    (hTexts : i.texts ≠ []) :
    ∃ app vals, i.Calls app vals := by
  cases i with
  | play sound blocking options =>
      cases blocking with
      | true => exact ⟨_, _, .playback sound options⟩
      | false => exact ⟨_, _, .background sound options⟩
  | readDigits channelVar prompt maxDigits timeout =>
      exact ⟨_, _, .read channelVar prompt maxDigits timeout⟩
  | bridge target timeout options =>
      cases target with
      | queue name =>
          exact ⟨_, _, .queue name timeout options⟩
      | number technology destination =>
          exact
            ⟨_, _, .dial technology destination timeout options⟩
  | answer => exact absurd rfl hTexts
  | wait seconds => exact absurd rfl hTexts
  | waitForDigit timeout => exact absurd rfl hTexts
  | dispatch channelVar => exact absurd rfl hTexts
  | goto block label tag => exact absurd rfl hTexts
  | hangup cause => exact absurd rfl hTexts

/- Every call fills all positions. -/
theorem Calls.length_eq
    {i : Instr}
    {app : Application}
    {vals : List String}
    (hCall : i.Calls app vals) :
    vals.length = app.arity := by
  cases hCall <;> rfl

end Instr

namespace Dialplan

variable {i j : Instr}
variable {app : Application}
variable {vals others : List String}

------------------------------------------------------------
-- Plain Values
------------------------------------------------------------

/- A safe text is plain. -/
theorem plain_of_isDialplanSafe
    {s : String}
    (hSafe : Text.isDialplanSafe s = true) : Plain s :=
  fun c hc => ((Text.isDialplanSafe_iff.mp hSafe).2 c hc).2

/- The empty text is plain. -/
theorem plain_empty : Plain "" := by
  simp [Plain]

/- So is a slash. -/
theorem plain_slash : Plain "/" := by
  decide +kernel

/- A digit is neither a control character nor escaped. -/
theorem escapeChar_of_isDigit
    {c : Char}
    (hc : c.isDigit = true) :
    Text.isControl c = false ∧ escapeChar c = [c] := by
  have hControl : Text.isControl c = false := by
    simp only [Char.isDigit, Bool.and_eq_true,
      decide_eq_true_eq] at hc
    have hLow : 48 ≤ c.toNat :=
      UInt32.le_iff_toNat_le.mp hc.1
    have hHigh : c.toNat ≤ 57 :=
      UInt32.le_iff_toNat_le.mp hc.2
    simp only [Text.isControl, Bool.or_eq_false_iff,
      Bool.and_eq_false_iff, decide_eq_false_iff_not]
    omega
  refine ⟨hControl, ?_⟩
  rcases escapeChar_cases c with
    ⟨hSep, -⟩ | ⟨hDropped, -⟩ | ⟨-, -, hChar⟩
  · rcases hSep with hSep | hSep <;>
      simp [hSep] at hc
  · rw [hControl] at hDropped
    cases hDropped
  · exact hChar

/- A number is written in digits, as is an absent one. -/
theorem isDigit_of_mem_countText
    {n : Option UInt32}
    {c : Char}
    (hc : c ∈ (countText n).toList) : c.isDigit = true := by
  cases n with
  | none => simp [countText] at hc
  | some n =>
      have hMem : c ∈ Numeral.digitsOf n.toNat := by
        simpa [countText, Numeral.digitsOf] using hc
      exact Numeral.isDigit_of_mem_digitsOf hMem

/- A number as text is plain. -/
theorem plain_countText
    (n : Option UInt32) : Plain (countText n) :=
  fun _ hc =>
    (escapeChar_of_isDigit (isDigit_of_mem_countText hc)).1

/- An optional text is plain if a text that is there is. -/
theorem plain_getD
    {s : Option String}
    (hs : ∀ t ∈ s.toList, Plain t) : Plain (s.getD "") := by
  cases s with
  | none => exact plain_empty
  | some t => exact hs t (by simp)

/- The values of safe texts are plain. -/
theorem plain_of_calls
    (hSafe : i.Safe)
    (hCall : i.Calls app vals) :
    ∀ v ∈ vals, Plain v := by
  have hPlain : ∀ t ∈ i.texts, Plain t :=
    fun t ht => plain_of_isDialplanSafe (hSafe t ht)
  have hCount := plain_countText
  cases hCall with
  | playback sound options =>
      simp only [Instr.texts, List.forall_mem_cons] at hPlain
      simpa using ⟨hPlain.1, plain_getD hPlain.2⟩
  | background sound options =>
      simp only [Instr.texts, List.forall_mem_cons] at hPlain
      simpa using ⟨hPlain.1, plain_getD hPlain.2⟩
  | read channelVar prompt maxDigits timeout =>
      simp only [Instr.texts, List.forall_mem_cons] at hPlain
      simpa [plain_empty, hCount] using
        ⟨hPlain.1, plain_getD hPlain.2⟩
  | queue name timeout options =>
      simp only [Instr.texts, List.forall_mem_cons] at hPlain
      simpa [plain_empty, hCount] using
        ⟨hPlain.1, plain_getD hPlain.2⟩
  | dial technology destination timeout options =>
      simp only [Instr.texts, List.forall_mem_cons] at hPlain
      simpa [hCount, plain_append_iff, plain_slash] using
        ⟨⟨hPlain.1, hPlain.2.1⟩, plain_getD hPlain.2.2⟩

------------------------------------------------------------
-- Calls of Instructions
------------------------------------------------------------

/- Texts are escaped part by part. -/
theorem escape_append
    (s t : String) :
    escape (s ++ t) = escape s ++ escape t := by
  simp [escape, String.toList_append]

/- A number as text is not changed. -/
theorem escape_countText
    (n : Option UInt32) :
    escape (countText n) = countText n := by
  have hChars :
      ∀ c ∈ (countText n).toList, escapeChar c = [c] :=
    fun c hc =>
      (escapeChar_of_isDigit (isDigit_of_mem_countText hc)).2
  rw [escape, List.flatMap_congr hChars]
  simp

/- An absent text is written as an empty one. -/
theorem escape?_eq
    (s : Option String) :
    escape? s = escape (s.getD "") := by
  cases s with
  | none => rfl
  | some t => rfl

/- The empty text is not changed. -/
theorem escape_empty : escape "" = "" :=
  rfl

/- A slash is not escaped. -/
theorem escape_slash : escape "/" = "/" :=
  rfl

/- The call of an instruction has its values escaped. -/
theorem application_eq_call
    (entry : String)
    (hCall : i.Calls app vals) :
    application entry i =
      call app.name (vals.map escape) := by
  cases hCall <;>
    simp only [application, escape?_eq, List.map_cons,
      List.map_nil, escape_append, escape_empty,
      escape_slash, escape_countText] <;> rfl

/- The name of an application has no parenthesis. -/
theorem not_mem_name
    (app : Application) : '(' ∉ app.name.toList := by
  cases app <;> decide

/- The text of a call is read back as the glued values. -/
theorem readArguments_application
    (entry : String)
    (hSafe : i.Safe)
    (hCall : i.Calls app vals) :
    readArguments (application entry i) =
      glued (dropTrailingEmpty vals) := by
  rw [application_eq_call entry hCall]
  exact readArguments_call (not_mem_name app)
    (plain_of_calls hSafe hCall)

------------------------------------------------------------
-- Boundaries
------------------------------------------------------------

/- No used value but the last ends in a backslash. -/
def Apart
    (vals : List String) : Prop :=
  ∀ v ∈ (dropTrailingEmpty vals).dropLast,
    endsInBackslash v = false

instance
    (vals : List String) : Decidable (Apart vals) :=
  inferInstanceAs
    (Decidable
      (∀ v ∈ (dropTrailingEmpty vals).dropLast,
        endsInBackslash v = false))

/-
  The text of a call of values that are apart gives back the
  used values.
-/
theorem dropTrailingEmpty_eq_of_application_eq
    {entry entry' : String}
    (hSafe : i.Safe)
    (hCall : i.Calls app vals)
    (hApart : Apart vals)
    (hSafe' : j.Safe)
    (hCall' : j.Calls app others)
    (hApart' : Apart others)
    (hText : application entry i = application entry' j) :
    dropTrailingEmpty vals = dropTrailingEmpty others := by
  have hEscaped :
      (dropTrailingEmpty vals).map escape =
        (dropTrailingEmpty others).map escape := by
    rw [← (glued_eq_iff _).mpr hApart,
      ← (glued_eq_iff _).mpr hApart',
      ← readArguments_application entry hSafe hCall,
      ← readArguments_application entry' hSafe' hCall',
      hText]
  have hVals := plain_of_calls hSafe hCall
  have hOthers := plain_of_calls hSafe' hCall'
  exact map_escape_injective
    (plain_of_mem_dropTrailingEmpty hVals)
    (plain_of_mem_dropTrailingEmpty hOthers) hEscaped

/-
  The boundaries between the values of a call are kept
  exactly if no used value but the last ends in a backslash.
  Every other one takes the separator behind it away, and
  none adds an argument.  Of two calls of one application
  that keep their boundaries, the texts differ where the
  values do.  Every instruction with texts is such a call
  (`Instr.exists_calls`).
-/
theorem boundaries_kept_iff
    (entry : String)
    (hSafe : i.Safe)
    (hCall : i.Calls app vals) :
    (readArguments (application entry i) =
        dropTrailingEmpty (vals.map escape) ↔
      Apart vals) ∧
    (readArguments (application entry i)).length +
        (dropTrailingEmpty vals).dropLast.countP
          endsInBackslash =
      (dropTrailingEmpty (vals.map escape)).length ∧
    ∀ entry' j others,
      j.Safe → j.Calls app others →
        Apart vals → Apart others → vals ≠ others →
          application entry i ≠ application entry' j := by
  rw [readArguments_application entry hSafe hCall,
    dropTrailingEmpty_map_escape (plain_of_calls hSafe hCall)]
  refine ⟨glued_eq_iff _, ?_, ?_⟩
  · rw [List.length_map]
    exact length_glued _
  · intro entry' j others hSafe' hCall' hApart hApart' hNe
      hText
    have hUsed :=
      dropTrailingEmpty_eq_of_application_eq hSafe hCall
        hApart hSafe' hCall' hApart' hText
    have hLength : vals.length = others.length := by
      rw [hCall.length_eq, hCall'.length_eq]
    exact hNe (eq_of_dropTrailingEmpty_eq hLength hUsed)

/- An announcement and its options are read back. -/
theorem boundaries_kept_iff_announcement :
    let i : Instr :=
      .play "welcome" true (some "skip,noanswer")
    i.Safe ∧
      i.Calls .playback ["welcome", "skip,noanswer"] ∧
      readArguments (application "s" i) =
        ["welcome", "skip\\,noanswer"] := by
  have hSafe :
      (Instr.play "welcome" true
        (some "skip,noanswer")).Safe := by
    decide +kernel
  have hCall :
      (Instr.play "welcome" true
        (some "skip,noanswer")).Calls .playback
          ["welcome", "skip,noanswer"] :=
    .playback _ _
  refine ⟨hSafe, hCall, ?_⟩
  exact (boundaries_kept_iff "s" hSafe hCall).1.mpr
    (by decide +kernel)

/-
  A value that ends in a backslash hides the separator behind
  it: a queue with an option and another one without have one
  text, and all their texts are safe.
-/
theorem separator_swallowed :
    ∃ i j : Instr,
      i.Safe ∧ j.Safe ∧
      i.Calls .queue ["sales\\", "n", "", "", ""] ∧
      j.Calls .queue ["sales,n", "", "", "", ""] ∧
      application "s" i = "Queue(sales\\,n)" ∧
      application "s" j = "Queue(sales\\,n)" ∧
      readArguments (application "s" i) ≠
        dropTrailingEmpty
          (["sales\\", "n", "", "", ""].map escape) :=
  ⟨.bridge (.queue "sales\\") none (some "n"),
    .bridge (.queue "sales,n") none none,
    by decide +kernel, by decide +kernel,
    .queue _ _ _, .queue _ _ _,
    by decide +kernel, by decide +kernel, by decide +kernel⟩

end Dialplan

end CallFlow
