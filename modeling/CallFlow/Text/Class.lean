/-
  This file defines the classes of characters that the rules
  on text refer to, and how a text is cut into words.

  Main declarations:
    * `Text.isControl`
    * `Text.isBlankChar`
    * `Text.isBlank`
    * `Text.words`

  Main statements:
    * `Text.of_mem_words`
-/

namespace CallFlow

namespace Text

------------------------------------------------------------
-- Classes of characters
------------------------------------------------------------

/- The control characters (general category Cc). -/
def isControl
    (c : Char) : Bool :=
  c.toNat < 0x20 || (0x7f ≤ c.toNat && c.toNat ≤ 0x9f)

/- The characters with the property White_Space. -/
def isBlankChar
    (c : Char) : Bool :=
  let n := c.toNat
  (9 ≤ n && n ≤ 13) || n == 0x20 || n == 0x85 ||
    n == 0xa0 || n == 0x1680 ||
    (0x2000 ≤ n && n ≤ 0x200a) ||
    n == 0x2028 || n == 0x2029 || n == 0x202f ||
    n == 0x205f || n == 0x3000

/- A blank text holds nothing but white space. -/
def isBlank
    (s : String) : Bool :=
  s.toList.all isBlankChar

/- A text with every control character made a space. -/
def onOneLine
    (s : String) : String :=
  String.ofList
    (s.toList.map fun c => if isControl c then ' ' else c)

------------------------------------------------------------
-- Words
------------------------------------------------------------

/- Cut a text at every separator. -/
def pieces
    (sep : Char → Bool) :
    List Char → List (List Char)
  | [] => [[]]
  | c :: rest =>
      if sep c then [] :: pieces sep rest
      else
        match pieces sep rest with
        | [] => [[c]]
        | p :: ps => (c :: p) :: ps

/- The longest runs without a separator, in order. -/
def words
    (sep : Char → Bool)
    (cs : List Char) : List (List Char) :=
  (pieces sep cs).filter fun w => !w.isEmpty

/- A piece holds no separator. -/
theorem not_sep_of_mem_pieces
    {sep : Char → Bool}
    {cs w : List Char}
    (hw : w ∈ pieces sep cs) :
    ∀ c ∈ w, sep c = false := by
  induction cs generalizing w with
  | nil =>
      simp only [pieces, List.mem_singleton] at hw
      subst hw
      simp
  | cons c rest ih =>
      simp only [pieces] at hw
      split at hw
      · rcases List.mem_cons.mp hw with hw | hw
        · subst hw
          simp
        · exact ih hw
      · rename_i hSep
        have hc : sep c = false := by simpa using hSep
        cases hp : pieces sep rest with
        | nil =>
            rw [hp] at hw
            simp only [List.mem_singleton] at hw
            subst hw
            simpa using hc
        | cons p ps =>
            rw [hp] at hw ih
            rcases List.mem_cons.mp hw with hw | hw
            · subst hw
              intro x hx
              rcases List.mem_cons.mp hx with hx | hx
              · exact hx ▸ hc
              · exact ih List.mem_cons_self x hx
            · exact ih (List.mem_cons_of_mem _ hw)

/- A word is not empty and holds no separator. -/
theorem of_mem_words
    {sep : Char → Bool}
    {cs w : List Char}
    (hw : w ∈ words sep cs) :
    w ≠ [] ∧ ∀ c ∈ w, sep c = false := by
  obtain ⟨hMem, hNe⟩ := List.mem_filter.mp hw
  refine ⟨?_, not_sep_of_mem_pieces hMem⟩
  intro h
  simp [h] at hNe

/- Words joined by dashes. -/
def dashed
    (ws : List (List Char)) : String :=
  "-".intercalate (ws.map String.ofList)

end Text

end CallFlow
