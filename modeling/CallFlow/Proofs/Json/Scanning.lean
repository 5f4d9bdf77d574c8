import CallFlow.Json.Token

/-
  Scanning goes on from what has been found.

  Each lemma says what scanning a piece of a text adds to the
  tokens found, whatever comes after the piece.  Only a word
  must be followed by something that ends it.

  Main declarations:
    * `Json.tokensFrom`
    * `Json.tokensFrom_space`
    * `Json.tokensFrom_word`
-/

namespace CallFlow

namespace Json

------------------------------------------------------------
-- Scanning On
------------------------------------------------------------

/- The tokens of a text of which a part has been scanned. -/
def tokensFrom
    (s : Scan)
    (cs : List Char) : Option (List Token) :=
  (cs.foldlM Scan.step s).bind Scan.finish

/- One character is scanned before the others. -/
theorem tokensFrom_cons
    (s : Scan)
    (c : Char)
    (rest : List Char) :
    tokensFrom s (c :: rest) =
      (s.step c).bind fun s' => tokensFrom s' rest := by
  unfold tokensFrom
  rw [List.foldlM_cons]
  cases s.step c <;> rfl

/- A character with a known effect. -/
theorem tokensFrom_step
    {s s' : Scan}
    {c : Char}
    (h : s.step c = some s')
    (rest : List Char) :
    tokensFrom s (c :: rest) = tokensFrom s' rest := by
  rw [tokensFrom_cons, h]
  rfl

/- A space between tokens is passed over. -/
theorem tokensFrom_space
    {c : Char}
    (h : isSpace c = true)
    (found : List Token)
    (rest : List Char) :
    tokensFrom ⟨found, .between⟩ (c :: rest) =
      tokensFrom ⟨found, .between⟩ rest := by
  apply tokensFrom_step
  simp [Scan.step, Scan.fresh, h]

------------------------------------------------------------
-- Words
------------------------------------------------------------

/- Whether a text does not go on with a word. -/
def endsWord : List Char → Bool
  | [] => true
  | c :: _ => !isWordChar c

/- The characters of a word are not those of other tokens. -/
theorem not_isSpace_of_isWordChar
    {c : Char}
    (h : isWordChar c = true) :
    isSpace c = false ∧ c ≠ '"' := by
  refine ⟨?_, ?_⟩
  · refine Bool.eq_false_iff.mpr fun hSpace => ?_
    simp only [isSpace, Bool.or_eq_true, beq_iff_eq] at hSpace
    rcases hSpace with ((hc | hc) | hc) | hc <;>
      · subst hc
        revert h
        decide
  · intro hc
    subst hc
    revert h
    decide

/- A word that is ended is a token. -/
theorem tokensFrom_of_endsWord
    {seen : List Char}
    {t : Token}
    (hToken : wordOf? seen.reverse = some t)
    (found : List Token)
    {rest : List Char}
    (hEnds : endsWord rest = true) :
    tokensFrom ⟨found, .word seen⟩ rest =
      tokensFrom ⟨t :: found, .between⟩ rest := by
  cases rest with
  | nil => simp [tokensFrom, Scan.finish, hToken]
  | cons c rest =>
      have hNot : isWordChar c = false := by
        simpa [endsWord] using hEnds
      rw [tokensFrom_cons, tokensFrom_cons]
      simp [Scan.step, hNot, hToken]

/- A word that has begun is read on. -/
theorem tokensFrom_word_append
    {w : List Char}
    (hWord : w.all isWordChar = true)
    (found : List Token)
    (seen rest : List Char) :
    tokensFrom ⟨found, .word seen⟩ (w ++ rest) =
      tokensFrom ⟨found, .word (w.reverse ++ seen)⟩ rest := by
  induction w generalizing seen with
  | nil => rfl
  | cons c w ih =>
      rw [List.all_cons, Bool.and_eq_true] at hWord
      have hStep :
          Scan.step ⟨found, .word seen⟩ c =
            some ⟨found, .word (c :: seen)⟩ := by
        simp [Scan.step, hWord.1]
      rw [List.cons_append, tokensFrom_step hStep,
        ih hWord.2]
      simp

/- A whole word is a token. -/
theorem tokensFrom_word
    {w : List Char}
    {t : Token}
    (hNe : w ≠ [])
    (hWord : w.all isWordChar = true)
    (hToken : wordOf? w = some t)
    (found : List Token)
    {rest : List Char}
    (hEnds : endsWord rest = true) :
    tokensFrom ⟨found, .between⟩ (w ++ rest) =
      tokensFrom ⟨t :: found, .between⟩ rest := by
  cases w with
  | nil => exact absurd rfl hNe
  | cons c w =>
      rw [List.all_cons, Bool.and_eq_true] at hWord
      rcases not_isSpace_of_isWordChar hWord.1 with
        ⟨hSpace, hQuote⟩
      have hStep :
          Scan.step ⟨found, .between⟩ c =
            some ⟨found, .word [c]⟩ := by
        simp [Scan.step, Scan.fresh, hSpace, hQuote, hWord.1]
      have hSeen :
          wordOf? (w.reverse ++ [c]).reverse = some t := by
        simpa using hToken
      rw [List.cons_append, tokensFrom_step hStep,
        tokensFrom_word_append hWord.2]
      exact tokensFrom_of_endsWord hSeen found hEnds

end Json

end CallFlow
