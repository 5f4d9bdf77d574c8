import CallFlow.Proofs.Json.Scanning

/-
  The spelling of tokens in a text.

  A text spells its tokens one after the other, with white
  space wherever there is no word and no string.  Scanning
  finds exactly the tokens that are spelled.  To see that it
  finds no others, the rest of a text is known for each mode
  that the scanner can be in.

  Main declarations:
    * `Json.Inside`
    * `Json.Spells`
    * `Json.Mode.Rest`
    * `Json.tokens?_eq_some_iff`
-/

namespace CallFlow

namespace Json

variable {c : Char}
variable {cs rest : List Char}
variable {t : Token}
variable {ts : List Token}

------------------------------------------------------------
-- Spelling
------------------------------------------------------------

/- What can stand between the quotes of a string. -/
inductive Inside : List Char → Prop where
  | nil : Inside []
  | plain
      {c : Char}
      {cs : List Char}
      (hQuote : c ≠ '"')
      (hSlash : c ≠ '\\')
      (h : Inside cs) : Inside (c :: cs)
  | escape
      {c : Char}
      {cs : List Char}
      (h : Inside cs) : Inside ('\\' :: c :: cs)

/- Tokens, and a text that they are spelled in. -/
inductive Spells : List Token → List Char → Prop where
  | nil : Spells [] []
  | space
      {c : Char}
      {ts : List Token}
      {cs : List Char}
      (hSpace : isSpace c = true)
      (h : Spells ts cs) : Spells ts (c :: cs)
  | mark
      {c : Char}
      {t : Token}
      {ts : List Token}
      {cs : List Char}
      (hMark : mark? c = some t)
      (h : Spells ts cs) : Spells (t :: ts) (c :: cs)
  | word
      {w : List Char}
      {t : Token}
      {ts : List Token}
      {cs : List Char}
      (hWord : w.all isWordChar = true)
      (hToken : wordOf? w = some t)
      (hEnds : endsWord cs = true)
      (h : Spells ts cs) : Spells (t :: ts) (w ++ cs)
  | text
      {body : List Char}
      {t : Token}
      {ts : List Token}
      {cs : List Char}
      (hInside : Inside body)
      (hToken : textOf? body = some t)
      (h : Spells ts cs) :
      Spells (t :: ts) ('"' :: body ++ '"' :: cs)

------------------------------------------------------------
-- Tokens That Are Spelled
------------------------------------------------------------

/- Nothing is no word. -/
theorem wordOf?_nil : wordOf? [] = none :=
  rfl

/- A mark is no space, no quote and no part of a word. -/
theorem fresh_of_mark?
    (h : mark? c = some t)
    (found : List Token) :
    Scan.fresh found c = some ⟨t :: found, .between⟩ := by
  unfold mark? at h
  split at h <;> cases h <;> rfl

/- Scanning goes on over the inside of a string. -/
theorem tokensFrom_inside
    {body : List Char}
    (h : Inside body)
    (found : List Token)
    (seen rest : List Char) :
    tokensFrom ⟨found, .quoted seen⟩ (body ++ rest) =
      tokensFrom ⟨found, .quoted (body.reverse ++ seen)⟩
        rest := by
  induction h generalizing seen with
  | nil => rfl
  | @plain c cs hQuote hSlash h ih =>
      have hStep :
          Scan.step ⟨found, .quoted seen⟩ c =
            some ⟨found, .quoted (c :: seen)⟩ := by
        simp [Scan.step, hQuote, hSlash]
      rw [List.cons_append, tokensFrom_step hStep, ih]
      simp
  | @escape c cs h ih =>
      have hFirst :
          Scan.step ⟨found, .quoted seen⟩ '\\' =
            some ⟨found, .escape ('\\' :: seen)⟩ := by
        simp [Scan.step]
      have hSecond :
          Scan.step ⟨found, .escape ('\\' :: seen)⟩ c =
            some ⟨found, .quoted (c :: '\\' :: seen)⟩ :=
        rfl
      rw [List.cons_append, List.cons_append,
        tokensFrom_step hFirst, tokensFrom_step hSecond, ih]
      simp

/- A string is a token, whatever comes after it. -/
theorem tokensFrom_text
    {body : List Char}
    (hInside : Inside body)
    (hToken : textOf? body = some t)
    (found : List Token)
    (rest : List Char) :
    tokensFrom ⟨found, .between⟩
        ('"' :: body ++ '"' :: rest) =
      tokensFrom ⟨t :: found, .between⟩ rest := by
  have hOpen :
      Scan.step ⟨found, .between⟩ '"' =
        some ⟨found, .quoted []⟩ := by
    simp [Scan.step, Scan.fresh, isSpace]
  have hClose :
      Scan.step ⟨found, .quoted (body.reverse ++ [])⟩ '"' =
        some ⟨t :: found, .between⟩ := by
    simp [Scan.step, hToken]
  rw [List.cons_append, tokensFrom_step hOpen,
    tokensFrom_inside hInside, tokensFrom_step hClose]

/- The tokens that are spelled are found. -/
theorem tokensFrom_of_spells
    (h : Spells ts cs)
    (found : List Token) :
    tokensFrom ⟨found, .between⟩ cs =
      some (found.reverse ++ ts) := by
  induction h generalizing found with
  | nil => simp [tokensFrom, Scan.finish]
  | space hSpace h ih =>
      rw [tokensFrom_space hSpace, ih]
  | @mark c t ts cs hMark h ih =>
      have hStep :
          Scan.step ⟨found, .between⟩ c =
            some ⟨t :: found, .between⟩ :=
        fresh_of_mark? hMark found
      rw [tokensFrom_step hStep, ih]
      simp
  | @word w t ts cs hWord hToken hEnds h ih =>
      have hNe : w ≠ [] := by
        rintro rfl
        rw [wordOf?_nil] at hToken
        cases hToken
      rw [tokensFrom_word hNe hWord hToken found hEnds, ih]
      simp
  | text hInside hToken h ih =>
      rw [tokensFrom_text hInside hToken, ih]
      simp

------------------------------------------------------------
-- Tokens That Are Found
------------------------------------------------------------

/-
  What comes after the characters that were seen, for tokens
  to be found from there on.
-/
def Mode.Rest
    (ts : List Token)
    (cs : List Char) : Mode → Prop
  | .between => Spells ts cs
  | .word seen =>
      ∃ w rest t us,
        cs = w ++ rest ∧ ts = t :: us ∧
          w.all isWordChar = true ∧ endsWord rest = true ∧
          wordOf? (seen.reverse ++ w) = some t ∧
          Spells us rest
  | .quoted seen =>
      ∃ body rest t us,
        cs = body ++ '"' :: rest ∧ ts = t :: us ∧
          Inside body ∧
          textOf? (seen.reverse ++ body) = some t ∧
          Spells us rest
  | .escape seen =>
      ∃ c body rest t us,
        cs = c :: body ++ '"' :: rest ∧ ts = t :: us ∧
          Inside body ∧
          textOf? (seen.reverse ++ c :: body) = some t ∧
          Spells us rest

/- The tokens of a text of which some have been found. -/
def Scan.Leads
    (s : Scan)
    (ts : List Token)
    (cs : List Char) : Prop :=
  ∃ us, ts = s.found.reverse ++ us ∧ s.mode.Rest us cs

/- A character between tokens begins the next or is space. -/
theorem leads_of_fresh
    {found : List Token}
    {s : Scan}
    (hStep : Scan.fresh found c = some s)
    (h : s.Leads ts cs) :
    Scan.Leads ⟨found, .between⟩ ts (c :: cs) := by
  rcases h with ⟨us, rfl, hRest⟩
  unfold Scan.fresh at hStep
  split at hStep
  · rename_i hSpace
    cases hStep
    exact ⟨us, rfl, .space hSpace hRest⟩
  · split at hStep
    · rename_i hQuote
      cases hStep
      rcases hRest with
        ⟨body, rest, t, us, rfl, rfl, hInside, hToken, hMore⟩
      subst hQuote
      exact ⟨_, rfl, .text hInside hToken hMore⟩
    · split at hStep
      · rename_i hChar
        cases hStep
        rcases hRest with
          ⟨w, rest, t, us, rfl, rfl, hWord, hEnds, hToken,
            hMore⟩
        have hWhole : (c :: w).all isWordChar = true := by
          simp [hChar, hWord]
        exact ⟨_, rfl, .word hWhole hToken hEnds hMore⟩
      · rcases Option.map_eq_some_iff.mp hStep with
          ⟨t, hMark, rfl⟩
        exact ⟨t :: us, by simp, .mark hMark hRest⟩

/- One character, and the tokens that are found after it. -/
theorem leads_of_step
    {s s' : Scan}
    (hStep : s.step c = some s')
    (h : s'.Leads ts cs) : s.Leads ts (c :: cs) := by
  rcases s with ⟨found, mode⟩
  cases mode with
  | between => exact leads_of_fresh hStep h
  | word seen =>
      simp only [Scan.step] at hStep
      split at hStep
      · rename_i hChar
        cases hStep
        rcases h with ⟨us, rfl, hRest⟩
        rcases hRest with
          ⟨w, rest, t, us, rfl, rfl, hWord, hEnds, hToken,
            hMore⟩
        refine ⟨_, rfl, c :: w, rest, t, us, rfl, rfl, ?_,
          hEnds, by simpa using hToken, hMore⟩
        simp [hChar, hWord]
      · rename_i hNot
        rcases Option.bind_eq_some_iff.mp hStep with
          ⟨t, hToken, hFresh⟩
        rcases leads_of_fresh hFresh h with ⟨us, rfl, hMore⟩
        refine ⟨t :: us, by simp, [], c :: cs, t, us, rfl, rfl,
          rfl, by simp [endsWord, hNot], by simpa using hToken,
          hMore⟩
  | quoted seen =>
      simp only [Scan.step] at hStep
      split at hStep
      · rename_i hQuote
        subst hQuote
        rcases Option.map_eq_some_iff.mp hStep with
          ⟨t, hToken, rfl⟩
        rcases h with ⟨us, rfl, hMore⟩
        exact ⟨t :: us, by simp, [], cs, t, us, rfl, rfl, .nil,
          by simpa using hToken, hMore⟩
      · rename_i hQuote
        split at hStep
        · rename_i hSlash
          cases hStep
          subst hSlash
          rcases h with ⟨us, rfl, hRest⟩
          rcases hRest with
            ⟨d, body, rest, t, us, rfl, rfl, hInside, hToken,
              hMore⟩
          exact ⟨_, rfl, '\\' :: d :: body, rest, t, us, rfl,
            rfl, .escape hInside, by simpa using hToken, hMore⟩
        · rename_i hSlash
          cases hStep
          rcases h with ⟨us, rfl, hRest⟩
          rcases hRest with
            ⟨body, rest, t, us, rfl, rfl, hInside, hToken,
              hMore⟩
          exact ⟨_, rfl, c :: body, rest, t, us, rfl, rfl,
            .plain hQuote hSlash hInside,
            by simpa using hToken, hMore⟩
  | escape seen =>
      cases hStep
      rcases h with ⟨us, rfl, hRest⟩
      rcases hRest with
        ⟨body, rest, t, us, rfl, rfl, hInside, hToken, hMore⟩
      exact ⟨_, rfl, c, body, rest, t, us, rfl, rfl, hInside,
        by simpa using hToken, hMore⟩

/- The tokens that are found are those that come next. -/
theorem leads_of_tokensFrom
    {s : Scan}
    (h : tokensFrom s cs = some ts) : s.Leads ts cs := by
  induction cs generalizing s with
  | nil =>
      rcases s with ⟨found, mode⟩
      cases mode with
      | between =>
          refine ⟨[], ?_, .nil⟩
          simpa [tokensFrom, Scan.finish, eq_comm] using h
      | word seen =>
          rcases Option.map_eq_some_iff.mp h with
            ⟨t, hToken, rfl⟩
          exact ⟨[t], by simp, [], [], t, [], rfl, rfl, rfl,
            rfl, by simpa using hToken, .nil⟩
      | quoted seen => cases h
      | escape seen => cases h
  | cons c cs ih =>
      rw [tokensFrom_cons] at h
      rcases Option.bind_eq_some_iff.mp h with
        ⟨s', hStep, hRest⟩
      exact leads_of_step hStep (ih hRest)

/- A text is cut into exactly the tokens that it spells. -/
theorem tokens?_eq_some_iff :
    tokens? cs = some ts ↔ Spells ts cs := by
  constructor
  · intro h
    rcases leads_of_tokensFrom h with ⟨us, rfl, hSpells⟩
    exact hSpells
  · exact fun h => tokensFrom_of_spells h []

end Json

end CallFlow
