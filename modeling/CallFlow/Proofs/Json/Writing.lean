import CallFlow.Json.Printer
import CallFlow.Proofs.Json.Spelling
import CallFlow.Proofs.Number.Numeral

/-
  Written data spells the tokens that it was written from, in
  both layouts.

  Each lemma says which tokens a piece of the text spells,
  before others that are spelled after the piece.  Only a
  word must be followed by something that ends it, which the
  marks and the white space of the layouts do.

  Main declarations:
    * `Json.Writable`
    * `Json.tokensOf`
    * `Json.spells_quoted`
    * `Json.spells_charsAt`
-/

namespace CallFlow

------------------------------------------------------------
-- Data That Can Be Written
------------------------------------------------------------

/- A numeral that is scanned as it is written. -/
def Numeral.Writable
    (n : Numeral) : Prop :=
  n.chars ≠ [] ∧ n.chars.all Json.isWordChar = true ∧
    Json.wordOf? n.chars = some (.number n)

namespace Json

/- Data whose written form stands for it. -/
inductive Writable : Json → Prop where
  | null : Writable .null
  | bool (b : Bool) : Writable (.bool b)
  | number
      {n : Numeral}
      (h : n.Writable) : Writable (.number n)
  | string (s : String) : Writable (.string s)
  | list
      {items : List Json}
      (h : ∀ j ∈ items, Writable j) : Writable (.list items)
  | object
      {members : List (String × Json)}
      (h : ∀ m ∈ members, Writable m.2) :
      Writable (.object members)

mutual

/- The tokens that data is written from. -/
def tokensOf : Json → List Token
  | null => [.null]
  | bool b => [.bool b]
  | number n => [.number n]
  | string s => [.text (some s)]
  | list items =>
      .beginList :: itemTokens items ++ [.endList]
  | object members =>
      .beginObject :: memberTokens members ++ [.endObject]
  | broken => [.text none]

/- The tokens that the items of a list are written from. -/
def itemTokens : List Json → List Token
  | [] => []
  | j :: js =>
      tokensOf j ++
        (if js.isEmpty then [] else .comma :: itemTokens js)

/- The tokens that the members of an object are written from. -/
def memberTokens : List (String × Json) → List Token
  | [] => []
  | (name, j) :: ms =>
      .text (some name) :: .colon :: tokensOf j ++
        (if ms.isEmpty then [] else .comma :: memberTokens ms)

end

------------------------------------------------------------
-- Words
------------------------------------------------------------

/- The numerals of integers are written as words. -/
theorem writable_ofInt
    (n : Int) : (Numeral.ofInt n).Writable := by
  have hDigit : ∀ c ∈ Numeral.digitsOf n.natAbs,
      c.isDigit = true :=
    fun c hc => Numeral.isDigit_of_mem_digitsOf hc
  have hChars : ∀ c ∈ (Numeral.ofInt n).chars,
      c = '-' ∨ c.isDigit = true := by
    intro c hc
    rw [Numeral.chars_ofInt] at hc
    split at hc
    · rcases List.mem_cons.mp hc with hSign | hMem
      · exact Or.inl hSign
      · exact Or.inr (hDigit c hMem)
    · exact Or.inr (hDigit c hc)
  -- So the word is none of those that stand for themselves.
  have hNotWord : ∀ c : Char, c ≠ '-' → c.isDigit = false →
      ∀ w, (Numeral.ofInt n).chars ≠ c :: w := by
    intro c hSign hNotDigit w hSame
    have hMem : c ∈ (Numeral.ofInt n).chars := by
      rw [hSame]
      exact List.mem_cons_self
    rcases hChars c hMem with hMinus | hIsDigit
    · exact hSign hMinus
    · rw [hNotDigit] at hIsDigit
      cases hIsDigit
  refine ⟨?_, ?_, ?_⟩
  · rw [Numeral.chars_ofInt]
    split
    · exact List.cons_ne_nil _ _
    · exact Numeral.digitsOf_ne_nil _
  · rw [List.all_eq_true]
    intro c hc
    rcases hChars c hc with hMinus | hIsDigit
    · subst hMinus
      decide
    · simp [isWordChar, Char.isAlphanum, hIsDigit]
  · unfold wordOf?
    rw [if_neg (hNotWord 'n' (by decide) (by decide) _),
      if_neg (hNotWord 't' (by decide) (by decide) _),
      if_neg (hNotWord 'f' (by decide) (by decide) _),
      Numeral.ofChars?_chars_ofInt]
    rfl

------------------------------------------------------------
-- Strings
------------------------------------------------------------

/- The characters below the space have an escape in digits. -/
private theorem hexFour?_codeEscape :
    ∀ n < 0x20,
      hexFour? (hexChar (n / 4096 % 16))
          (hexChar (n / 256 % 16)) (hexChar (n / 16 % 16))
          (hexChar (n % 16)) = some n := by
  decide +kernel

/- The digits of an escape stand for themselves. -/
private theorem hexChar_plain :
    ∀ d < 16, hexChar d ≠ '"' ∧ hexChar d ≠ '\\' := by
  decide +kernel

/- A plain character between quotes stands for itself. -/
private theorem codes?_cons
    {c : Char}
    (hPlain : c ≠ '\\')
    (hVisible : ¬ c.toNat < 0x20)
    (rest : List Char) :
    codes? (c :: rest) =
      (codes? rest).map fun ns => c.toNat :: ns := by
  rw [codes?.eq_def]
  split
  · rename_i hNil
    cases hNil
  · rename_i hCons
    exact absurd (List.cons.inj hCons).1 hPlain
  · rename_i hCons
    exact absurd (List.cons.inj hCons).1 hPlain
  · rename_i hCons
    exact absurd (List.cons.inj hCons).1 hPlain
  · rename_i hCons
    cases hCons
    exact if_neg hVisible

/- A quoted character stands for its code point. -/
private theorem codes?_quotedChar
    (c : Char)
    (rest : List Char) :
    codes? (quotedChar c ++ rest) =
      (codes? rest).map fun ns => c.toNat :: ns := by
  unfold quotedChar
  split
  · cases h : codes? rest <;> simp [codes?, escaped?, h]
  · cases h : codes? rest <;> simp [codes?, escaped?, h]
  · cases h : codes? rest <;> simp [codes?, escaped?, h]
  · cases h : codes? rest <;> simp [codes?, escaped?, h]
  · cases h : codes? rest <;> simp [codes?, escaped?, h]
  · cases h : codes? rest <;> simp [codes?, escaped?, h]
  · cases h : codes? rest <;> simp [codes?, escaped?, h]
  · rename_i hQuote hSlash _ _ _ _ _
    by_cases hControl : c.toNat < 0x20
    · rw [if_pos hControl]
      have hDigits := hexFour?_codeEscape c.toNat hControl
      unfold codeEscape
      simp only [List.cons_append, List.nil_append]
      rw [codes?, hDigits]
      cases codes? rest <;> rfl
    · rw [if_neg hControl]
      exact codes?_cons hSlash hControl rest

/- Characters are no halves of surrogate pairs. -/
private theorem not_isHigh_toNat
    (c : Char) :
    isHigh c.toNat = false ∧ isLow c.toNat = false := by
  have hValid : c.toNat < 0xd800 ∨
      (0xdfff < c.toNat ∧ c.toNat < 0x110000) := c.valid
  constructor <;>
    · simp only [isHigh, isLow, Bool.and_eq_false_iff,
        decide_eq_false_iff_not]
      omega

/- The code points of a text join to the text. -/
private theorem join?_map_toNat
    (cs : List Char) :
    join? (cs.map Char.toNat) = some cs := by
  induction cs with
  | nil => rfl
  | cons c cs ih =>
      rcases not_isHigh_toNat c with ⟨hHigh, hLow⟩
      cases cs with
      | nil => simp [join?, hHigh, hLow]
      | cons d ds =>
          rw [List.map_cons] at ih
          simp [join?, hHigh, hLow, ih]

/- What stands between the quotes of a text is its token. -/
private theorem textOf?_flatMap
    (cs : List Char) :
    textOf? (cs.flatMap quotedChar) =
      some (.text (some (String.ofList cs))) := by
  have hCodes :
      codes? (cs.flatMap quotedChar) =
        some (cs.map Char.toNat) := by
    induction cs with
    | nil => rfl
    | cons c cs ih =>
        rw [List.flatMap_cons, codes?_quotedChar, ih]
        rfl
  unfold textOf?
  rw [hCodes, Option.map_some, join?_map_toNat]
  rfl

/- What stands between quotes, one piece after the other. -/
theorem Inside.append
    {body rest : List Char}
    (h : Inside body)
    (hRest : Inside rest) : Inside (body ++ rest) := by
  induction h with
  | nil => exact hRest
  | plain hQuote hSlash h ih => exact .plain hQuote hSlash ih
  | escape h ih => exact .escape ih

/- A quoted character can stand between quotes. -/
theorem inside_quotedChar
    (c : Char) : Inside (quotedChar c) := by
  unfold quotedChar
  split
  · exact .escape .nil
  · exact .escape .nil
  · exact .escape .nil
  · exact .escape .nil
  · exact .escape .nil
  · exact .escape .nil
  · exact .escape .nil
  · rename_i hQuote hSlash _ _ _ _ _
    by_cases hControl : c.toNat < 0x20
    · rw [if_pos hControl]
      have hDigit := fun n : Nat =>
        hexChar_plain (n % 16) (Nat.mod_lt n (by decide))
      exact .escape
        (.plain (hDigit _).1 (hDigit _).2
        (.plain (hDigit _).1 (hDigit _).2
        (.plain (hDigit _).1 (hDigit _).2
        (.plain (hDigit _).1 (hDigit _).2 .nil))))
    · rw [if_neg hControl]
      exact .plain hQuote hSlash .nil

/- So can any characters that are quoted. -/
theorem inside_flatMap_quotedChar
    (cs : List Char) : Inside (cs.flatMap quotedChar) := by
  induction cs with
  | nil => exact .nil
  | cons c cs ih =>
      rw [List.flatMap_cons]
      exact (inside_quotedChar c).append ih

------------------------------------------------------------
-- Data
------------------------------------------------------------

variable {ts : List Token}
variable {cs : List Char}

/- What a layout puts between tokens is white space. -/
theorem spells_gap
    (l : Layout)
    (depth : Nat)
    (h : Spells ts cs) : Spells ts (l.gap depth ++ cs) := by
  have hSpaces : ∀ k,
      Spells ts (List.replicate k ' ' ++ cs) := by
    intro k
    induction k with
    | zero => exact h
    | succ k ih => exact .space rfl ih
  cases l with
  | compact => exact h
  | indented => exact .space rfl (hSpaces (2 * depth))

/- So is what a layout puts after a colon. -/
theorem spells_pause
    (l : Layout)
    (h : Spells ts cs) : Spells ts (l.pause ++ cs) := by
  cases l with
  | compact => exact h
  | indented => exact .space rfl h

/- A quoted text is a token, whatever comes after it. -/
theorem spells_quoted
    (s : String)
    (h : Spells ts cs) :
    Spells (.text (some s) :: ts) (quoted s ++ cs) := by
  have hToken :
      textOf? (s.toList.flatMap quotedChar) =
        some (.text (some s)) := by
    rw [textOf?_flatMap, String.ofList_toList]
  have hText : Spells _ _ :=
    .text (inside_flatMap_quotedChar s.toList) hToken h
  unfold quoted
  simpa using hText

/- What follows a part of a list or an object ends a word. -/
theorem endsWord_gap
    (l : Layout)
    (depth : Nat)
    {c : Char}
    (hNotWord : isWordChar c = false)
    (rest : List Char) :
    endsWord (l.gap depth ++ c :: rest) = true := by
  cases l with
  | compact => simp [Layout.gap, endsWord, hNotWord]
  | indented => rfl

/- The tokens of items are spelled, if those of each item are. -/
theorem spells_itemChars
    {l : Layout}
    {depth : Nat}
    {items : List Json}
    (hItems :
      ∀ j ∈ items, ∀ ts cs, endsWord cs = true →
        Spells ts cs →
          Spells (tokensOf j ++ ts) (charsAt l depth j ++ cs))
    (hEnds : endsWord cs = true)
    (h : Spells ts cs) :
    Spells (itemTokens items ++ ts)
      (itemChars l depth items ++ cs) := by
  induction items with
  | nil => exact h
  | cons j js ih =>
      have hHead := hItems j List.mem_cons_self
      have hRest := ih fun k hk =>
        hItems k (List.mem_cons_of_mem j hk)
      unfold itemChars itemTokens
      simp only [List.append_assoc]
      apply spells_gap
      cases js with
      | nil => exact hHead _ _ hEnds h
      | cons k ks => exact hHead _ _ rfl (.mark rfl hRest)

/- The tokens of the members of an object, likewise. -/
theorem spells_memberChars
    {l : Layout}
    {depth : Nat}
    {members : List (String × Json)}
    (hMembers :
      ∀ m ∈ members, ∀ ts cs, endsWord cs = true →
        Spells ts cs →
          Spells (tokensOf m.2 ++ ts)
            (charsAt l depth m.2 ++ cs))
    (hEnds : endsWord cs = true)
    (h : Spells ts cs) :
    Spells (memberTokens members ++ ts)
      (memberChars l depth members ++ cs) := by
  induction members with
  | nil => exact h
  | cons m ms ih =>
      rcases m with ⟨name, j⟩
      have hHead := hMembers (name, j) List.mem_cons_self
      have hRest := ih fun k hk =>
        hMembers k (List.mem_cons_of_mem (name, j) hk)
      unfold memberChars memberTokens
      simp only [List.append_assoc, List.cons_append]
      refine spells_gap l depth (spells_quoted name
        (.mark rfl (spells_pause l ?_)))
      cases ms with
      | nil => exact hHead _ _ hEnds h
      | cons k ks => exact hHead _ _ rfl (.mark rfl hRest)

/-
  Written data spells its tokens, before others if what comes
  after does not go on with a word.
-/
theorem spells_charsAt
    {j : Json}
    (hWritable : j.Writable)
    (l : Layout)
    (depth : Nat)
    (hEnds : endsWord cs = true)
    (h : Spells ts cs) :
    Spells (tokensOf j ++ ts) (charsAt l depth j ++ cs) := by
  induction hWritable generalizing depth ts cs with
  | null =>
      exact .word (w := ['n', 'u', 'l', 'l']) rfl rfl hEnds h
  | bool b =>
      cases b with
      | true =>
          exact .word (w := ['t', 'r', 'u', 'e']) rfl rfl hEnds
            h
      | false =>
          exact .word (w := ['f', 'a', 'l', 's', 'e']) rfl rfl
            hEnds h
  | number hNumber =>
      rcases hNumber with ⟨-, hWord, hToken⟩
      exact .word hWord hToken hEnds h
  | string s => exact spells_quoted s h
  | @list items _ ih =>
      unfold charsAt tokensOf
      cases items with
      | nil => exact .mark rfl (.mark rfl h)
      | cons k ks =>
          have hClose :
              Spells (.endList :: ts)
                (l.gap depth ++ ']' :: cs) :=
            spells_gap l depth (.mark rfl h)
          have hItems := spells_itemChars
            (fun j hj _ _ hEnds h => ih j hj (depth + 1) hEnds h)
            (endsWord_gap l depth rfl cs) hClose
          simpa using Spells.mark rfl hItems
  | @object members _ ih =>
      unfold charsAt tokensOf
      cases members with
      | nil => exact .mark rfl (.mark rfl h)
      | cons k ks =>
          have hClose :
              Spells (.endObject :: ts)
                (l.gap depth ++ '\x7d' :: cs) :=
            spells_gap l depth (.mark rfl h)
          have hMembers := spells_memberChars
            (fun m hm _ _ hEnds h =>
              ih m hm (depth + 1) hEnds h)
            (endsWord_gap l depth rfl cs) hClose
          simpa using Spells.mark rfl hMembers

end Json

end CallFlow
