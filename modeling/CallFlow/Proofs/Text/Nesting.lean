import CallFlow.Text.Safe
import Mathlib.Data.List.Infix
import Mathlib.Tactic.MkIffOfInductiveProp

/-
  What a text says that can stand in an argument as it is.

  The check runs over the characters with the number of the
  parentheses that are still open.  What it finds out is said
  by counting: as many are closed as are opened, and nowhere
  before are more closed than were opened.  A safe text leaves
  the depth as it was, so what is put together from safe texts
  is safe, wherever one of them is put, and a safe text in
  parentheses is closed by the last one.

  Main declarations:
    * `Text.Nested`
    * `Text.ClosesLast`
    * `Text.closes_iff`
    * `Text.isDialplanSafe_iff`
    * `Text.closesLast_of_isDialplanSafe`
    * `Text.closes_append`
    * `Text.isDialplanSafe_of_forall`
    * `Text.isDialplanSafe_insert`
    * `Text.isDialplanSafe_intercalate`
    * `Text.safe_texts_balanced`
-/

namespace CallFlow

namespace Text

------------------------------------------------------------
-- Counting
------------------------------------------------------------

/-
  Characters close `depth` parentheses more than they open,
  and no part from the start closes more.
-/
@[mk_iff]
structure Nested
    (depth : Nat)
    (cs : List Char) : Prop where
  closed : cs.count ')' = cs.count '(' + depth
  within : ∀ p, p <+: cs → p.count ')' ≤ p.count '(' + depth

/-
  Characters behind an open parenthesis close it with the last
  one of them, and with none before.
-/
structure ClosesLast
    (cs : List Char) : Prop where
  closed : cs.count ')' = cs.count '(' + 1
  before : ∀ p, p <+: cs → p ≠ cs → p.count ')' ≤ p.count '('

variable {depth : Nat}
variable {c : Char}
variable {cs ds : List Char}

/- A statement about all parts from the start. -/
private theorem forall_prefix_cons
    {P : List Char → Prop} :
    (∀ p, p <+: c :: cs → P p) ↔
      P [] ∧ ∀ p, p <+: cs → P (c :: p) := by
  simp only [List.prefix_cons_iff, or_imp, forall_and,
    forall_eq, exists_imp, and_imp]
  refine and_congr_right fun _ => ⟨fun h p hp => ?_, ?_⟩
  · exact h (c :: p) p rfl hp
  · rintro h q p rfl hp
    exact h p hp

/- No characters close nothing. -/
theorem nested_nil : Nested depth [] ↔ depth = 0 := by
  simp [nested_iff, eq_comm]

/- Behind an open parenthesis there is one more to close. -/
theorem nested_open :
    Nested depth ('(' :: cs) ↔ Nested (depth + 1) cs := by
  simp [nested_iff, forall_prefix_cons, Nat.add_assoc,
    Nat.add_comm 1]

/- Behind a closed one there is one less. -/
theorem nested_close :
    Nested (depth + 1) (')' :: cs) ↔ Nested depth cs := by
  simp [nested_iff, forall_prefix_cons, ← Nat.add_assoc]

/- If none is open then none can be closed. -/
theorem not_nested_close : ¬Nested 0 (')' :: cs) := by
  intro h
  have hWithin := h.within [')'] (by simp)
  simp at hWithin

/- No other character counts. -/
theorem nested_other
    (hOpen : c ≠ '(')
    (hClose : c ≠ ')') :
    Nested depth (c :: cs) ↔ Nested depth cs := by
  simp [nested_iff, forall_prefix_cons, hOpen, hClose]

/- What the check finds out about characters. -/
theorem closes_iff :
    closes depth cs = true ↔
      Nested depth cs ∧
        ∀ c ∈ cs, c ≠ ';' ∧ isControl c = false := by
  fun_induction closes depth cs with
  | case1 depth => simp [nested_nil]
  | case2 depth rest ih =>
      have hHere : '(' ≠ ';' ∧ isControl '(' = false := by
        decide
      rw [ih, nested_open, List.forall_mem_cons]
      exact and_congr_right fun _ =>
        (and_iff_right hHere).symm
  | case3 rest hOpen => simp [not_nested_close]
  | case4 rest depth hOpen ih =>
      have hHere : ')' ≠ ';' ∧ isControl ')' = false := by
        decide
      rw [ih, nested_close, List.forall_mem_cons]
      exact and_congr_right fun _ =>
        (and_iff_right hHere).symm
  | case5 depth c rest hOpen hClose hBad =>
      refine iff_of_false (by simp) fun h => ?_
      rcases h.2 c List.mem_cons_self with
        ⟨hSemicolon, hControl⟩
      simp [hSemicolon, hControl] at hBad
  | case6 depth c rest hOpen hClose hGood ih =>
      have hHere : c ≠ ';' ∧ isControl c = false := by
        simpa using hGood
      rw [ih, nested_other hOpen hClose,
        List.forall_mem_cons]
      exact and_congr_right fun _ =>
        (and_iff_right hHere).symm

/-
  A text is safe exactly if its parentheses are balanced, no
  part from the start closes more than it opens, and there is
  no semicolon and no control character.
-/
theorem isDialplanSafe_iff
    {s : String} :
    isDialplanSafe s = true ↔
      Nested 0 s.toList ∧
        ∀ c ∈ s.toList, c ≠ ';' ∧ isControl c = false :=
  closes_iff

/- A safe text in parentheses is closed by the last one. -/
theorem closesLast_of_isDialplanSafe
    {s : String}
    (hSafe : isDialplanSafe s = true) :
    ClosesLast (s ++ ")").toList := by
  have hNested := (isDialplanSafe_iff.mp hSafe).1
  rw [String.toList_append]
  refine ⟨?_, fun p hp hNe => ?_⟩
  · have hClosed := hNested.closed
    simpa using hClosed
  · rcases List.prefix_concat_iff.mp hp with rfl | hp
    · exact absurd rfl hNe
    · exact hNested.within p hp

------------------------------------------------------------
-- Putting Texts Together
------------------------------------------------------------

/- An open parenthesis is one more to close. -/
theorem closes_open :
    closes depth ('(' :: cs) = closes (depth + 1) cs := by
  rw [closes.eq_def]
  rfl

/- A closed one is one less. -/
theorem closes_close :
    closes (depth + 1) (')' :: cs) = closes depth cs := by
  rw [closes.eq_def]
  rfl

/- Any other character is passed over or refused. -/
theorem closes_other
    (hOpen : c ≠ '(')
    (hClose : c ≠ ')')
    (hGood : ¬(c = ';' || isControl c) = true) :
    closes depth (c :: cs) = closes depth cs := by
  rw [closes.eq_def]
  simp only [if_neg hOpen, if_neg hClose, if_neg hGood]

/- Characters that close all they open can be left out. -/
theorem closes_append
    {inner : Nat}
    (hInner : closes inner cs = true) :
    closes (depth + inner) (cs ++ ds) = closes depth ds := by
  fun_induction closes inner cs with
  | case1 inner =>
      have hZero : inner = 0 := by simpa using hInner
      rw [hZero, Nat.add_zero, List.nil_append]
  | case2 inner rest ih =>
      rw [← ih hInner, List.cons_append, closes_open,
        Nat.add_assoc]
  | case3 => cases hInner
  | case4 rest inner hOpen ih =>
      rw [← ih hInner, List.cons_append, Nat.add_succ,
        closes_close]
  | case5 => cases hInner
  | case6 inner c rest hOpen hClose hGood ih =>
      rw [← ih hInner, List.cons_append,
        closes_other hOpen hClose hGood]

/- A safe text in front changes nothing. -/
theorem closes_append_of_isDialplanSafe
    {s : String}
    (hSafe : isDialplanSafe s = true) :
    closes depth (s.toList ++ ds) = closes depth ds :=
  closes_append hSafe

/- A text without any of the characters that count is safe. -/
theorem isDialplanSafe_of_forall
    {s : String}
    (h :
      ∀ c ∈ s.toList,
        c ≠ '(' ∧ c ≠ ')' ∧ c ≠ ';' ∧ isControl c = false) :
    isDialplanSafe s = true := by
  unfold isDialplanSafe
  generalize s.toList = cs at h
  induction cs with
  | nil => rfl
  | cons c rest ih =>
      rcases List.forall_mem_cons.mp h with
        ⟨⟨hOpen, hClose, hSemicolon, hControl⟩, hMore⟩
      rw [closes_other hOpen hClose
        (by simp [hSemicolon, hControl])]
      exact ih hMore

/- A safe text in parentheses is safe. -/
theorem isDialplanSafe_enclosed
    {s : String}
    (hSafe : isDialplanSafe s = true) :
    isDialplanSafe ("(" ++ s ++ ")") = true := by
  rw [isDialplanSafe, String.toList_append,
    String.toList_append]
  show closes 0 ('(' :: (s.toList ++ [')'])) = true
  rw [closes_open, closes_append_of_isDialplanSafe hSafe]
  rfl

/- Safe texts one after another are safe. -/
theorem isDialplanSafe_append
    {s t : String}
    (hs : isDialplanSafe s = true)
    (ht : isDialplanSafe t = true) :
    isDialplanSafe (s ++ t) = true := by
  rw [isDialplanSafe, String.toList_append,
    closes_append_of_isDialplanSafe hs]
  exact ht

/- What follows counts by what it does at each depth. -/
theorem closes_append_congr
    {es : List Char}
    (h : ∀ depth, closes depth ds = closes depth es) :
    closes depth (cs ++ ds) = closes depth (cs ++ es) := by
  induction cs generalizing depth with
  | nil => exact h depth
  | cons c rest ih => simp only [List.cons_append, closes, ih]

/- A safe text can be put anywhere into a safe text. -/
theorem isDialplanSafe_insert
    {before after inner : String}
    (hOuter : isDialplanSafe (before ++ after) = true)
    (hInner : isDialplanSafe inner = true) :
    isDialplanSafe (before ++ inner ++ after) = true := by
  rw [isDialplanSafe, String.toList_append] at hOuter
  rw [isDialplanSafe, String.toList_append,
    String.toList_append, List.append_assoc]
  rw [← hOuter]
  exact closes_append_congr fun _ =>
    closes_append_of_isDialplanSafe hInner

/- So are safe texts joined by a safe text. -/
theorem isDialplanSafe_intercalate
    {joint : String}
    {texts : List String}
    (hJoint : isDialplanSafe joint = true)
    (hTexts : ∀ t ∈ texts, isDialplanSafe t = true) :
    isDialplanSafe (joint.intercalate texts) = true := by
  induction texts with
  | nil => rfl
  | cons t rest ih =>
      rcases List.forall_mem_cons.mp hTexts with
        ⟨hHere, hMore⟩
      cases rest with
      | nil => simpa using hHere
      | cons t' rest =>
          rw [String.intercalate_cons_cons]
          exact isDialplanSafe_append
            (isDialplanSafe_append hHere hJoint) (ih hMore)

------------------------------------------------------------
-- The Safe Texts
------------------------------------------------------------

/- The two ranges of control characters. -/
theorem isControl_eq_false_iff :
    isControl c = false ↔
      ¬(c.toNat ≤ 0x1f ∨ 0x7f ≤ c.toNat ∧ c.toNat ≤ 0x9f) := by
  simp only [isControl, Bool.or_eq_false_iff,
    Bool.and_eq_false_iff, decide_eq_false_iff_not]
  omega

/-
  The texts that can stand in an argument as they are.  They
  hold no semicolon and no control character, no part from
  the start closes more parentheses than it opens, and as many
  are closed as are opened.  So one behind another is such a
  text again, and so are one put anywhere into another and one
  in parentheses.
-/
theorem safe_texts_balanced :
    (∀ s : String,
      isDialplanSafe s = true ↔
        (∀ c ∈ s.toList,
          c ≠ ';' ∧
            ¬(c.toNat ≤ 0x1f ∨
              0x7f ≤ c.toNat ∧ c.toNat ≤ 0x9f)) ∧
        (∀ p, p <+: s.toList → p.count ')' ≤ p.count '(') ∧
        s.toList.count '(' = s.toList.count ')') ∧
    (∀ s t,
      isDialplanSafe s = true → isDialplanSafe t = true →
        isDialplanSafe (s ++ t) = true) ∧
    (∀ before after inner,
      isDialplanSafe (before ++ after) = true →
        isDialplanSafe inner = true →
          isDialplanSafe (before ++ inner ++ after) = true) ∧
    ∀ s, isDialplanSafe s = true →
      isDialplanSafe ("(" ++ s ++ ")") = true := by
  refine ⟨fun s => ?_, fun s t => isDialplanSafe_append,
    fun before after inner => isDialplanSafe_insert,
    fun s => isDialplanSafe_enclosed⟩
  simp only [← isControl_eq_false_iff]
  rw [isDialplanSafe_iff]
  constructor
  · rintro ⟨hNested, hChars⟩
    exact ⟨hChars, hNested.within, hNested.closed.symm⟩
  · rintro ⟨hChars, hWithin, hClosed⟩
    exact ⟨⟨hClosed.symm, hWithin⟩, hChars⟩

/-
  Music for a caller on hold is put between the two halves of
  the options of a call, and all of it into parentheses.
-/
theorem safe_texts_balanced_options :
    isDialplanSafe "tTU(beep)" = true ∧
      isDialplanSafe "m(hold)" = true ∧
      isDialplanSafe "tTm(hold)U(beep)" = true ∧
      isDialplanSafe "(tTm(hold)U(beep))" = true ∧
      isDialplanSafe "tTm(hold" = false := by
  have hOuter : isDialplanSafe ("tT" ++ "U(beep)") = true := by
    decide +kernel
  have hInner : isDialplanSafe "m(hold)" = true := by
    decide +kernel
  have hWhole :=
    safe_texts_balanced.2.2.1 "tT" "U(beep)" "m(hold)" hOuter
      hInner
  exact
    ⟨hOuter, hInner, hWhole,
      safe_texts_balanced.2.2.2 _ hWhole, by decide +kernel⟩

end Text

end CallFlow
