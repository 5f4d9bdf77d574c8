import CallFlow.Number.Numeral
import Mathlib.Data.List.TakeWhile

/-
  The numerals of integers are read back as they are written.

  Main declarations:
    * `Numeral.isDigit_of_mem_digitsOf`
    * `Numeral.toString_injective`
    * `Numeral.wholeOk_digitsOf`
    * `Numeral.ofChars?_chars_ofInt`
-/

namespace CallFlow

namespace Numeral

------------------------------------------------------------
-- Digits
------------------------------------------------------------

/- The digits of a number are digits. -/
theorem isDigit_of_mem_digitsOf
    {n : Nat}
    {c : Char}
    (h : c ∈ digitsOf n) : c.isDigit = true :=
  Nat.isDigit_of_mem_toDigits (by decide) (by decide) h

/- A number is shown by its digits. -/
theorem toList_toString
    (n : Nat) : (toString n).toList = digitsOf n :=
  Nat.toList_repr

/- Different numbers are shown differently. -/
theorem toString_injective :
    Function.Injective (toString : Nat → String) := by
  intro m n hSame
  have hDigits : digitsOf m = digitsOf n := by
    rw [← toList_toString, ← toList_toString, hSame]
  rw [← digitsValue_digitsOf m, hDigits,
    digitsValue_digitsOf]

/- Every number has a digit. -/
theorem digitsOf_ne_nil
    (n : Nat) : digitsOf n ≠ [] :=
  Nat.toDigits_ne_nil

/- The digits of a positive number do not begin with zero. -/
theorem exists_digitsOf_eq_cons
    {n : Nat}
    (hPos : 0 < n) :
    ∃ c ds, digitsOf n = c :: ds ∧ c ≠ '0' := by
  induction n using Nat.strongRecOn with
  | ind n ih =>
      by_cases hSmall : n < 10
      · refine ⟨n.digitChar, [], ?_, ?_⟩
        · exact Nat.toDigits_of_lt_base hSmall
        · have hDigits :
              ∀ m < 10, 0 < m → m.digitChar ≠ '0' := by
            decide
          exact hDigits n hSmall hPos
      · have hLarge : 10 ≤ n := by omega
        have hRest : 0 < n / 10 := by omega
        rcases ih (n / 10) (by omega) hRest with
          ⟨c, ds, hDigits, hNe⟩
        refine ⟨c, ds ++ [(n % 10).digitChar], ?_, hNe⟩
        unfold digitsOf at hDigits ⊢
        rw [Nat.toDigits_of_base_le (by decide) hLarge,
          hDigits]
        rfl

/- The digits of a number are whole digits. -/
theorem wholeOk_digitsOf
    (n : Nat) : wholeOk (digitsOf n) = true := by
  by_cases hPos : 0 < n
  · rcases exists_digitsOf_eq_cons hPos with
      ⟨c, ds, hDigits, hNe⟩
    rw [hDigits]
    unfold wholeOk
    split
    · rename_i hNil
      cases hNil
    · rfl
    · rename_i hZero
      exact absurd (List.cons.inj hZero).1 hNe
    · rfl
  · have hZero : n = 0 := by omega
    subst hZero
    decide

------------------------------------------------------------
-- Integers
------------------------------------------------------------

/- The written form of an integer: a sign and digits. -/
theorem chars_ofInt
    (n : Int) :
    (ofInt n).chars =
      if n < 0 then '-' :: digitsOf n.natAbs
      else digitsOf n.natAbs := by
  unfold chars ofInt
  by_cases hNegative : n < 0 <;>
    simp [hNegative, exponentChars]

/- Digits are read as the numeral that they are. -/
theorem readUnsigned_digitsOf
    (negative : Bool)
    (n : Nat) :
    readUnsigned negative (digitsOf n) =
      some ⟨negative, digitsOf n, [], none⟩ := by
  have hDigits : ∀ c ∈ digitsOf n, c.isDigit = true :=
    fun c hc => isDigit_of_mem_digitsOf hc
  have hTake :
      (digitsOf n).takeWhile Char.isDigit = digitsOf n :=
    List.takeWhile_eq_self_iff.mpr hDigits
  have hDrop :
      (digitsOf n).dropWhile Char.isDigit = [] :=
    List.dropWhile_eq_nil_iff.mpr hDigits
  unfold readUnsigned
  simp only [hTake, hDrop, wholeOk_digitsOf, if_true]
  rfl

/- The numeral of an integer is read back. -/
theorem ofChars?_chars_ofInt
    (n : Int) : ofChars? (ofInt n).chars = some (ofInt n) := by
  rw [chars_ofInt]
  by_cases hNegative : n < 0
  · rw [if_pos hNegative]
    unfold ofChars?
    simp only [readUnsigned_digitsOf]
    simp [ofInt, hNegative]
  · rw [if_neg hNegative]
    unfold ofChars?
    split
    · rename_i rest hMinus
      -- A minus sign is not a digit.
      have hMem : '-' ∈ digitsOf n.natAbs := by
        rw [hMinus]
        exact List.mem_cons_self
      have hDigit := isDigit_of_mem_digitsOf hMem
      cases hDigit
    · rw [readUnsigned_digitsOf]
      simp [ofInt, hNegative]

end Numeral

end CallFlow
