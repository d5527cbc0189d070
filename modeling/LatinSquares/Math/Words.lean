/-
# Lines of words

Text is a list of characters. A line of words separates them by single spaces, and cutting
it at the spaces gives the words back, as long as none of them has a space itself. Numerals
are decimal, with a minus sign in front of the negative ones.
-/

import Mathlib.Data.List.Basic

namespace LatinSquares.Math

/-- The words on one line. -/
def unwords (words : List (List Char)) : List Char := [' '].intercalate words

/-- A decimal numeral. -/
def numeral (number : Nat) : List Char := Nat.toDigits 10 number

/-- The numeral of a number or of its negative. -/
def signedNumeral (positive : Bool) (number : Nat) : List Char :=
  if positive then numeral number else '-' :: numeral number

theorem splitOn_unwords {words : List (List Char)} (hwords : ∀ word ∈ words, ' ' ∉ word)
    (hne : words ≠ []) : (unwords words).splitOn ' ' = words :=
  List.splitOn_intercalate ' ' hwords hne

theorem isDigit_of_mem_numeral {number : Nat} {c : Char} (hc : c ∈ numeral number) :
    c.isDigit = true :=
  Nat.isDigit_of_mem_toDigits (by decide) (by decide) hc

theorem not_mem_numeral {number : Nat} {c : Char} (hc : c.isDigit = false) :
    c ∉ numeral number := by
  intro hmem
  rw [isDigit_of_mem_numeral hmem] at hc
  cases hc

theorem exists_numeral_eq_cons (number : Nat) :
    ∃ c cs, numeral number = c :: cs ∧ c.isDigit = true := by
  obtain ⟨c, cs, heq⟩ := List.exists_cons_of_ne_nil (Nat.toDigits_ne_nil (n := number) (b := 10))
  exact ⟨c, cs, heq, isDigit_of_mem_numeral (heq ▸ List.mem_cons_self)⟩

theorem space_not_mem_signedNumeral (positive : Bool) (number : Nat) :
    ' ' ∉ signedNumeral positive number := by
  have hspace : ' ' ∉ numeral number := not_mem_numeral (by decide)
  cases positive with
  | true => exact hspace
  | false => exact List.not_mem_cons_of_ne_of_not_mem (by decide) hspace

/-- The sign of a numeral is its first character. -/
theorem head?_signedNumeral (positive : Bool) (number : Nat) :
    (signedNumeral positive number).head? = some '-' ↔ positive = false := by
  cases positive with
  | false => simp [signedNumeral]
  | true =>
      obtain ⟨c, cs, heq, hdigit⟩ := exists_numeral_eq_cons number
      have hsign : c ≠ '-' := by
        rintro rfl
        cases hdigit
      simp [signedNumeral, heq, hsign]

end LatinSquares.Math
