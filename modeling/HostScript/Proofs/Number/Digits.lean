import Mathlib
import HostScript.Proofs.Token.Numeral

/-!
# The digits of an integer are read back

A natural number in decimal digits is the whole part of a number (`isWhole_digits`), and an integer that is not negative is read back
from its text (`ofText_integerText`).
-/

namespace HostScript.Number

open Lexer (IsWhole IsNumeral)

theorem isDigit_digits {n : Nat} : ∀ c ∈ Nat.toDigits 10 n, c.isDigit := fun _ => Nat.isDigit_of_mem_toDigits (by decide) (by decide)

/-- Digits begin with a zero only if there is no other one. -/
theorem head_digits {n : Nat} (hn : 0 < n) : (Nat.toDigits 10 n).head? ≠ some '0' := by
  induction n using Nat.strongRecOn with
  | ind n ih =>
    rw [Nat.toDigits_eq_if (by decide)]
    split
    · rename_i hsmall
      have hdigit : ∀ m < 10, 0 < m → Nat.digitChar m ≠ '0' := by decide
      intro hzero
      exact hdigit n hsmall hn (Option.some.inj hzero)
    · rw [List.head?_append_of_ne_nil _ Nat.toDigits_ne_nil]
      exact ih (n / 10) (by omega) (by omega)

/-- The digits of a natural number are the whole part of a number. -/
theorem isWhole_digits (n : Nat) : IsWhole (Nat.toDigits 10 n) := by
  rcases Nat.eq_zero_or_pos n with rfl | hn
  · exact .zero
  · cases hdigits : Nat.toDigits 10 n with
    | nil => exact absurd hdigits Nat.toDigits_ne_nil
    | cons c rest =>
      have hhead := head_digits hn
      have hall := isDigit_digits (n := n)
      rw [hdigits] at hhead hall
      exact .digits (hall c List.mem_cons_self) (fun hzero => hhead (congrArg some hzero)) fun d hd => hall d (List.mem_cons_of_mem c hd)

/-- Digits carry no sign. -/
theorem splitSign_digits (n : Nat) : splitSign (Nat.toDigits 10 n) = (false, Nat.toDigits 10 n) := by
  have hall := isDigit_digits (n := n)
  unfold splitSign
  split
  · rename_i hdigits
    rw [hdigits] at hall
    exact absurd (hall '-' List.mem_cons_self) (by decide)
  · rename_i hdigits
    rw [hdigits] at hall
    exact absurd (hall '+' List.mem_cons_self) (by decide)
  · rfl

theorem natOfDigits_digits (n : Nat) : Decimal.natOfDigits (Nat.toDigits 10 n) = n :=
  Nat.ofDigitChars_toDigits (by decide) (by decide)

theorem integerOfChars_digits (n : Nat) : integerOfChars? false (Nat.toDigits 10 n) = int64? n := by
  have hdigits : (!(Nat.toDigits 10 n).isEmpty && (Nat.toDigits 10 n).all Char.isDigit) = true := by
    rw [Bool.and_eq_true, List.all_eq_true, Bool.not_eq_true', List.isEmpty_eq_false_iff]
    exact ⟨Nat.toDigits_ne_nil, isDigit_digits⟩
  unfold integerOfChars?
  rw [if_pos hdigits]
  simp only [natOfDigits_digits, Bool.false_eq_true, if_false]

/-- An integer in range stays itself. -/
theorem int64_toInt (i : Int64) : int64? i.toInt = some i := by
  unfold int64?
  have hlt := i.toInt_lt
  have hle := i.le_toInt
  rw [if_pos ⟨by omega, by omega⟩, Int64.ofInt_toInt]

theorem integerText_nonneg {i : Int} (h : 0 ≤ i) : integerText i = String.ofList (Nat.toDigits 10 i.toNat) := by
  unfold integerText
  dsimp only
  rw [if_neg (Int.not_lt.mpr h), show i.natAbs = i.toNat by omega]

/-- An integer that is not negative is read back from its text. -/
theorem ofText_integerText {i : Int64} (h : 0 ≤ i.toInt) : ofText? (integerText i.toInt) = some (.int i) := by
  rw [integerText_nonneg h]
  unfold ofText?
  rw [String.toList_ofList, splitSign_digits]
  simp only [integerOfChars_digits, Int.toNat_of_nonneg h, int64_toInt]

/-- Digits that are read as a number are the text of one. -/
theorem isNumeral_digits {n : Nat} (h : (ofText? (String.ofList (Nat.toDigits 10 n))).isSome) : IsNumeral (Nat.toDigits 10 n) where
  parts := ⟨Nat.toDigits 10 n, [], [], by simp, isWhole_digits n, .none, .none⟩
  value := h

end HostScript.Number
