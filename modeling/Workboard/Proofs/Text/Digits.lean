import Mathlib.Algebra.Group.Nat.Defs
import Workboard.Number.Decimal

/-!
# Decimal digits

Digits that were written are read back as the same number, also with zeros in front,
and a number has no more digits than its size asks for.
-/
namespace Workboard

theorem natOfDigits_eq_ofDigitChars (ds : List Char) : natOfDigits ds = Nat.ofDigitChars 10 ds 0 :=
  rfl

@[simp] theorem natOfDigits_toDigits (n : Nat) : natOfDigits (Nat.toDigits 10 n) = n := by
  rw [natOfDigits_eq_ofDigitChars, Nat.ofDigitChars_ten_toDigits]

theorem natOfDigits_append (as bs : List Char) :
    natOfDigits (as ++ bs) = 10 ^ bs.length * natOfDigits as + natOfDigits bs := by
  rw [natOfDigits_eq_ofDigitChars, Nat.ofDigitChars_append, Nat.ofDigitChars_eq_ofDigitChars_zero]
  rfl

theorem natOfDigits_replicate_zero (n : Nat) : natOfDigits (List.replicate n '0') = 0 := by
  rw [natOfDigits_eq_ofDigitChars, Nat.ofDigitChars_replicate_zero, Nat.mul_zero]

theorem isDigit_of_mem_toDigits {n : Nat} {c : Char} (h : c ∈ Nat.toDigits 10 n) :
    c.isDigit = true :=
  Nat.isDigit_of_mem_toDigits (by omega) (by omega) h

/-- No number but zero begins with the digit zero. -/
theorem head?_toDigits_ne_zero {n : Nat} (hn : 0 < n) : (Nat.toDigits 10 n).head? ≠ some '0' := by
  induction n using Nat.strongRecOn with
  | ind n ih =>
    rw [Nat.toDigits_eq_if (by omega)]
    split
    · rename_i hlt
      have hchar : ∀ k, k < 10 → 0 < k → Nat.digitChar k ≠ '0' := by decide
      simpa using hchar n hlt hn
    · have hne : Nat.toDigits 10 (n / 10) ≠ [] := Nat.toDigits_ne_nil
      rw [List.head?_append, List.head?_eq_some_head hne, Option.some_or, ← List.head?_eq_some_head hne]
      exact ih (n / 10) (by omega) (by omega)

namespace Text

@[simp] theorem natOfDigits_padDigits (width n : Nat) : natOfDigits (padDigits width n) = n := by
  simp only [padDigits, natOfDigits_append, natOfDigits_replicate_zero, natOfDigits_toDigits]
  omega

theorem isDigit_of_mem_padDigits {width n : Nat} {c : Char} (h : c ∈ padDigits width n) :
    c.isDigit = true := by
  rcases List.mem_append.mp h with h | h
  · rw [List.eq_of_mem_replicate h]
    decide
  · exact isDigit_of_mem_toDigits h

theorem padDigits_ne_nil (width n : Nat) : padDigits width n ≠ [] := by
  unfold padDigits
  exact List.append_ne_nil_of_right_ne_nil _ Nat.toDigits_ne_nil

/-- A number below ten to the width fills the width exactly. -/
theorem length_padDigits {width n : Nat} (hw : 0 < width) (hn : n < 10 ^ width) :
    (padDigits width n).length = width := by
  have h := (Nat.length_toDigits_le_iff (b := 10) (by omega) hw).mpr hn
  simp only [padDigits, List.length_append, List.length_replicate]
  omega

end Text

end Workboard
