import Workboard.Json.Printer
import Workboard.Json.Reader

/-!
# Reading quoted texts

A text in quotes is read back as it was, whatever characters it has and whatever stands
after its closing quote.
-/
namespace Workboard.Json

namespace Reader

theorem hexDigit?_digitChar : ∀ d, d < 16 → hexDigit? (Nat.digitChar d) = some d := by decide

/-- A control character is read back from its four digits. -/
theorem hex4?_hex2 {n : Nat} (hn : n < 32) (rest : List Char) :
    hex4? ('0' :: '0' :: hex2 n ++ rest) = some (n, rest) := by
  have h₁ := hexDigit?_digitChar (n / 16) (by omega)
  have h₂ := hexDigit?_digitChar (n % 16) (by omega)
  have h₀ : hexDigit? '0' = some 0 := rfl
  simp only [hex2, List.cons_append, List.nil_append, hex4?, h₀, h₁, h₂, Option.bind_eq_bind,
    Option.bind_some]
  congr 2
  omega

/-- A character of no special meaning is one unit. -/
theorem units_plain {c : Char} (hquote : c ≠ '"') (hback : c ≠ '\\') (hctrl : ¬ c.toNat < 0x20)
    (fuel : Nat) (rest : List Char) (acc : List Nat) :
    units (fuel + 1) (c :: rest) acc = units fuel rest (c.toNat :: acc) := by
  rw [units]
  · simp [hctrl, hback]
  · exact hquote
  · exact fun r h => absurd h hback
  · exact fun d r h => absurd h hback

/-- A character as it stands in quotes is read as one unit. -/
theorem units_quoteChar (c : Char) (fuel : Nat) (rest : List Char) (acc : List Nat) :
    units (fuel + 1) (quoteChar c ++ rest) acc = units fuel rest (c.toNat :: acc) := by
  unfold quoteChar
  split
  · subst c; rfl
  split
  · subst c; rfl
  split
  · subst c; rfl
  split
  · subst c; rfl
  split
  · subst c; rfl
  split
  · subst c; rfl
  split
  · subst c; rfl
  split
  · rename_i hctrl
    have h := hex4?_hex2 hctrl rest
    simp only [List.cons_append, List.nil_append] at h ⊢
    rw [units, h]
  · rename_i hquote hback _ _ _ _ _ hctrl
    exact units_plain hquote hback hctrl fuel rest acc

theorem units_quote (cs rest : List Char) (acc : List Nat) {fuel : Nat} (hf : cs.length < fuel) :
    units fuel (cs.flatMap quoteChar ++ '"' :: rest) acc =
      some (acc.reverse ++ cs.map Char.toNat, rest) := by
  induction cs generalizing fuel acc with
  | nil =>
    obtain ⟨fuel, rfl⟩ := Nat.exists_eq_add_of_lt hf
    simp [units]
  | cons c cs ih =>
    obtain ⟨fuel, rfl⟩ : ∃ n, fuel = n + 1 := ⟨fuel - 1, by simp at hf; omega⟩
    rw [List.flatMap_cons, List.append_assoc, units_quoteChar, ih _ (by simpa using hf)]
    simp

/-- The units of characters join to the characters: none is half of a pair. -/
theorem joinUnits?_map_toNat (cs : List Char) : joinUnits? (cs.map Char.toNat) = some cs := by
  induction cs with
  | nil => rfl
  | cons c cs ih =>
    have hvalid : c.toNat < 0xD800 ∨ 0xDFFF < c.toNat ∧ c.toNat < 0x110000 := c.valid
    rw [List.map_cons, joinUnits?.eq_def]
    have h₁ : ¬ (0xD800 ≤ c.toNat ∧ c.toNat < 0xDC00) := by omega
    have h₂ : ¬ (0xDC00 ≤ c.toNat ∧ c.toNat < 0xE000) := by omega
    simp only [Bool.and_eq_true, decide_eq_true_eq, if_neg h₁, if_neg h₂, ih, Char.ofNat_toNat,
      Option.map_some]

theorem length_le_flatMap_quoteChar (cs : List Char) :
    cs.length ≤ (cs.flatMap quoteChar).length := by
  have hpos : ∀ c, 0 < (quoteChar c).length := by
    intro c
    unfold quoteChar
    repeat' split
    all_goals simp
  induction cs with
  | nil => simp
  | cons c cs ih =>
    have := hpos c
    simp only [List.flatMap_cons, List.length_append, List.length_cons]
    omega

/-- A quoted text after its opening quote is read back. -/
theorem string_quote (s : String) (rest : List Char) :
    string (s.toList.flatMap quoteChar ++ '"' :: rest) = some (some s, rest) := by
  have h := length_le_flatMap_quoteChar s.toList
  rw [string, units_quote s.toList rest [] (by simp only [List.length_append]; omega)]
  simp [joinUnits?_map_toNat]

end Reader

/-- The characters of a text in quotes, in front of others. -/
theorem toList_quote_append (s : String) (rest : List Char) :
    (quote s).toList ++ rest = '"' :: (s.toList.flatMap quoteChar ++ '"' :: rest) := by
  simp [quote]

end Workboard.Json
