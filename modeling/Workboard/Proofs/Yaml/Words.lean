import Workboard.Proofs.Text.Digits
import Workboard.Proofs.Yaml.Strings

/-!
# Words that stand for no text

The words for nothing and for truth values and the texts of numbers need no quotes: they are written
with letters, digits and a few marks that begin nothing else.
-/
namespace Workboard.Yaml

/-- The characters of numbers and of the words for what is no text. -/
def isWordChar (c : Char) : Bool := c.isAlphanum || c = '.' || c = '-' || c = '+'

theorem isWordChar_of_isDigit {c : Char} (h : c.isDigit = true) : isWordChar c = true := by
  simp [isWordChar, Char.isAlphanum, h]

/-- Only characters of ASCII that stand for themselves are characters of words. -/
theorem isWordChar_spec {c : Char} (h : isWordChar c = true) :
    isPrinted c = true ∧ isSpace c = false ∧ isBreak c = false ∧ c ≠ ':' ∧ c ≠ '#' := by
  have hsmall : c.toNat < 128 := by
    change (((((decide ('A'.val ≤ c.val ∧ c.val ≤ 'Z'.val) || ('a'.val ≤ c.val && c.val ≤ 'z'.val)) ||
      ('0'.val ≤ c.val && c.val ≤ '9'.val)) || c = '.') || c = '-') || c = '+') = true at h
    simp only [Bool.or_eq_true, Bool.and_eq_true, decide_eq_true_eq, UInt32.le_iff_toNat_le] at h
    change (((((65 ≤ c.toNat ∧ c.toNat ≤ 90) ∨ (97 ≤ c.toNat ∧ c.toNat ≤ 122)) ∨
      (48 ≤ c.toNat ∧ c.toNat ≤ 57)) ∨ c = '.') ∨ c = '-') ∨ c = '+' at h
    rcases h with ((h | rfl) | rfl) | rfl
    · omega
    all_goals decide
  have hall : ∀ n < 128, isWordChar (Char.ofNat n) = true → isPrinted (Char.ofNat n) = true ∧
      isSpace (Char.ofNat n) = false ∧ isBreak (Char.ofNat n) = false ∧ Char.ofNat n ≠ ':' ∧ Char.ofNat n ≠ '#' := by
    decide
  simpa using hall c.toNat hsmall (by simpa using h)

theorem hasPair_of_left {p q : Char → Bool} {cs : List Char} (h : ∀ c ∈ cs, p c = false) :
    hasPair p q cs = false := by
  induction cs with
  | nil => rfl
  | cons a cs ih =>
    obtain ⟨ha, hcs⟩ := List.forall_mem_cons.mp h
    cases cs with
    | nil => rfl
    | cons b cs => simp [hasPair, ha, ih hcs]

/-- A word of those characters that begins no mark needs no quotes. -/
theorem fitsPlain_word {w : List Char} (h : ∀ c ∈ w, isWordChar c = true) (hmarked : beginsMarked w = false) :
    fitsPlain w = true := by
  have hspec := fun c hc => isWordChar_spec (h c hc)
  have hspace : ∀ c ∈ w, c ≠ ' ' := fun c hc => by
    rintro rfl
    exact absurd (hspec _ hc).2.1 (by decide)
  have hloose : ∀ c ∈ w, (c = ' ' || isBreak c) = false := fun c hc => by
    simp [hspace c hc, (hspec c hc).2.2.1]
  have hescapes : needsEscapes w = false := by
    rw [needsEscapes, hasPair_of_left fun c hc => by simp [hspace c hc]]
    simpa using fun c hc => (hspec c hc).1
  have hends : hasLooseEnd w = false := by
    rw [hasLooseEnd, Bool.or_eq_false_iff, Option.any_eq_false, Option.any_eq_false]
    exact ⟨fun c hc => by simpa using hloose c (List.mem_of_head? hc),
      fun c hc => by simpa using hloose c (List.mem_of_getLast? hc)⟩
  have hmarks : holdsMark w = false := by
    rw [holdsMark, hasPair_of_left fun c hc => by simp [(hspec c hc).2.2.2.1],
      hasPair_of_left fun c hc => by simp [(hspec c hc).2.1, (hspec c hc).2.2.1]]
    simpa using fun hlast => (hspec ':' (List.mem_of_getLast? hlast)).2.2.2.1 rfl
  have hbreaks : w.any isBreak = false := by simpa using fun c hc => (hspec c hc).2.2.1
  simp [fitsPlain, hescapes, hends, hbreaks, hmarked, hmarks]

/-- The first characters of words that begin no mark. -/
theorem beginsMarked_cons {c : Char} {cs : List Char} (hc : isWordChar c = true) (hcs : ∀ d ∈ cs, isWordChar d = true)
    (hmark : c = '-' ∨ c = '.' → ∃ d ∈ cs.head?, d ≠ c) : beginsMarked (c :: cs) = false := by
  have hlist : "#,[]\x7b\x7d&*!|>'\"%@`".toList.contains c = false := by
    have hall : "#,[]\x7b\x7d&*!|>'\"%@`".toList.all (fun d => !isWordChar d) = true := by decide
    rw [← Bool.not_eq_true, List.contains_iff_mem]
    intro hmem
    have hnone := List.all_eq_true.mp hall c hmem
    rw [hc] at hnone
    cases hnone
  by_cases hc' : c = '-' ∨ c = '.'
  · obtain ⟨d, hd, hne⟩ := hmark hc'
    obtain ⟨cs, rfl⟩ : ∃ cs', cs = d :: cs' := by
      cases cs with
      | nil => cases hd
      | cons e cs => exact ⟨cs, by rw [Option.some.inj hd]⟩
    obtain ⟨-, hspace, hbreak, -⟩ := isWordChar_spec (hcs d List.mem_cons_self)
    rw [beginsMarked, hlist]
    simp only [wordEnds, hspace, hbreak, Bool.or_self, Bool.and_false, Bool.false_or, List.isPrefixOf, Bool.or_eq_false_iff]
    rcases hc' with rfl | rfl <;> simp [Ne.symm hne]
  · obtain ⟨-, -, -, hcolon, -⟩ := isWordChar_spec hc
    have hquestion : c ≠ '?' := by
      rintro rfl
      exact absurd hc (by decide)
    rw [not_or] at hc'
    rw [beginsMarked, hlist]
    simp [hc'.1, Ne.symm hc'.1, Ne.symm hc'.2, hquestion, hcolon, List.isPrefixOf]

section Numbers

theorem toList_toString (n : Int) : (toString n).toList =
    (if n < 0 then ['-'] else []) ++ Nat.toDigits 10 n.natAbs := by
  cases n with
  | ofNat n =>
    rw [if_neg (by simp)]
    exact Nat.toList_repr
  | negSucc n =>
    rw [if_pos (Int.negSucc_lt_zero n)]
    change ("-" ++ (n + 1).repr).toList = _
    rw [String.toList_append, Nat.toList_repr]
    rfl

/-- The text of a number without its sign: a digit, and more characters of words. -/
def IsNumeral (cs : List Char) : Prop := ∃ c ds, cs = c :: ds ∧ c.isDigit = true ∧ ∀ d ∈ ds, isWordChar d = true

variable {as bs cs : List Char}

theorem IsNumeral.append (h : IsNumeral as) (hb : ∀ d ∈ bs, isWordChar d = true) : IsNumeral (as ++ bs) := by
  obtain ⟨c, ds, rfl, hc, hds⟩ := h
  exact ⟨c, ds ++ bs, rfl, hc, fun d hd => (List.mem_append.mp hd).elim (hds d) (hb d)⟩

theorem isNumeral_of_digits (h : ∀ c ∈ cs, c.isDigit = true) (hne : cs ≠ []) : IsNumeral cs := by
  obtain ⟨c, ds, rfl⟩ := List.exists_cons_of_ne_nil hne
  obtain ⟨hc, hds⟩ := List.forall_mem_cons.mp h
  exact ⟨c, ds, rfl, hc, fun d hd => isWordChar_of_isDigit (hds d hd)⟩

theorem isNumeral_toDigits (n : Nat) : IsNumeral (Nat.toDigits 10 n) :=
  isNumeral_of_digits (fun _ hc => isDigit_of_mem_toDigits hc) Nat.toDigits_ne_nil

theorem isWordChar_of_mem_toDigits {n : Nat} {c : Char} (h : c ∈ Nat.toDigits 10 n) : isWordChar c = true :=
  isWordChar_of_isDigit (isDigit_of_mem_toDigits h)

/-- A number with or without a sign needs no quotes. -/
theorem IsNumeral.fitsPlain (h : IsNumeral cs) (negative : Bool) :
    fitsPlain (if negative then '-' :: cs else cs) = true := by
  obtain ⟨c, ds, rfl, hc, hds⟩ := h
  have hword := isWordChar_of_isDigit hc
  have hall : ∀ d ∈ c :: ds, isWordChar d = true := List.forall_mem_cons.mpr ⟨hword, hds⟩
  split
  · refine fitsPlain_word (List.forall_mem_cons.mpr ⟨by decide, hall⟩) ?_
    refine beginsMarked_cons (by decide) hall fun _ => ⟨c, rfl, ?_⟩
    rintro rfl
    exact absurd hc (by decide)
  · refine fitsPlain_word hall (beginsMarked_cons hword hds fun hmark => ?_)
    rcases hmark with rfl | rfl <;> exact absurd hc (by decide)

theorem isNumeral_plain (l : Binary64.Layout) (n : Nat) (exponent : Int) :
    IsNumeral (l.plain (Nat.toDigits 10 n) exponent) := by
  have hpoint : ∀ d ∈ if l.pointZero then ['.', '0'] else [], isWordChar d = true := by
    split
    · exact List.forall_mem_cons.mpr ⟨by decide, List.forall_mem_singleton.mpr (by decide)⟩
    · exact fun d hd => absurd hd List.not_mem_nil
  have hzeros : ∀ k, ∀ d ∈ List.replicate k '0', isWordChar d = true := fun k d hd => by
    rw [List.eq_of_mem_replicate hd]
    decide
  unfold Binary64.Layout.plain
  simp only
  split
  · exact ((isNumeral_toDigits n).append (hzeros _)).append hpoint
  split
  · rename_i hplaces
    refine (isNumeral_of_digits (fun c hc => isDigit_of_mem_toDigits (List.mem_of_mem_take hc)) ?_).append
      (List.forall_mem_cons.mpr ⟨by decide, fun d hd => isWordChar_of_mem_toDigits (List.mem_of_mem_drop hd)⟩)
    rw [ne_eq, ← List.length_eq_zero_iff, List.length_take]
    omega
  · refine ⟨'0', _, rfl, by decide, List.forall_mem_cons.mpr ⟨by decide, fun d hd => ?_⟩⟩
    exact (List.mem_append.mp hd).elim (hzeros _ d) isWordChar_of_mem_toDigits

theorem isNumeral_scientific (n : Nat) (place : Int) :
    IsNumeral (Binary64.Layout.scientific (Nat.toDigits 10 n) place) := by
  have hmark : ∀ d ∈ 'e' :: (if place < 0 then '-' :: Nat.toDigits 10 place.natAbs else
      Nat.toDigits 10 place.toNat), isWordChar d = true := by
    refine List.forall_mem_cons.mpr ⟨by decide, ?_⟩
    split
    · exact List.forall_mem_cons.mpr ⟨by decide, fun d => isWordChar_of_mem_toDigits⟩
    · exact fun d => isWordChar_of_mem_toDigits
  obtain ⟨c, ds, hcs, hc, hds⟩ := isNumeral_toDigits n
  rw [hcs, Binary64.Layout.scientific.eq_def]
  cases ds with
  | nil => exact ⟨c, _, rfl, hc, hmark⟩
  | cons d ds =>
    refine ⟨c, _, rfl, hc, List.forall_mem_cons.mpr ⟨by decide, fun e he => ?_⟩⟩
    exact (List.mem_append.mp he).elim (hds e) (hmark e)

theorem IsNumeral.fitsPlain_ofList (h : IsNumeral cs) (negative : Bool) :
    Yaml.fitsPlain (String.ofList (if negative then '-' :: cs else cs)).toList = true ∧
      (String.ofList (if negative then '-' :: cs else cs)).toList ≠ [] := by
  rw [String.toList_ofList]
  refine ⟨h.fitsPlain negative, ?_⟩
  obtain ⟨c, ds, rfl, -⟩ := h
  split <;> exact List.cons_ne_nil _ _

end Numbers

/-- What is written as a word needs no quotes. -/
theorem fitsPlain_word? {v : Value} {s : String} (h : Printer.word? v = some s) :
    fitsPlain s.toList = true ∧ s.toList ≠ [] := by
  cases v with
  | null =>
    obtain rfl := Option.some.inj h
    decide
  | bool b =>
    obtain rfl := Option.some.inj h
    cases b <;> decide
  | int n =>
    obtain rfl := Option.some.inj h
    have hfits := (isNumeral_toDigits n.natAbs).fitsPlain_ofList (decide (n < 0))
    have htext : String.ofList (if decide (n < 0) then '-' :: Nat.toDigits 10 n.natAbs else Nat.toDigits 10 n.natAbs) =
        toString n := by
      rw [← String.ofList_toList (s := toString n), toList_toString]
      by_cases hn : n < 0 <;> simp [hn]
    rwa [htext] at hfits
  | float x =>
    obtain rfl := Option.some.inj h
    cases x with
    | nan => decide
    | infinite negative => cases negative <;> decide
    | finite negative m e =>
      refine IsNumeral.fitsPlain_ofList ?_ negative
      split
      · exact isNumeral_plain _ _ _
      · exact isNumeral_scientific _ _
  | _ => cases h

end Workboard.Yaml
