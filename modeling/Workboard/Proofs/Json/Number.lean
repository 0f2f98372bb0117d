import Workboard.Json.Reader
import Workboard.Proofs.Number.Shortest
import Workboard.Proofs.Text.Digits

/-!
# Reading numbers of lock files

A number as a lock file writes it is read as its digits, divided by a power of ten. The
digits are rounded to a binary number before the division, and the quotient is rounded
again. Main statement: which digits and which power of ten these are.
-/
namespace Workboard

namespace JsonNumber

theorem le_foldl_digits (ds : List Char) (n : ℕ) :
    n ≤ ds.foldl (fun n d => 10 * n + (d.toNat - 48)) n := by
  induction ds generalizing n with
  | nil => exact le_rfl
  | cons d ds ih =>
    have := ih (10 * n + (d.toNat - 48))
    rw [List.foldl_cons]
    omega

/-- Digits that fit a word are all taken. -/
theorem takeWord_eq {ds : List Char} {n : ℕ}
    (h : ds.foldl (fun n d => 10 * n + (d.toNat - 48)) n < 2 ^ 64) :
    takeWord n ds = (ds.foldl (fun n d => 10 * n + (d.toNat - 48)) n, []) := by
  induction ds generalizing n with
  | nil => rfl
  | cons d ds ih =>
    rw [List.foldl_cons] at h ⊢
    have hnext : 10 * n + (d.toNat - 48) < 2 ^ 64 := (le_foldl_digits ds _).trans_lt h
    simp only [takeWord, if_pos hnext]
    exact ih h

theorem scale?_neg (fuel : ℕ) (x : Binary64) {j : ℕ} (hj : 1 ≤ j ∧ j ≤ 308) :
    scale? fuel x (-(j : ℤ)) = some (x / .ofNat (10 ^ j)) := by
  have hlimit : (-(j : ℤ)).natAbs ≤ 308 := by omega
  have hneg : ¬ 0 ≤ -(j : ℤ) := by omega
  have habs : (-(j : ℤ)).natAbs = j := by omega
  unfold scale?
  rw [if_pos hlimit, if_neg hneg, habs]

/-- The quick reading of a number that has places after the point. -/
theorem toBinary64?_eq {n : JsonNumber} {j : ℕ} (hsign : n.negative = false)
    (hword : natOfDigits (n.whole ++ n.fraction) < 2 ^ 64) (hj : 1 ≤ j ∧ j ≤ 308)
    (hplaces : n.exponent.getD 0 - n.fraction.length = -(j : ℤ))
    (hlimit : ∀ e, n.exponent = some e → e.natAbs ≤ exponentLimit) :
    n.toBinary64? = some (.ofNat (natOfDigits (n.whole ++ n.fraction)) / .ofNat (10 ^ j)) := by
  obtain ⟨negative, whole, fraction, exponent⟩ := n
  simp only at hsign hword hplaces hlimit
  subst hsign
  have happend : natOfDigits (whole ++ fraction) =
      fraction.foldl (fun n d => 10 * n + (d.toNat - 48)) (natOfDigits whole) := List.foldl_append
  rw [happend] at hword
  have hwhole : takeWord 0 whole = (natOfDigits whole, []) :=
    takeWord_eq ((le_foldl_digits fraction _).trans_lt hword)
  have hfraction := takeWord_eq hword
  rw [← happend] at hfraction
  unfold toBinary64?
  simp only [hwhole, hfraction, List.length_nil, Nat.sub_zero, Nat.cast_zero, zero_sub]
  cases exponent with
  | none =>
    have hne : fraction.isEmpty = false := by
      cases fraction with
      | nil =>
        simp only [Option.getD_none, List.length_nil, Nat.cast_zero] at hplaces
        omega
      | cons d ds => rfl
    simp only [Option.getD_none, zero_sub] at hplaces
    simp only [isWhole, hne, Bool.false_and, Bool.false_eq_true, if_false, hplaces,
      scale?_neg 16 _ hj, Option.map_some]
  | some e =>
    simp only [Option.getD_some] at hplaces
    have hexp : -(fraction.length : ℤ) + e = -j := by omega
    simp only [if_neg (not_lt.mpr (hlimit e rfl)), hexp, scale?_neg 16 _ hj, Option.map_some]
    rfl

end JsonNumber

namespace Json.Reader

/-- Digits in front of something else. -/
theorem takeWhile_digits {ds rest : List Char} (hds : ∀ c ∈ ds, c.isDigit = true)
    (hrest : ∀ c ∈ rest.head?, c.isDigit = false) :
    (ds ++ rest).takeWhile Char.isDigit = ds := by
  rw [List.takeWhile_append_of_pos hds]
  cases rest with
  | nil => simp
  | cons c rest => simp [hrest c rfl]

/-- What may stand after a number: nothing that would make it longer. -/
def EndsNumber (rest : List Char) : Prop :=
  ∀ c ∈ rest.head?, c.isDigit = false ∧ c ≠ '.' ∧ c ≠ 'e' ∧ c ≠ 'E'

section Number
variable {whole fraction rest : List Char} (hwhole : ∀ c ∈ whole, c.isDigit = true)
  (hne : whole ≠ []) (hzero : 1 < whole.length → whole.head? ≠ some '0')
include hwhole hne hzero

omit hwhole in
theorem number_guard : (whole.isEmpty || (1 < whole.length && whole.head? = some '0')) = false := by
  rw [Bool.or_eq_false_iff]
  refine ⟨by simpa using hne, ?_⟩
  by_cases h : 1 < whole.length
  · simp [hzero h]
  · simp [h]

/-- A number with a point. -/
theorem number_point (hfraction : ∀ c ∈ fraction, c.isDigit = true) (hne' : fraction ≠ [])
    (hrest : EndsNumber rest) :
    number false (whole ++ '.' :: (fraction ++ rest)) = some (⟨false, whole, fraction, none⟩, rest) := by
  have h₁ : (whole ++ '.' :: (fraction ++ rest)).takeWhile Char.isDigit = whole :=
    takeWhile_digits hwhole (by simp)
  have h₂ : (fraction ++ rest).takeWhile Char.isDigit = fraction :=
    takeWhile_digits hfraction fun c hc => (hrest c hc).1
  have hfalse : fraction.isEmpty = false := by simpa using hne'
  unfold number
  simp only [h₁, number_guard hne hzero, Bool.false_eq_true, if_false, List.drop_left,
    h₂, hfalse, Option.bind_eq_bind, Option.bind_some]
  cases rest with
  | nil => rfl
  | cons c rest =>
    obtain ⟨-, -, he, hE⟩ := hrest c rfl
    split
    · rename_i heq
      exact absurd (List.cons.inj heq).1 he
    · rename_i heq
      exact absurd (List.cons.inj heq).1 hE
    · rfl

/-- A number with an exponent below zero, with or without a point. -/
theorem number_exponent (hfraction : ∀ c ∈ fraction, c.isDigit = true) (n : ℕ)
    (hrest : EndsNumber rest) :
    number false (whole ++ ((if fraction = [] then [] else '.' :: fraction) ++
        'e' :: '-' :: (Nat.toDigits 10 n ++ rest))) =
      some (⟨false, whole, fraction, some (-(n : ℤ))⟩, rest) := by
  have hdigits : (Nat.toDigits 10 n ++ rest).takeWhile Char.isDigit = Nat.toDigits 10 n :=
    takeWhile_digits (fun c hc => isDigit_of_mem_toDigits hc) fun c hc => (hrest c hc).1
  have hdne : (Nat.toDigits 10 n).isEmpty = false := by
    have := Nat.length_toDigits_pos (b := 10) (n := n)
    cases h : Nat.toDigits 10 n with
    | nil => simp [h] at this
    | cons d ds => rfl
  have hexp : exponent? ('-' :: (Nat.toDigits 10 n ++ rest)) = some (-(n : ℤ), rest) := by
    simp only [exponent?, hdigits, hdne, Bool.false_eq_true, if_false, if_true,
      natOfDigits_toDigits, List.drop_left]
  unfold number
  by_cases hf : fraction = []
  · subst hf
    have h₁ : (whole ++ 'e' :: '-' :: (Nat.toDigits 10 n ++ rest)).takeWhile Char.isDigit = whole :=
      takeWhile_digits hwhole (by simp)
    simp only [if_true, List.nil_append, h₁, number_guard hne hzero, Bool.false_eq_true,
      if_false, List.drop_left, Option.bind_eq_bind, Option.bind_some, hexp, Option.map_some]
    rfl
  · have h₁ : (whole ++ '.' :: (fraction ++ 'e' :: '-' :: (Nat.toDigits 10 n ++ rest))).takeWhile
        Char.isDigit = whole := takeWhile_digits hwhole (by simp)
    have h₂ : (fraction ++ 'e' :: '-' :: (Nat.toDigits 10 n ++ rest)).takeWhile Char.isDigit =
        fraction := takeWhile_digits hfraction (by simp)
    have hfalse : fraction.isEmpty = false := by simpa using hf
    simp only [if_neg hf, List.cons_append, h₁, number_guard hne hzero, Bool.false_eq_true,
      if_false, List.drop_left, h₂, hfalse, Option.bind_eq_bind, Option.bind_some, hexp,
      Option.map_some]

end Number

end Json.Reader

namespace Binary64.Layout
open Json.Reader

/-- How the digits of a decimal stand in a lock file, and what they are read as. -/
structure Reads (body : List Char) (size : ℚ) (n : JsonNumber) (j : ℕ) : Prop where
  number : ∀ rest, EndsNumber rest → number false (body ++ rest) = some (n, rest)
  digit : ∃ c ∈ body.head?, c.isDigit = true
  sign : n.negative = false
  places : 1 ≤ j ∧ n.exponent.getD 0 - n.fraction.length = -(j : ℤ)
  exponent : ∀ e, n.exponent = some e → e.natAbs ≤ j
  size : (natOfDigits (n.whole ++ n.fraction) : ℚ) = size * 10 ^ j

/-- If nothing is added, the digits are those of the decimal. -/
theorem Reads.natOfDigits_eq {d : Decimal} {body : List Char} {n : JsonNumber}
    (h : Reads body d.size n (-d.exponent).toNat) (hexp : d.exponent < 0) :
    natOfDigits (n.whole ++ n.fraction) = d.digits := by
  have hsize := h.size
  rw [← Decimal.digits_eq_size hexp.le] at hsize
  exact_mod_cast hsize

theorem exists_digit_head (n : ℕ) : ∃ c ∈ (Nat.toDigits 10 n).head?, c.isDigit = true := by
  obtain ⟨c, cs, hcs⟩ := List.exists_cons_of_ne_nil (Nat.toDigits_ne_nil (b := 10) (n := n))
  exact ⟨c, by rw [hcs]; rfl, isDigit_of_mem_toDigits (n := n) (by rw [hcs]; exact List.mem_cons_self)⟩

section Body
variable {d : Decimal} (hpos : 0 < d.digits)
include hpos

/-- A whole number is written with a zero after its point. -/
theorem reads_whole (h : 0 ≤ d.exponent) :
    Reads (lockFile.plain (Nat.toDigits 10 d.digits) d.exponent) d.size
      ⟨false, Nat.toDigits 10 d.digits ++ List.replicate d.exponent.toNat '0', ['0'], none⟩ 1 := by
  set ds := Nat.toDigits 10 d.digits with hds
  have hne : ds ≠ [] := Nat.toDigits_ne_nil
  have hbody : lockFile.plain ds d.exponent =
      (ds ++ List.replicate d.exponent.toNat '0') ++ ['.', '0'] := by
    unfold plain
    simp only [if_pos h]
    rfl
  have hdigits : ∀ c ∈ ds ++ List.replicate d.exponent.toNat '0', c.isDigit = true := by
    intro c hc
    rcases List.mem_append.mp hc with hc | hc
    · exact isDigit_of_mem_toDigits hc
    · rw [List.eq_of_mem_replicate hc]
      decide
  have hhead : (ds ++ List.replicate d.exponent.toNat '0').head? = ds.head? :=
    List.head?_append_of_ne_nil _ hne
  refine ⟨fun rest hrest => ?_, ?_, rfl, ⟨le_rfl, by simp⟩, by simp, ?_⟩
  · rw [hbody, List.append_assoc]
    refine number_point hdigits (by simp [hne]) (fun _ => ?_) (by simp) (by simp) hrest
    rw [hhead]
    exact head?_toDigits_ne_zero hpos
  · rw [hbody, List.head?_append_of_ne_nil _ (by simp [hne]), hhead]
    exact exists_digit_head d.digits
  · simp only [natOfDigits_append, natOfDigits_replicate_zero, natOfDigits_toDigits, hds,
      List.length_replicate]
    have hzero : natOfDigits ['0'] = 0 := by decide
    rw [hzero, Decimal.size]
    nth_rewrite 2 [← Int.toNat_of_nonneg h]
    rw [zpow_natCast]
    push_cast
    simp only [List.length_singleton, pow_one]
    ring

/-- A number with places after its point and digits of its own in front of it. -/
theorem reads_point (h : d.exponent < 0) (hlen : (-d.exponent).toNat < (Nat.toDigits 10 d.digits).length) : ∃ n,
    Reads (lockFile.plain (Nat.toDigits 10 d.digits) d.exponent) d.size n (-d.exponent).toNat := by
  set ds := Nat.toDigits 10 d.digits with hds
  set j := (-d.exponent).toNat with hj
  have hdigits : ∀ c ∈ ds, c.isDigit = true := fun c hc => isDigit_of_mem_toDigits hc
  have hbody : lockFile.plain ds d.exponent = ds.take (ds.length - j) ++ '.' :: ds.drop (ds.length - j) := by
    unfold plain
    simp only [← hj, if_neg (not_le.mpr h), if_pos hlen]
  have htake : ds.take (ds.length - j) ≠ [] := List.ne_nil_of_length_pos (by rw [List.length_take]; omega)
  have hdrop : ds.drop (ds.length - j) ≠ [] := List.ne_nil_of_length_pos (by rw [List.length_drop]; omega)
  have hhead : (ds.take (ds.length - j)).head? = ds.head? := by
    rw [List.head?_take, if_neg (by omega)]
  refine ⟨⟨false, ds.take (ds.length - j), ds.drop (ds.length - j), none⟩, fun rest hrest => ?_,
    ?_, rfl, ⟨by omega, ?_⟩, by simp, ?_⟩
  · rw [hbody, List.append_assoc, List.cons_append]
    refine number_point (fun c hc => hdigits c (List.mem_of_mem_take hc)) htake (fun _ => ?_)
      (fun c hc => hdigits c (List.mem_of_mem_drop hc)) hdrop hrest
    rw [hhead]
    exact head?_toDigits_ne_zero hpos
  · rw [hbody, List.head?_append_of_ne_nil _ htake, hhead]
    exact exists_digit_head d.digits
  · simp only [Option.getD_none, List.length_drop]
    omega
  · rw [List.take_append_drop, hds, natOfDigits_toDigits, Decimal.digits_eq_size h.le]

omit hpos in
/-- A number with a zero in front of its point and all of its digits after it. -/
theorem reads_below_one (h : d.exponent < 0) (hlen : (Nat.toDigits 10 d.digits).length ≤ (-d.exponent).toNat) : ∃ n,
    Reads (lockFile.plain (Nat.toDigits 10 d.digits) d.exponent) d.size n (-d.exponent).toNat := by
  set ds := Nat.toDigits 10 d.digits with hds
  set j := (-d.exponent).toNat with hj
  have hbody : lockFile.plain ds d.exponent =
      ['0'] ++ '.' :: (List.replicate (j - ds.length) '0' ++ ds) := by
    unfold plain
    simp only [← hj, if_neg (not_le.mpr h), if_neg (not_lt.mpr hlen)]
    rfl
  refine ⟨⟨false, ['0'], List.replicate (j - ds.length) '0' ++ ds, none⟩, fun rest hrest => ?_,
    ?_, rfl, ⟨by omega, ?_⟩, by simp, ?_⟩
  · rw [hbody]
    change number false (['0'] ++ '.' :: ((List.replicate (j - ds.length) '0' ++ ds) ++ rest)) = _
    refine number_point (by simp) (by simp) (by simp) (fun c hc => ?_) (by simp [hds, Nat.toDigits_ne_nil]) hrest
    rcases List.mem_append.mp hc with hc | hc
    · rw [List.eq_of_mem_replicate hc]
      decide
    · exact isDigit_of_mem_toDigits hc
  · rw [hbody]
    exact ⟨'0', rfl, rfl⟩
  · simp only [Option.getD_none, List.length_append, List.length_replicate]
    omega
  · have hzero : natOfDigits ['0'] = 0 := by decide
    rw [natOfDigits_append, hzero, natOfDigits_append, natOfDigits_replicate_zero, hds,
      natOfDigits_toDigits, ← Decimal.digits_eq_size h.le]
    simp

/-- A number with places after its point. -/
theorem reads_places (h : d.exponent < 0) : ∃ n,
    Reads (lockFile.plain (Nat.toDigits 10 d.digits) d.exponent) d.size n (-d.exponent).toNat := by
  rcases lt_or_ge (-d.exponent).toNat (Nat.toDigits 10 d.digits).length with hlen | hlen
  · exact reads_point hpos h hlen
  · exact reads_below_one h hlen

/-- A number in scientific form, below one. -/
theorem reads_scientific (h : ((Nat.toDigits 10 d.digits).length : ℤ) + d.exponent - 1 < 0) : ∃ n,
    Reads (scientific (Nat.toDigits 10 d.digits)
      ((Nat.toDigits 10 d.digits).length + d.exponent - 1)) d.size n (-d.exponent).toNat := by
  set place : ℤ := (Nat.toDigits 10 d.digits).length + d.exponent - 1 with hplace
  set j := (-d.exponent).toNat with hj
  have hlen := Nat.length_toDigits_pos (b := 10) (n := d.digits)
  have hhead := head?_toDigits_ne_zero hpos
  have hdigits : ∀ c ∈ Nat.toDigits 10 d.digits, c.isDigit = true :=
    fun c hc => isDigit_of_mem_toDigits hc
  have hvalue := natOfDigits_toDigits d.digits
  have hsize : (d.digits : ℚ) = d.size * 10 ^ j := Decimal.digits_eq_size (by omega)
  cases hds : Nat.toDigits 10 d.digits with
  | nil =>
    rw [hds] at hlen
    exact absurd hlen (lt_irrefl 0)
  | cons c more =>
    rw [hds] at hdigits hhead hvalue hplace
    have hbody : scientific (c :: more) place = [c] ++ ((if more = [] then [] else '.' :: more) ++
        'e' :: '-' :: Nat.toDigits 10 place.natAbs) := by
      unfold scientific
      cases more with
      | nil => simp [h]
      | cons d more => simp [h]
    have hc : ∀ x ∈ [c], x.isDigit = true := fun x hx =>
      hdigits x (by rw [List.mem_singleton.mp hx]; exact List.mem_cons_self)
    refine ⟨⟨false, [c], more, some (-(place.natAbs : ℤ))⟩, fun rest hrest => ?_, ?_, rfl,
      ⟨by omega, ?_⟩, ?_, ?_⟩
    · rw [hbody, List.append_assoc, List.append_assoc]
      exact number_exponent hc (by simp) (by simp)
        (fun x hx => hdigits x (List.mem_cons_of_mem _ hx)) place.natAbs hrest
    · rw [hbody]
      exact ⟨c, rfl, hdigits c List.mem_cons_self⟩
    · simp only [Option.getD_some]
      rw [List.length_cons] at hplace
      push_cast at hplace
      omega
    · intro e he
      obtain rfl := Option.some.inj he
      omega
    · change (natOfDigits (c :: more) : ℚ) = _
      rw [hvalue, hsize]

end Body

section Render
variable {m : ℕ} {e : ℤ} (hnormal : IsNormal m e) (hr : InCore (m * 2 ^ e))
  (hlt : (m : ℚ) * 2 ^ e < 2 ^ (50 : ℤ))
include hnormal hr hlt

/-- A number below `2 ^ 50` is not rounded up to it from its decimal. -/
theorem shortest_size_lt : (shortest .toEven m e).size < 2 ^ (50 : ℤ) := by
  obtain ⟨-, -, -, hin, hnearest⟩ := shortest_spec .toEven hnormal hr
  by_contra hge
  have h := le_nearest hin (isShort_two_zpow 50) (not_lt.mp hge)
  rw [hnearest, toRat_finite] at h
  exact absurd hlt (not_lt.mpr h)

/-- The first digit of the decimal stands at most 16 places before the point, and less than 100 after it. -/
theorem shortest_place :
    -100 < (digitCount (shortest .toEven m e).digits : ℤ) + (shortest .toEven m e).exponent ∧
      (digitCount (shortest .toEven m e).digits : ℤ) + (shortest .toEven m e).exponent ≤ 16 := by
  obtain ⟨-, hpos, -, hin, -⟩ := shortest_spec .toEven hnormal hr
  have hlarge := shortest_size_lt hnormal hr hlt
  obtain ⟨hfirst, hnext⟩ := Decimal.size_bounds hpos
  constructor
  · by_contra hle
    have h : (10 : ℚ) ^ ((digitCount (shortest .toEven m e).digits : ℤ) + (shortest .toEven m e).exponent) ≤
        10 ^ (-100 : ℤ) := zpow_le_zpow_right₀ (by norm_num) (not_lt.mp hle)
    have hnum : (10 : ℚ) ^ (-100 : ℤ) < 2 ^ (-200 : ℤ) := by norm_num
    linarith [hin.1]
  · by_contra hgt
    have h : (10 : ℚ) ^ (16 : ℤ) ≤
        10 ^ ((digitCount (shortest .toEven m e).digits : ℤ) + (shortest .toEven m e).exponent - 1) :=
      zpow_le_zpow_right₀ (by norm_num) (by omega)
    have hnum : (2 : ℚ) ^ (50 : ℤ) < 10 ^ (16 : ℤ) := by norm_num
    linarith

/-- The decimal is written with a point from 0.00001 on, and in scientific form below that. -/
theorem toList_render : (lockFile.render (.finite false m e)).toList =
    if -5 ≤ (digitCount (shortest .toEven m e).digits : ℤ) + (shortest .toEven m e).exponent - 1
    then lockFile.plain (Nat.toDigits 10 (shortest .toEven m e).digits) (shortest .toEven m e).exponent
    else scientific (Nat.toDigits 10 (shortest .toEven m e).digits)
      ((Nat.toDigits 10 (shortest .toEven m e).digits).length + (shortest .toEven m e).exponent - 1) := by
  have hplace : (digitCount (shortest .toEven m e).digits : ℤ) + (shortest .toEven m e).exponent - 1 <
      lockFile.plainBelow := by
    have hbelow : lockFile.plainBelow = 16 := rfl
    have := (shortest_place hnormal hr hlt).2
    omega
  have hfrom : lockFile.plainFrom = -5 := rfl
  have htie : lockFile.tie = .toEven := rfl
  unfold Layout.render
  rw [String.toList_ofList]
  simp only [htie, digitCount] at hplace ⊢
  simp [hplace, hfrom]

/-- The digits that are read are those of the decimal, or a whole number written with a zero after
its point. -/
theorem exists_reads : ∃ n j,
    Reads (lockFile.render (.finite false m e)).toList (shortest .toEven m e).size n j ∧ j ≤ 308 ∧
      natOfDigits (n.whole ++ n.fraction) ≤ 10 ^ 17 ∧
      (j = 1 ∧ 0 ≤ (shortest .toEven m e).exponent ∨
        j = (-(shortest .toEven m e).exponent).toNat ∧
          natOfDigits (n.whole ++ n.fraction) = (shortest .toEven m e).digits) := by
  obtain ⟨-, hpos, hdigits, -, -⟩ := shortest_spec .toEven hnormal hr
  have hlarge := shortest_size_lt hnormal hr hlt
  obtain ⟨hfar, -⟩ := shortest_place hnormal hr hlt
  rw [toList_render hnormal hr hlt]
  set d := shortest .toEven m e
  have hcount : digitCount d.digits ≤ 18 :=
    (Nat.length_toDigits_le_iff (by omega) (by omega)).mpr (by omega)
  -- with places after the point, nothing is added to the digits
  have hbelow : d.exponent < 0 → ∀ {body : List Char} {n : JsonNumber},
      Reads body d.size n (-d.exponent).toNat → ∃ n j, Reads body d.size n j ∧ j ≤ 308 ∧
        natOfDigits (n.whole ++ n.fraction) ≤ 10 ^ 17 ∧
        (j = 1 ∧ 0 ≤ d.exponent ∨ j = (-d.exponent).toNat ∧ natOfDigits (n.whole ++ n.fraction) = d.digits) := by
    intro hexp body n hn
    have heq := hn.natOfDigits_eq hexp
    exact ⟨n, _, hn, by omega, heq.trans_le hdigits, .inr ⟨rfl, heq⟩⟩
  split
  · rcases le_or_gt 0 d.exponent with hexp | hexp
    · have hwhole := reads_whole hpos hexp
      refine ⟨_, 1, hwhole, by omega, ?_, .inl ⟨rfl, hexp⟩⟩
      have hnum : (2 : ℚ) ^ (50 : ℤ) * 10 ≤ 10 ^ 17 := by norm_num
      have hle : (natOfDigits ((Nat.toDigits 10 d.digits ++ List.replicate d.exponent.toNat '0') ++ ['0']) : ℚ) ≤
          ((10 ^ 17 : ℕ) : ℚ) := by
        rw [hwhole.size]
        push_cast
        linarith
      exact_mod_cast hle
    · obtain ⟨n, hn⟩ := reads_places hpos hexp
      exact hbelow hexp hn
  · rename_i hscientific
    have hplace := not_le.mp hscientific
    obtain ⟨n, hn⟩ := reads_scientific hpos (by rw [digitCount] at hplace; omega)
    have := digitCount_pos d.digits
    exact hbelow (by omega) hn

/-- The text of a number in a lock file is read as the digits of the shortest decimal, or of
ten times it, divided by a power of ten. -/
theorem reads_render : ∃ (n : JsonNumber) (M j : ℕ),
    Reads (lockFile.render (.finite false m e)).toList (shortest .toEven m e).size n j ∧
      0 < M ∧ M ≤ 10 ^ 17 ∧ j ≤ 308 ∧ (M : ℚ) = (shortest .toEven m e).size * 10 ^ j ∧
      (j = 1 ∧ 0 ≤ (shortest .toEven m e).exponent ∨
        j = (-(shortest .toEven m e).exponent).toNat ∧ M = (shortest .toEven m e).digits) ∧
      n.toBinary64? = some (.ofNat M / .ofNat (10 ^ j)) := by
  obtain ⟨-, hpos, -, -, -⟩ := shortest_spec .toEven hnormal hr
  obtain ⟨n, j, hreads, hj, hM, hform⟩ := exists_reads hnormal hr hlt
  refine ⟨n, _, j, hreads, ?_, hM, hj, hreads.size, hform, ?_⟩
  · have hsizepos := Decimal.size_pos hpos
    have hpos' : (0 : ℚ) < natOfDigits (n.whole ++ n.fraction) := by
      rw [hreads.size]
      positivity
    exact_mod_cast hpos'
  · refine JsonNumber.toBinary64?_eq hreads.sign (by omega) ⟨hreads.places.1, hj⟩ hreads.places.2
      fun e he => ?_
    have := hreads.exponent e he
    have hlimit : JsonNumber.exponentLimit = 2147483647 := rfl
    omega

end Render

end Binary64.Layout

end Workboard
