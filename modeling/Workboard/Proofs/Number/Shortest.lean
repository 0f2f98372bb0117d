import Workboard.Number.Decimal
import Workboard.Proofs.Number.Nearest

/-!
# Shortest decimals

The decimal that is written for a binary number. Main statement: it has at most 17 digits,
and the number is nearest to it.
-/
namespace Workboard

section Digits

theorem digitCount_pos (n : ℕ) : 0 < digitCount n := Nat.length_toDigits_pos

theorem lt_ten_pow_digitCount (n : ℕ) : n < 10 ^ digitCount n :=
  (Nat.length_toDigits_le_iff (by omega) (digitCount_pos n)).mp le_rfl

theorem ten_pow_le_of_digitCount {n : ℕ} (hn : 0 < n) : 10 ^ (digitCount n - 1) ≤ n := by
  have hpos := digitCount_pos n
  rcases Nat.eq_zero_or_pos (digitCount n - 1) with h | h
  · rw [h, pow_zero]
    exact hn
  · by_contra hlt
    have hle : digitCount n ≤ digitCount n - 1 :=
      (Nat.length_toDigits_le_iff (by omega) h).mpr (not_le.mp hlt)
    omega

/-- A fraction of at least one has as many digits in front of its point as its whole part. -/
theorem digitCount_div {a b : ℕ} (hb : 0 < b) (hle : b ≤ a) :
    (10 : ℚ) ^ (digitCount (a / b) - 1) ≤ a / b ∧ (a / b : ℚ) < 10 ^ digitCount (a / b) := by
  have hb' : (0 : ℚ) < b := by exact_mod_cast hb
  have hlow : (10 : ℚ) ^ (digitCount (a / b) - 1) ≤ (a / b : ℕ) := by
    exact_mod_cast ten_pow_le_of_digitCount (Nat.div_pos hle hb)
  have hhigh : ((a / b + 1 : ℕ) : ℚ) ≤ 10 ^ digitCount (a / b) := by
    exact_mod_cast lt_ten_pow_digitCount (a / b)
  have hfloor : ((a / b : ℕ) : ℚ) ≤ a / b := by
    rw [le_div_iff₀ hb']
    exact_mod_cast Nat.div_mul_le_self a b
  have hnext : (a / b : ℚ) < (a / b + 1 : ℕ) := by
    rw [div_lt_iff₀ hb', mul_comm]
    exact_mod_cast Nat.lt_mul_div_succ a hb
  exact ⟨hlow.trans hfloor, hnext.trans_le hhigh⟩

end Digits

namespace Decimal

/-- The value of a decimal without its sign. -/
def size (d : Decimal) : ℚ := d.digits * 10 ^ d.exponent

theorem size_pos {d : Decimal} (h : 0 < d.digits) : 0 < d.size := by
  have hd : (0 : ℚ) < d.digits := by exact_mod_cast h
  exact mul_pos hd (by positivity)

/-- The digits are the value moved by the places after the point. -/
theorem digits_eq_size {d : Decimal} (h : d.exponent ≤ 0) : (d.digits : ℚ) = d.size * 10 ^ (-d.exponent).toNat := by
  have hexp : d.exponent = -((-d.exponent).toNat : ℤ) := by omega
  rw [size]
  nth_rewrite 1 [hexp]
  rw [zpow_neg, zpow_natCast, inv_mul_cancel_right₀ (by positivity)]

/-- Where the first digit of a decimal stands. -/
theorem size_bounds {d : Decimal} (h : 0 < d.digits) :
    (10 : ℚ) ^ ((digitCount d.digits : ℤ) + d.exponent - 1) ≤ d.size ∧
      d.size < 10 ^ ((digitCount d.digits : ℤ) + d.exponent) := by
  have hp : (0 : ℚ) < 10 ^ d.exponent := by positivity
  have hc := digitCount_pos d.digits
  have hlow : (10 : ℚ) ^ (digitCount d.digits - 1) ≤ d.digits := by
    exact_mod_cast ten_pow_le_of_digitCount h
  have hhigh : (d.digits : ℚ) < 10 ^ digitCount d.digits := by
    exact_mod_cast lt_ten_pow_digitCount d.digits
  have hexp : (10 : ℚ) ^ ((digitCount d.digits : ℤ) + d.exponent - 1) =
      10 ^ (digitCount d.digits - 1) * 10 ^ d.exponent := by
    rw [← zpow_natCast, ← zpow_add₀ (by norm_num)]
    congr 1
    omega
  rw [hexp, zpow_add₀ (by norm_num), zpow_natCast]
  exact ⟨mul_le_mul_of_nonneg_right hlow hp.le, mul_lt_mul_of_pos_right hhigh hp⟩

/-- A decimal in range is read as the number nearest to its value. -/
theorem toBinary64_eq_nearest {d : Decimal} (hsign : d.negative = false) (hpos : 0 < d.digits)
    (h : Binary64.InRange d.size) : d.toBinary64 = Binary64.nearest d.size := by
  obtain ⟨hlow, hhigh⟩ := size_bounds hpos
  have hfar : ¬ ((digitCount d.digits : ℤ) + d.exponent < -330) := by
    intro hlt
    have hle : (10 : ℚ) ^ ((digitCount d.digits : ℤ) + d.exponent) ≤ 10 ^ (-100 : ℤ) :=
      zpow_le_zpow_right₀ (by norm_num) (by omega)
    have hnum : (10 : ℚ) ^ (-100 : ℤ) < 2 ^ (-200 : ℤ) := by norm_num
    linarith [h.1]
  have hnear : ¬ (320 < (digitCount d.digits : ℤ) + d.exponent) := by
    intro hlt
    have hle : (10 : ℚ) ^ (100 : ℤ) ≤ 10 ^ ((digitCount d.digits : ℤ) + d.exponent - 1) :=
      zpow_le_zpow_right₀ (by norm_num) (by omega)
    have hnum : (2 : ℚ) ^ (200 : ℤ) < 10 ^ (100 : ℤ) := by norm_num
    linarith [h.2]
  have hfraction : ((d.digits * 10 ^ d.exponent.toNat : ℕ) / (10 ^ (-d.exponent).toNat : ℕ) : ℚ) =
      d.size := by
    rw [size]
    rcases le_total 0 d.exponent with he | he
    · have hz : (-d.exponent).toNat = 0 := by omega
      rw [hz, pow_zero, Nat.cast_one, div_one]
      push_cast
      rw [← zpow_natCast, Int.toNat_of_nonneg he]
    · have hz : d.exponent.toNat = 0 := by omega
      rw [hz, pow_zero, mul_one]
      push_cast
      rw [← zpow_natCast, Int.toNat_of_nonneg (by omega), zpow_neg, div_inv_eq_mul]
  have hguard : ¬ (d.digits = 0 || decide ((digitCount d.digits : ℤ) + d.exponent < -330)) = true := by
    simp [hpos.ne', hfar]
  unfold toBinary64
  simp only [if_neg hguard, if_neg hnear, hsign]
  rw [Binary64.ofFraction_eq_nearest _ (by positivity), hfraction]

/-- Zeros at the end do not matter. -/
theorem stripZeros_spec (fuel : ℕ) {d : Decimal} (hpos : 0 < d.digits) :
    (d.stripZeros fuel).negative = d.negative ∧ 0 < (d.stripZeros fuel).digits ∧
      (d.stripZeros fuel).digits ≤ d.digits ∧ (d.stripZeros fuel).size = d.size := by
  induction fuel generalizing d with
  | zero => exact ⟨rfl, hpos, le_rfl, rfl⟩
  | succ fuel ih =>
    rw [stripZeros, if_neg hpos.ne']
    split
    · rename_i hmod
      have hdiv : 0 < d.digits / 10 := by omega
      obtain ⟨hsign, hpos', hle, hsize⟩ := ih (d := { d with digits := d.digits / 10, exponent := d.exponent + 1 }) hdiv
      refine ⟨hsign, hpos', hle.trans (Nat.div_le_self _ _), hsize.trans ?_⟩
      have hdigits : (d.digits : ℚ) = (d.digits / 10 : ℕ) * 10 := by
        exact_mod_cast (Nat.div_mul_cancel (Nat.dvd_of_mod_eq_zero hmod)).symm
      simp only [size]
      rw [zpow_add₀ (by norm_num), zpow_one, hdigits]
      ring
    · exact ⟨rfl, hpos, le_rfl, rfl⟩

end Decimal

namespace Binary64

/-- A fraction of at least one has its first digit at the power of ten that is found. -/
theorem floorLog10_of_le {num den : ℕ} (hden : 0 < den) (hle : den ≤ num) :
    (10 : ℚ) ^ floorLog10 num den ≤ num / den ∧ (num / den : ℚ) < 10 ^ (floorLog10 num den + 1) := by
  obtain ⟨hlow, hhigh⟩ := digitCount_div hden hle
  have hc := digitCount_pos (num / den)
  have hexp : (10 : ℚ) ^ ((digitCount (num / den) : ℤ) - 1) = 10 ^ (digitCount (num / den) - 1) := by
    rw [← zpow_natCast]
    congr 1
    omega
  rw [floorLog10, if_pos hle, hexp, sub_add_cancel, zpow_natCast]
  exact ⟨hlow, hhigh⟩

/-- A fraction below one has its first digit at the power of ten that is found: it is found from the
digits of the inverse, and is one less unless the fraction reaches the power of ten that these give. -/
theorem floorLog10_of_lt {num den : ℕ} (hnum : 0 < num) (hlt : num < den) :
    (10 : ℚ) ^ floorLog10 num den ≤ num / den ∧ (num / den : ℚ) < 10 ^ (floorLog10 num den + 1) := by
  have hn : (0 : ℚ) < num := by exact_mod_cast hnum
  have hd : (0 : ℚ) < den := by exact_mod_cast hnum.trans hlt
  obtain ⟨hlow, hhigh⟩ := digitCount_div hnum hlt.le
  set q := den / num
  have hc := digitCount_pos q
  have hpos : (0 : ℚ) < den / num := div_pos hd hn
  have hinv : (num / den : ℚ) = 1 / (den / num) := by rw [one_div_div]
  have hexp : (10 : ℚ) ^ (-((digitCount q : ℤ) - 1)) = 1 / 10 ^ (digitCount q - 1) := by
    rw [zpow_neg, one_div, ← zpow_natCast]
    congr 2
    omega
  rw [floorLog10, if_neg (not_le.mpr hlt)]
  simp only
  split
  · rename_i hfirst
    have hfirst' : (den : ℚ) ≤ num * 10 ^ (digitCount q - 1) := by exact_mod_cast hfirst
    constructor
    · rw [hexp, div_le_div_iff₀ (by positivity) hd, one_mul]
      exact hfirst'
    · have hexp' : (10 : ℚ) ^ (-((digitCount q : ℤ) - 1) + 1) = 10 / 10 ^ (digitCount q - 1) := by
        rw [zpow_add₀ (by norm_num), hexp, zpow_one]
        ring
      rw [hexp', hinv, div_lt_div_iff₀ hpos (by positivity), one_mul]
      linarith [show (0 : ℚ) < 10 ^ (digitCount q - 1) by positivity]
  · rename_i hfirst
    have hfirst' : (num : ℚ) * 10 ^ (digitCount q - 1) < den := by exact_mod_cast not_le.mp hfirst
    constructor
    · rw [zpow_neg, zpow_natCast, hinv, ← one_div]
      exact one_div_le_one_div_of_le hpos hhigh.le
    · have hexp' : (-(digitCount q : ℤ) + 1) = -((digitCount q : ℤ) - 1) := by ring
      rw [hexp', hexp, div_lt_div_iff₀ hd (by positivity), one_mul]
      exact hfirst'

/-- A fraction has its first digit at the power of ten that is found. -/
theorem floorLog10_spec {num den : ℕ} (hnum : 0 < num) (hden : 0 < den) :
    (10 : ℚ) ^ floorLog10 num den ≤ num / den ∧ (num / den : ℚ) < 10 ^ (floorLog10 num den + 1) := by
  rcases le_or_gt den num with hle | hlt
  · exact floorLog10_of_le hden hle
  · exact floorLog10_of_lt hnum hlt

section Grid
variable {tie : Tie} {x : Binary64} {num den : ℕ} {k : ℤ} {d : Decimal}

/-- The multiple of `10 ^ k` below a fraction. -/
def gridFloor (num den : ℕ) (k : ℤ) : ℕ := num * 10 ^ (-k).toNat / (den * 10 ^ k.toNat)

theorem ten_zpow_eq (k : ℤ) : (10 : ℚ) ^ k = (10 ^ k.toNat : ℕ) / (10 ^ (-k).toNat : ℕ) := by
  rcases le_total 0 k with hk | hk
  · have h : (-k).toNat = 0 := by omega
    rw [h, pow_zero, Nat.cast_one, div_one, Nat.cast_pow, Nat.cast_ofNat, ← zpow_natCast,
      Int.toNat_of_nonneg hk]
  · have h : k.toNat = 0 := by omega
    rw [h, pow_zero, Nat.cast_one, one_div, Nat.cast_pow, Nat.cast_ofNat, ← zpow_natCast,
      Int.toNat_of_nonneg (by omega), zpow_neg, inv_inv]

theorem gridFloor_spec (num : ℕ) (hden : 0 < den) (k : ℤ) :
    (gridFloor num den k : ℚ) * 10 ^ k ≤ num / den ∧
      (num / den : ℚ) < (gridFloor num den k + 1 : ℕ) * 10 ^ k := by
  have hd : (0 : ℚ) < den := by exact_mod_cast hden
  have hb : 0 < den * 10 ^ k.toNat := by positivity
  have hp : (0 : ℚ) < (10 ^ (-k).toNat : ℕ) := by positivity
  have hlow := Nat.div_mul_le_self (num * 10 ^ (-k).toNat) (den * 10 ^ k.toNat)
  have hhigh := Nat.lt_mul_div_succ (num * 10 ^ (-k).toNat) hb
  rw [ten_zpow_eq, mul_div_assoc', mul_div_assoc', div_le_div_iff₀ hp hd, div_lt_div_iff₀ hd hp]
  constructor
  · calc ((gridFloor num den k : ℕ) : ℚ) * (10 ^ k.toNat : ℕ) * den
        = (gridFloor num den k * (den * 10 ^ k.toNat) : ℕ) := by push_cast; ring
      _ ≤ (num * 10 ^ (-k).toNat : ℕ) := by exact_mod_cast hlow
      _ = num * (10 ^ (-k).toNat : ℕ) := by push_cast; ring
  · calc (num : ℚ) * (10 ^ (-k).toNat : ℕ) = (num * 10 ^ (-k).toNat : ℕ) := by push_cast; ring
      _ < (den * 10 ^ k.toNat * (gridFloor num den k + 1) : ℕ) := by exact_mod_cast hhigh
      _ = ((gridFloor num den k + 1 : ℕ) : ℚ) * (10 ^ k.toNat : ℕ) * den := by push_cast; ring

/-- What is found on a grid reads back as the number. -/
theorem onGrid?_eq_some (h : onGrid? tie x num den k = some d) :
    d.negative = false ∧ d.exponent = k ∧ d.toBinary64 = x ∧
      (d.digits = gridFloor num den k ∨ d.digits = gridFloor num den k + 1) := by
  unfold onGrid? at h
  extract_lets top bottom low rest readsBack at h
  split at h
  · cases h
  · rename_i hlow hhigh
    cases h
    exact ⟨rfl, rfl, beq_iff_eq.mp hlow, .inl rfl⟩
  · rename_i hlow hhigh
    cases h
    exact ⟨rfl, rfl, beq_iff_eq.mp hhigh, .inr rfl⟩
  · rename_i hlow hhigh
    split at h
    · cases h
      exact ⟨rfl, rfl, beq_iff_eq.mp hlow, .inl rfl⟩
    split at h
    · cases h
      exact ⟨rfl, rfl, beq_iff_eq.mp hhigh, .inr rfl⟩
    cases tie with
    | upward =>
      cases h
      exact ⟨rfl, rfl, beq_iff_eq.mp hhigh, .inr rfl⟩
    | toEven =>
      cases h
      rcases Nat.mod_two_eq_zero_or_one (gridFloor num den k) with hmod | hmod
      · refine ⟨rfl, rfl, ?_, .inl ?_⟩
        · change (Decimal.mk false (gridFloor num den k + gridFloor num den k % 2) k).toBinary64 = x
          rw [hmod, add_zero]
          exact beq_iff_eq.mp hlow
        · change gridFloor num den k + gridFloor num den k % 2 = _
          omega
      · refine ⟨rfl, rfl, ?_, .inr ?_⟩
        · change (Decimal.mk false (gridFloor num den k + gridFloor num den k % 2) k).toBinary64 = x
          rw [hmod]
          exact beq_iff_eq.mp hhigh
        · change gridFloor num den k + gridFloor num den k % 2 = _
          omega

theorem isSome_onGrid? (h : (Decimal.mk false (gridFloor num den k) k).toBinary64 = x ∨
    (Decimal.mk false (gridFloor num den k + 1) k).toBinary64 = x) :
    (onGrid? tie x num den k).isSome := by
  by_contra hnone
  rw [Option.not_isSome_iff_eq_none] at hnone
  unfold onGrid? at hnone
  extract_lets top bottom low rest readsBack at hnone
  split at hnone
  · rename_i hlow hhigh
    rcases h with h | h
    · exact Bool.noConfusion (hlow.symm.trans (beq_iff_eq.mpr h))
    · exact Bool.noConfusion (hhigh.symm.trans (beq_iff_eq.mpr h))
  · cases hnone
  · cases hnone
  · split at hnone
    · cases hnone
    split at hnone
    · cases hnone
    cases tie <;> cases hnone

end Grid

section Shortest
variable {m : ℕ} {e : ℤ} {k : ℤ} {tie : Tie}

/-- A range of numbers that are written with digits in range. -/
def InCore (r : ℚ) : Prop := (2 : ℚ) ^ (-100 : ℤ) ≤ r ∧ r ≤ 2 ^ (100 : ℤ)

theorem InCore.inRange {r : ℚ} (h : InCore r) : InRange r :=
  ⟨(zpow_le_zpow_right₀ one_le_two (by norm_num)).trans h.1,
    h.2.trans (zpow_le_zpow_right₀ one_le_two (by norm_num))⟩

/-- What is not farther from a number than the number, and not too small, is in range. -/
theorem inRange_of_core {r s : ℚ} (hr : InCore r) (hlow : r ≤ s * 10 ^ 17) (hhigh : s ≤ 2 * r) :
    InRange s := by
  have h₁ : (2 : ℚ) ^ (-200 : ℤ) * 10 ^ 17 ≤ 2 ^ (-100 : ℤ) := by norm_num
  have h₂ : (2 : ℚ) * 2 ^ (100 : ℤ) ≤ 2 ^ (200 : ℤ) := by norm_num
  have hpos : (0 : ℚ) < 10 ^ 17 := by positivity
  refine ⟨le_of_mul_le_mul_right (h₁.trans (hr.1.trans hlow)) hpos, ?_⟩
  have := hr.2
  linarith

/-- On a grid of 17 digits one of the neighbours of a number reads back as the number. -/
theorem reads_back {s : ℚ} (hs : 0 < s) (hnormal : IsNormal m e) (hr : InCore (m * 2 ^ e))
    (hfine : 10 ^ 16 * s ≤ m * 2 ^ e) {low : ℕ} (hlow : low * s ≤ m * 2 ^ e)
    (hhigh : (m : ℚ) * 2 ^ e < (low + 1 : ℕ) * s) :
    (0 < low ∧ InRange (low * s) ∧ nearest (low * s) = .finite false m e) ∨
      (InRange ((low + 1 : ℕ) * s) ∧ nearest ((low + 1 : ℕ) * s) = .finite false m e) := by
  have hp : (0 : ℚ) < 2 ^ e := by positivity
  have hm₁ : ((2 ^ 52 : ℕ) : ℚ) ≤ m := by exact_mod_cast hnormal.mantissa.1
  have hm₂ : (m : ℚ) + 1 ≤ (2 ^ 53 : ℕ) := by exact_mod_cast hnormal.mantissa.2
  have hbase : (2 : ℚ) ^ (e + 52) = (2 ^ 52 : ℕ) * 2 ^ e := by
    rw [zpow_add₀ two_ne_zero, mul_comm]
    norm_num
  have hnext : ((low + 1 : ℕ) : ℚ) * s = low * s + s := by
    push_cast
    ring
  -- the grid is finer than the last bit
  have hspace : 10 ^ 16 * s < (2 ^ 53 : ℕ) * 2 ^ e :=
    hfine.trans_lt (mul_lt_mul_of_pos_right (by linarith) hp)
  have hsmall : 10 * s < 9.01 * 2 ^ e := by
    norm_num at hspace ⊢
    linarith
  rw [hnext] at hhigh ⊢
  have hm0 : (0 : ℚ) < m := lt_of_lt_of_le (by norm_num) hm₁
  have hr0 : (0 : ℚ) < m * 2 ^ e := mul_pos hm0 hp
  rcases lt_or_ge (low * s + s - m * 2 ^ e) (2 ^ e / 2) with hup | hup
  · right
    have hin : InRange (low * s + s) := by
      refine inRange_of_core hr ?_ ?_
      · linarith
      · linarith
    refine ⟨hin, nearest_eq_of_abs_lt hin hnormal ?_ ?_⟩
    · rw [hbase]
      exact (mul_le_mul_of_nonneg_right hm₁ hp.le).trans hhigh.le
    · rw [abs_of_pos (by linarith)]
      exact hup
  · left
    -- the number is not the least with its exponent, or the grid would be finer still
    have hm₃ : ((2 ^ 52 + 1 : ℕ) : ℚ) ≤ m := by
      rcases eq_or_lt_of_le hnormal.mantissa.1 with heq | hlt
      · exfalso
        rw [← heq] at hfine
        norm_num at hfine
        linarith
      · exact_mod_cast hlt
    have hm₄ : ((2 ^ 52 + 1 : ℕ) : ℚ) * 2 ^ e ≤ m * 2 ^ e := mul_le_mul_of_nonneg_right hm₃ hp.le
    have hge : ((2 ^ 52 : ℕ) : ℚ) * 2 ^ e ≤ low * s := by
      norm_num at hm₄ ⊢
      linarith
    have hlowpos : 0 < low := by
      rcases Nat.eq_zero_or_pos low with h | h
      · rw [h] at hge
        norm_num at hge
        linarith
      · exact h
    have hin : InRange (low * s) := by
      refine inRange_of_core hr ?_ (by linarith)
      have hm₅ : (m : ℚ) * 2 ^ e ≤ (2 ^ 53 : ℕ) * 2 ^ e := mul_le_mul_of_nonneg_right (by linarith) hp.le
      norm_num at hm₅ hge ⊢
      linarith
    refine ⟨hlowpos, hin, nearest_eq_of_abs_lt hin hnormal (by rw [hbase]; exact hge) ?_⟩
    rw [abs_sub_comm, abs_of_nonneg (by linarith)]
    linarith

theorem num_pos (hnormal : IsNormal m e) : 0 < num m e := by
  have hm : 0 < m := lt_of_lt_of_le (by norm_num) hnormal.mantissa.1
  unfold num
  positivity

/-- The power of ten at which a number has its first digit. -/
theorem floorLog10_bounds (hnormal : IsNormal m e) :
    (10 : ℚ) ^ floorLog10 (num m e) (den e) ≤ m * 2 ^ e ∧
      (m : ℚ) * 2 ^ e < 10 ^ (floorLog10 (num m e) (den e) + 1) := by
  have h := floorLog10_spec (num_pos hnormal) (den_pos e)
  rwa [num_div_den] at h

/-- A number lies between a multiple of a power of ten and the next one. -/
theorem gridFloor_bounds (m : ℕ) (e k : ℤ) :
    (gridFloor (num m e) (den e) k : ℚ) * 10 ^ k ≤ m * 2 ^ e ∧
      (m : ℚ) * 2 ^ e < (gridFloor (num m e) (den e) k + 1 : ℕ) * 10 ^ k := by
  have h := gridFloor_spec (num m e) (den_pos e) k
  rwa [num_div_den] at h

/-- What is found on a grid of at most 17 digits. -/
theorem onGrid?_spec (hnormal : IsNormal m e) (hr : InCore (m * 2 ^ e)) {n : ℕ} (hn : n < 17)
    {d : Decimal} (h : onGrid? tie (.finite false m e) (num m e) (den e)
      (floorLog10 (num m e) (den e) - n) = some d) :
    d.negative = false ∧ 0 < d.digits ∧ d.digits ≤ 10 ^ (n + 1) ∧ InRange d.size ∧
      nearest d.size = .finite false m e := by
  set first := floorLog10 (num m e) (den e) with hfirst
  have hm : 0 < m := lt_of_lt_of_le (by norm_num) hnormal.mantissa.1
  obtain ⟨hsign, hexp, hreads, hdigits⟩ := onGrid?_eq_some h
  obtain ⟨hfloor, hnext⟩ := gridFloor_bounds m e (first - n)
  obtain ⟨hten, hten'⟩ := floorLog10_bounds hnormal
  rw [← hfirst] at hten hten'
  set low := gridFloor (num m e) (den e) (first - n)
  have hs : (0 : ℚ) < 10 ^ (first - n) := by positivity
  have hgrid : (10 : ℚ) ^ (first + 1) = 10 ^ (n + 1) * 10 ^ (first - n) := by
    rw [← zpow_natCast, ← zpow_add₀ (by norm_num)]
    congr 1
    push_cast
    ring
  have hcoarse : (10 : ℚ) ^ (n + 1) ≤ 10 ^ 17 := pow_le_pow_right₀ (by norm_num) (by omega)
  have hlowlt : low < 10 ^ (n + 1) := by
    have hlt : (low : ℚ) * 10 ^ (first - n) < 10 ^ (n + 1) * 10 ^ (first - n) := by
      rw [← hgrid]
      exact hfloor.trans_lt hten'
    exact_mod_cast lt_of_mul_lt_mul_right hlt hs.le
  have hle : d.digits ≤ 10 ^ (n + 1) := by omega
  have hpos : 0 < d.digits := by
    rcases Nat.eq_zero_or_pos d.digits with hz | hz
    · exfalso
      rw [Decimal.toBinary64, hz] at hreads
      simp only [decide_true, Bool.true_or, if_true, zero] at hreads
      have hzero : 0 = m := (Binary64.finite.inj hreads).2.1
      omega
    · exact hz
  have hone : (1 : ℚ) ≤ d.digits := by exact_mod_cast hpos
  have hdigits' : (d.digits : ℚ) ≤ low + 1 := by
    have : d.digits ≤ low + 1 := by omega
    exact_mod_cast this
  have hsize : d.size = d.digits * 10 ^ (first - n) := by rw [Decimal.size, hexp]
  have hsmall : (10 : ℚ) ^ (first - n) ≤ m * 2 ^ e :=
    (zpow_le_zpow_right₀ (by norm_num) (by omega)).trans hten
  have hin : InRange d.size := by
    refine inRange_of_core hr ?_ ?_
    · rw [hsize]
      calc (m : ℚ) * 2 ^ e ≤ 10 ^ (n + 1) * 10 ^ (first - n) := by rw [← hgrid]; exact hten'.le
        _ ≤ 10 ^ 17 * 10 ^ (first - n) := mul_le_mul_of_nonneg_right hcoarse hs.le
        _ ≤ d.digits * 10 ^ (first - n) * 10 ^ 17 := by nlinarith
    · rw [hsize]
      have h₁ : (d.digits : ℚ) * 10 ^ (first - n) ≤ (low + 1) * 10 ^ (first - n) :=
        mul_le_mul_of_nonneg_right hdigits' hs.le
      rw [add_mul, one_mul] at h₁
      linarith
  refine ⟨hsign, hpos, hle, hin, ?_⟩
  rw [← Decimal.toBinary64_eq_nearest hsign hpos hin, hreads]

/-- On the finest grid there is always something to find. -/
theorem isSome_onGrid?_finest (hnormal : IsNormal m e) (hr : InCore (m * 2 ^ e)) :
    (onGrid? tie (.finite false m e) (num m e) (den e)
      (floorLog10 (num m e) (den e) - (16 : ℕ))).isSome := by
  set first := floorLog10 (num m e) (den e) with hfirst
  obtain ⟨hten, -⟩ := floorLog10_bounds hnormal
  obtain ⟨hfloor, hnext⟩ := gridFloor_bounds m e (first - (16 : ℕ))
  rw [← hfirst] at hten
  set low := gridFloor (num m e) (den e) (first - (16 : ℕ))
  have hs : (0 : ℚ) < 10 ^ (first - (16 : ℕ)) := by positivity
  have hfine : (10 : ℚ) ^ 16 * 10 ^ (first - (16 : ℕ)) ≤ m * 2 ^ e := by
    rw [← zpow_natCast, ← zpow_add₀ (by norm_num), add_sub_cancel]
    exact hten
  refine isSome_onGrid? ?_
  rcases reads_back hs hnormal hr hfine hfloor hnext with ⟨hpos, hin, heq⟩ | ⟨hin, heq⟩
  · exact .inl ((Decimal.toBinary64_eq_nearest (d := ⟨false, low, first - (16 : ℕ)⟩) rfl hpos hin).trans heq)
  · exact .inr ((Decimal.toBinary64_eq_nearest (d := ⟨false, low + 1, first - (16 : ℕ)⟩) rfl
      (Nat.succ_pos low) hin).trans heq)

/-- The decimal that is written for a number has at most 17 digits, and the number is nearest
to it. -/
theorem shortest_spec (tie : Tie) (hnormal : IsNormal m e) (hr : InCore (m * 2 ^ e)) :
    (shortest tie m e).negative = false ∧ 0 < (shortest tie m e).digits ∧
      (shortest tie m e).digits ≤ 10 ^ 17 ∧ InRange (shortest tie m e).size ∧
      nearest (shortest tie m e).size = .finite false m e := by
  have hm : m ≠ 0 := (lt_of_lt_of_le (by norm_num) hnormal.mantissa.1).ne'
  obtain ⟨d, hd⟩ : ∃ d, ((List.range 17).findSome? fun (n : ℕ) => onGrid? tie (.finite false m e)
      (num m e) (den e) (floorLog10 (num m e) (den e) - (n : ℤ))) = some d := by
    refine Option.isSome_iff_exists.mp (List.findSome?_isSome_iff.mpr ⟨16, by simp, ?_⟩)
    exact isSome_onGrid?_finest hnormal hr
  obtain ⟨n, hn, hgrid⟩ := List.exists_of_findSome?_eq_some hd
  have hn' := List.mem_range.mp hn
  obtain ⟨hsign, hpos, hle, hin, hnearest⟩ := onGrid?_spec hnormal hr hn' hgrid
  obtain ⟨hsign', hpos', hle', hsize⟩ := Decimal.stripZeros_spec 400 hpos
  have hmax : 10 ^ (n + 1) ≤ 10 ^ 17 := Nat.pow_le_pow_right (by norm_num) hn'
  unfold shortest
  simp only [if_neg hm, hd, Option.getD_some]
  rw [hsize]
  exact ⟨hsign'.trans hsign, hpos', (hle'.trans hle).trans hmax, hin, hnearest⟩

/-- Once a grid has something to find, no finer one is tried. -/
theorem shortest_digits_le_of_grid (hnormal : IsNormal m e) (hr : InCore (m * 2 ^ e)) {n : ℕ} (hn : n < 17)
    (hsome : (onGrid? tie (.finite false m e) (num m e) (den e)
      (floorLog10 (num m e) (den e) - (n : ℤ))).isSome) : (shortest tie m e).digits ≤ 10 ^ (n + 1) := by
  have hm : m ≠ 0 := (lt_of_lt_of_le (by norm_num) hnormal.mantissa.1).ne'
  obtain ⟨d, hd⟩ : ∃ d, ((List.range (n + 1)).findSome? fun (n : ℕ) => onGrid? tie (.finite false m e)
      (num m e) (den e) (floorLog10 (num m e) (den e) - (n : ℤ))) = some d :=
    Option.isSome_iff_exists.mp (List.findSome?_isSome_iff.mpr ⟨n, by simp, hsome⟩)
  have hall : ((List.range 17).findSome? fun (n : ℕ) => onGrid? tie (.finite false m e)
      (num m e) (den e) (floorLog10 (num m e) (den e) - (n : ℤ))) = some d := by
    rw [show 17 = (n + 1) + (16 - n) by omega, List.range_add, List.findSome?_append, hd,
      Option.some_or]
  obtain ⟨n', hn', hgrid⟩ := List.exists_of_findSome?_eq_some hd
  have hlt := List.mem_range.mp hn'
  obtain ⟨-, hpos, hle, -, -⟩ := onGrid?_spec hnormal hr (by omega) hgrid
  obtain ⟨-, -, hle', -⟩ := Decimal.stripZeros_spec 400 hpos
  have hmax : 10 ^ (n' + 1) ≤ 10 ^ (n + 1) := Nat.pow_le_pow_right (by norm_num) (by omega)
  unfold shortest
  simp only [if_neg hm, hall, Option.getD_some]
  exact (hle'.trans hle).trans hmax

/-- A multiple of a power of ten to which a number is nearest is next to the number, if the grid is
not much finer than the number is. -/
theorem eq_gridFloor_or_succ (hnormal : IsNormal m e) {N : ℕ} (hin : InRange (N * 10 ^ k))
    (heq : nearest (N * 10 ^ k) = .finite false m e) (hhigh : (m : ℚ) * 2 ^ e < 10 ^ (k + 15)) :
    N = gridFloor (num m e) (den e) k ∨ N = gridFloor (num m e) (den e) k + 1 := by
  obtain ⟨hfloor, hnext⟩ := gridFloor_bounds m e k
  set low := gridFloor (num m e) (den e) k
  have hp : (0 : ℚ) < 10 ^ k := by positivity
  have hclose := abs_le.mp (abs_sub_nearest_le hin heq)
  have hgap : (2 : ℚ) ^ e / 2 < 10 ^ k := by
    have hm : ((2 ^ 52 : ℕ) : ℚ) * 2 ^ e ≤ m * 2 ^ e :=
      mul_le_mul_of_nonneg_right (by exact_mod_cast hnormal.mantissa.1) (by positivity)
    rw [zpow_add₀ (by norm_num)] at hhigh
    norm_num at hm hhigh
    linarith
  have hlow : low < N + 1 := by
    have h : (low : ℚ) * 10 ^ k < (N + 1 : ℕ) * 10 ^ k := by
      push_cast
      linarith
    exact_mod_cast lt_of_mul_lt_mul_right h hp.le
  have hlarge : N < low + 2 := by
    have h : (N : ℚ) * 10 ^ k < (low + 2 : ℕ) * 10 ^ k := by
      push_cast at hnext ⊢
      linarith
    exact_mod_cast lt_of_mul_lt_mul_right h hp.le
  omega

/-- A number that is nearest to a decimal with few digits is written with few digits. -/
theorem shortest_digits_le (tie : Tie) (hnormal : IsNormal m e) (hr : InCore (m * 2 ^ e)) {N : ℕ}
    (hin : InRange (N * 10 ^ k)) (heq : nearest (N * 10 ^ k) = .finite false m e)
    (hlow : (10 : ℚ) ^ k ≤ m * 2 ^ e) (hhigh : (m : ℚ) * 2 ^ e < 10 ^ (k + 15)) :
    (shortest tie m e).digits ≤ 10 ^ 15 := by
  obtain ⟨hten, hten'⟩ := floorLog10_bounds hnormal
  set first := floorLog10 (num m e) (den e) with hfirst
  have hk : k < first + 1 := (zpow_lt_zpow_iff_right₀ (by norm_num : (1 : ℚ) < 10)).mp (hlow.trans_lt hten')
  have hk' : first < k + 15 := (zpow_lt_zpow_iff_right₀ (by norm_num : (1 : ℚ) < 10)).mp (hten.trans_lt hhigh)
  obtain ⟨n, hn⟩ : ∃ n : ℕ, first - n = k := ⟨(first - k).toNat, by omega⟩
  have hNpos : 0 < N := by
    rcases Nat.eq_zero_or_pos N with h | h
    · have := hin.pos
      simp [h] at this
    · exact h
  have hreads : (Decimal.mk false N k).toBinary64 = .finite false m e :=
    (Decimal.toBinary64_eq_nearest (d := ⟨false, N, k⟩) rfl hNpos hin).trans heq
  have hsome : (onGrid? tie (.finite false m e) (num m e) (den e) (first - (n : ℤ))).isSome := by
    rw [hn]
    refine isSome_onGrid? ?_
    rcases eq_gridFloor_or_succ hnormal hin heq hhigh with h | h
    · exact .inl (h ▸ hreads)
    · exact .inr (h ▸ hreads)
  calc (shortest tie m e).digits ≤ 10 ^ (n + 1) := shortest_digits_le_of_grid hnormal hr (by omega) hsome
    _ ≤ 10 ^ 15 := Nat.pow_le_pow_right (by norm_num) (by omega)

end Shortest

end Binary64

end Workboard
