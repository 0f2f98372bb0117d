import Workboard.Lock.Record
import Workboard.Proofs.Json.Number

/-!
# Timeouts as hours

A timeout is kept as a number of hours, which is a rounded quotient, is written with the
fewest digits, and is not always read back as the same number. Main statements: the
number that is read back may be off, but it stays between the multiples of `10 ^ -8`
around the timeout, and there it is the same timeout in milliseconds.
-/
namespace Workboard
open Binary64

section Range

theorem inRange_of_le {r : ℚ} (hlow : 10 ^ (-10 : ℤ) ≤ r) (hhigh : r ≤ 10 ^ 22) : InRange r := by
  have h₁ : (2 : ℚ) ^ (-200 : ℤ) ≤ 10 ^ (-10 : ℤ) := by norm_num
  have h₂ : (10 : ℚ) ^ 22 ≤ 2 ^ (200 : ℤ) := by norm_num
  exact ⟨h₁.trans hlow, hhigh.trans h₂⟩

theorem inCore_of_le {r : ℚ} (hlow : 10 ^ (-10 : ℤ) ≤ r) (hhigh : r ≤ 10 ^ 22) : InCore r := by
  have h₁ : (2 : ℚ) ^ (-100 : ℤ) ≤ 10 ^ (-10 : ℤ) := by norm_num
  have h₂ : (10 : ℚ) ^ 22 ≤ 2 ^ (100 : ℤ) := by norm_num
  exact ⟨h₁.trans hlow, hhigh.trans h₂⟩

theorem inRange_natCast {n : ℕ} (hpos : 0 < n) (hle : n ≤ 10 ^ 22) : InRange n := by
  have h₁ : (1 : ℚ) ≤ n := by exact_mod_cast hpos
  have h₂ : (n : ℚ) ≤ 10 ^ 22 := by exact_mod_cast hle
  exact inRange_of_le (le_trans (by norm_num) h₁) h₂

end Range

section Bounds
variable {ms : ℕ}

/-- The multiple of `10 ^ -8` below so many milliseconds in hours. -/
def hoursBelow (ms : ℕ) : ℚ := (250 * ms / 9 : ℕ) * 10 ^ (-8 : ℤ)

/-- The multiple of `10 ^ -8` above so many milliseconds in hours. -/
def hoursAbove (ms : ℕ) : ℚ := ((250 * ms + 8) / 9 : ℕ) * 10 ^ (-8 : ℤ)

theorem hoursBelow_bounds (ms : ℕ) :
    hoursBelow ms ≤ ms / 3600000 ∧ (ms / 3600000 : ℚ) < hoursBelow ms + 10 ^ (-8 : ℤ) := by
  have h₁ : 250 * ms / 9 * 9 ≤ 250 * ms := Nat.div_mul_le_self _ _
  have h₂ : 250 * ms < (250 * ms / 9 + 1) * 9 := by omega
  have h₁' : ((250 * ms / 9 : ℕ) : ℚ) * 9 ≤ 250 * ms := by exact_mod_cast h₁
  have h₂' : (250 * ms : ℚ) < ((250 * ms / 9 : ℕ) + 1) * 9 := by exact_mod_cast h₂
  unfold hoursBelow
  norm_num
  constructor <;> linarith

theorem hoursAbove_bounds (ms : ℕ) :
    (ms / 3600000 : ℚ) ≤ hoursAbove ms ∧ hoursAbove ms < ms / 3600000 + 10 ^ (-8 : ℤ) := by
  have h₁ : 250 * ms ≤ (250 * ms + 8) / 9 * 9 := by omega
  have h₂ : (250 * ms + 8) / 9 * 9 < 250 * ms + 9 := by omega
  have h₁' : (250 * ms : ℚ) ≤ ((250 * ms + 8) / 9 : ℕ) * 9 := by exact_mod_cast h₁
  have h₂' : (((250 * ms + 8) / 9 : ℕ) : ℚ) * 9 < 250 * ms + 9 := by exact_mod_cast h₂
  unfold hoursAbove
  norm_num
  constructor <;> linarith

/-- The milliseconds of a timeout that may be asked for. -/
def AllowedMillis (ms : ℕ) : Prop := 0 < ms ∧ ms ≤ 3600000 * maxTimeoutHours

theorem hours_le (h : AllowedMillis ms) : hoursAbove ms ≤ 8760 := by
  have hmax : ms ≤ 3600000 * 8760 := h.2
  have hle : (250 * ms + 8) / 9 ≤ 876000000000 := by omega
  have hle' : (((250 * ms + 8) / 9 : ℕ) : ℚ) ≤ 876000000000 := by exact_mod_cast hle
  unfold hoursAbove
  norm_num
  linarith

theorem le_hours (h : AllowedMillis ms) : (27 * 10 ^ (-8 : ℤ) : ℚ) ≤ hoursBelow ms := by
  have hpos := h.1
  have hle : 27 ≤ 250 * ms / 9 := by omega
  have hle' : (27 : ℚ) ≤ ((250 * ms / 9 : ℕ) : ℚ) := by exact_mod_cast hle
  unfold hoursBelow
  norm_num
  linarith

/-- Everything between the bounds is in range. -/
theorem inRange_of_between (h : AllowedMillis ms) {r : ℚ} (hlow : hoursBelow ms ≤ r)
    (hhigh : r ≤ hoursAbove ms) : InRange r := by
  have h₁ := le_hours h
  have h₂ := hours_le h
  exact inRange_of_le (by norm_num at h₁ ⊢; linarith) (by norm_num; linarith)

theorem below_le_above (ms : ℕ) : hoursBelow ms ≤ hoursAbove ms :=
  (hoursBelow_bounds ms).1.trans (hoursAbove_bounds ms).1

end Bounds

/-- Rounding moves a number below `2 ^ 14` by little. -/
theorem abs_nearest_sub_le {r : ℚ} (h : InRange r) (hr : r < 2 ^ 14) :
    |toRat (nearest r) - r| ≤ 2 ^ (-36 : ℤ) := by
  have hp : (0 : ℚ) < 2 ^ (-36 : ℤ) := by positivity
  have hcancel : r * 2 ^ (36 : ℤ) * 2 ^ (-36 : ℤ) = r := by
    rw [mul_assoc, ← zpow_add₀ two_ne_zero]
    norm_num
  set n := ⌊r * 2 ^ (36 : ℤ)⌋₊ with hn
  have hlow : (n : ℚ) ≤ r * 2 ^ (36 : ℤ) := Nat.floor_le (mul_nonneg h.pos.le (by positivity))
  have hhigh : r * 2 ^ (36 : ℤ) < (n + 1 : ℕ) := by
    push_cast
    exact Nat.lt_floor_add_one _
  have hbound : (n : ℚ) < (2 ^ 50 : ℕ) := by
    refine hlow.trans_lt ?_
    norm_num
    linarith
  have hn' : n < 2 ^ 50 := by exact_mod_cast hbound
  have hlow' := mul_le_mul_of_nonneg_right hlow hp.le
  have hhigh' := mul_lt_mul_of_pos_right hhigh hp
  rw [hcancel] at hlow' hhigh'
  have h₁ := le_nearest h ⟨n, -36, by omega, rfl⟩ hlow'
  have h₂ := nearest_le h ⟨n + 1, -36, by omega, rfl⟩ hhigh'.le
  push_cast at hhigh' h₂
  rw [abs_le]
  constructor <;> linarith

/-- A number of hours that stands for so many milliseconds, however often it was written and
read back. -/
structure StandsFor (ms : ℕ) (hours : Binary64) : Prop where
  between : ∃ m e, hours = .finite false m e ∧ IsNormal m e ∧
    toRat (nearest (hoursBelow ms)) ≤ m * 2 ^ e ∧ (m : ℚ) * 2 ^ e ≤ toRat (nearest (hoursAbove ms))
  exact_of_few : ms < 4 → hours = nearest (ms / 3600000)

section Hours
variable {ms : ℕ} {hours : Binary64}

/-- The nearest number of something between the bounds is between the bounds. -/
theorem between_nearest (h : AllowedMillis ms) {r : ℚ} (hlow : hoursBelow ms ≤ r)
    (hhigh : r ≤ hoursAbove ms) : ∃ m e, nearest r = .finite false m e ∧ IsNormal m e ∧
      toRat (nearest (hoursBelow ms)) ≤ m * 2 ^ e ∧
      (m : ℚ) * 2 ^ e ≤ toRat (nearest (hoursAbove ms)) := by
  have hin := inRange_of_between h hlow hhigh
  obtain ⟨m, e, heq, hnormal, -⟩ := exists_nearest hin
  have h₁ := nearest_mono (inRange_of_between h le_rfl (below_le_above ms)) hin hlow
  have h₂ := nearest_mono hin (inRange_of_between h (below_le_above ms) le_rfl) hhigh
  rw [heq, toRat_finite] at h₁ h₂
  exact ⟨m, e, heq, hnormal, h₁, h₂⟩

/-- The quotient of two small whole numbers is the number nearest to it. -/
theorem ofNat_div_ofNat {a b : ℕ} (ha : 0 < a ∧ a ≤ 2 ^ 53) (hb : 0 < b ∧ b ≤ 2 ^ 53) :
    ofNat a / ofNat b = nearest (a / b) := by
  have hin : ∀ {n : ℕ}, 0 < n ∧ n ≤ 2 ^ 53 → InRange n := fun hn =>
    inRange_natCast hn.1 (hn.2.trans (by norm_num))
  rw [ofNat_eq_nearest, ofNat_eq_nearest, nearest_div_nearest (hin ha) (hin hb),
    toRat_nearest_of_isShort (hin ha) (isShort_natCast ha.2),
    toRat_nearest_of_isShort (hin hb) (isShort_natCast hb.2)]

/-- The hours that are written for a timeout stand for it. -/
theorem standsFor_hoursOfTimeout (h : AllowedMillis ms) :
    StandsFor ms (hoursOfTimeout (.ofMillis ms)) := by
  have hmax : ms ≤ 3600000 * 8760 := h.2
  have heq : hoursOfTimeout (.ofMillis ms) = nearest (ms / 3600000) := by
    have hneg : ¬ ((ms : ℤ) < 0) := by omega
    unfold hoursOfTimeout millisPerHour
    simp only [Duration.millis_ofMillis, Int.natAbs_natCast, if_neg hneg]
    rw [ofNat_div_ofNat ⟨h.1, by omega⟩ ⟨by norm_num, by norm_num⟩]
    norm_num
  refine ⟨?_, fun _ => heq⟩
  rw [heq]
  exact between_nearest h (hoursBelow_bounds ms).1 (hoursAbove_bounds ms).1

/-- Hours that stand for a timeout are as close to it as one needs. -/
theorem StandsFor.close (h : AllowedMillis ms) (hx : StandsFor ms hours) : ∃ m e,
    hours = .finite false m e ∧ IsNormal m e ∧
      |(m : ℚ) * 2 ^ e - ms / 3600000| < 10 ^ (-8 : ℤ) + 2 ^ (-36 : ℤ) ∧
      (m : ℚ) * 2 ^ e ≤ 8760 := by
  obtain ⟨m, e, heq, hnormal, hlow, hhigh⟩ := hx.between
  refine ⟨m, e, heq, hnormal, ?_, ?_⟩
  · have hle := hours_le h
    have hin := inRange_of_between h le_rfl (below_le_above ms)
    have hin' := inRange_of_between h (below_le_above ms) le_rfl
    have h₁ := (abs_le.mp (abs_nearest_sub_le hin
      (lt_of_le_of_lt ((below_le_above ms).trans hle) (by norm_num)))).1
    have h₂ := (abs_le.mp (abs_nearest_sub_le hin' (lt_of_le_of_lt hle (by norm_num)))).2
    have h₃ := (hoursBelow_bounds ms).2
    have h₄ := (hoursAbove_bounds ms).2
    norm_num at h₁ h₂ h₃ h₄
    rw [abs_lt]
    norm_num
    constructor <;> linarith
  · refine hhigh.trans (nearest_le (inRange_of_between h (below_le_above ms) le_rfl) ?_ (hours_le h))
    exact_mod_cast isShort_natCast (n := 8760) (by norm_num)

/-- The most hours a timeout may have. -/
theorem exists_maxHours : ∃ n f, maxHours = .finite false n f ∧ IsNormal n f ∧ (n : ℚ) * 2 ^ f = 8760 := by
  have hin : InRange ((8760 : ℕ) : ℚ) := inRange_natCast (by norm_num) (by norm_num)
  obtain ⟨n, f, heq, hnormal, -⟩ := exists_nearest hin
  have hval := toRat_nearest_of_isShort hin (isShort_natCast (by norm_num))
  rw [heq, toRat_finite] at hval
  exact ⟨n, f, (ofNat_eq_nearest 8760).trans heq, hnormal, by exact_mod_cast hval⟩

/-- Hours in milliseconds, rounded. -/
theorem finite_mul_millisPerHour (m : ℕ) (e : ℤ) :
    .finite false m e * millisPerHour = nearest (m * 2 ^ e * 3600000) := by
  have hin : InRange ((3600000 : ℕ) : ℚ) := inRange_natCast (by norm_num) (by norm_num)
  obtain ⟨n, f, heq, -, -⟩ := exists_nearest hin
  have hval := toRat_nearest_of_isShort hin (isShort_natCast (by norm_num))
  rw [heq, toRat_finite] at hval
  rw [millisPerHour, ofNat_eq_nearest, heq, mul_finite, hval, Nat.cast_ofNat]

/-- Hours that stand for a timeout are read as that timeout. -/
theorem StandsFor.timeoutOfHours? (h : AllowedMillis ms) (hx : StandsFor ms hours) :
    timeoutOfHours? hours = some (.ofMillis ms) := by
  obtain ⟨m, e, rfl, hnormal, hclose, hle⟩ := hx.close h
  have hms : (1 : ℚ) ≤ ms := by exact_mod_cast h.1
  have hms' : (ms : ℚ) ≤ 3600000 * 8760 := by exact_mod_cast h.2
  obtain ⟨hlow, hhigh⟩ := abs_lt.mp hclose
  norm_num at hlow hhigh
  have hpos : (0 : ℚ) < m * 2 ^ e := by linarith
  -- the hours are above zero and at most a year
  have hzero : le (.finite false m e) (.zero false) = false := by
    rw [← Bool.not_eq_true, zero, le_finite_iff hnormal.exponent.1 (f := -1074) le_rfl]
    simp only [Nat.cast_zero, zero_mul]
    exact not_le.mpr hpos
  have hmaxHours : le (.finite false m e) maxHours = true := by
    obtain ⟨n, f, hmax, hnormal', hval⟩ := exists_maxHours
    rw [hmax, le_finite_iff hnormal.exponent.1 hnormal'.exponent.1, hval]
    exact hle
  -- in milliseconds they are off by less than a quarter
  have hinProduct : InRange (m * 2 ^ e * 3600000) :=
    inRange_of_le (by norm_num; linarith) (by norm_num; linarith)
  have hpos' := h.1
  have hmax' : ms ≤ 3600000 * 8760 := h.2
  have hquarter : (2 : ℚ) ^ (-2 : ℤ) = 1 / 4 := by norm_num
  have hsub : ((4 * ms - 1 : ℕ) : ℚ) = 4 * ms - 1 := by
    rw [Nat.cast_sub (by omega)]
    push_cast
    ring
  have h₁ := le_nearest hinProduct (z := (4 * ms - 1 : ℕ) * 2 ^ (-2 : ℤ)) ⟨_, _, by omega, rfl⟩
    (by rw [hsub, hquarter]; linarith)
  have h₂ := nearest_le hinProduct (z := (4 * ms + 1 : ℕ) * 2 ^ (-2 : ℤ)) ⟨_, _, by omega, rfl⟩
    (by rw [hquarter]; push_cast; linarith)
  obtain ⟨n, f, heq, -, -⟩ := exists_nearest hinProduct
  rw [heq, toRat_finite, hsub, hquarter] at h₁
  rw [heq, toRat_finite, hquarter] at h₂
  push_cast at h₂
  have hround : roundToInt (.finite false m e * millisPerHour) = ms := by
    rw [finite_mul_millisPerHour, heq]
    refine roundToInt_eq (abs_lt.mpr ⟨?_, ?_⟩) <;> linarith
  unfold Workboard.timeoutOfHours?
  rw [hzero, hmaxHours, hround]
  rfl

end Hours

section Reread
variable {ms : ℕ} {m : ℕ} {e : ℤ}

/-- The digits of the shortest timeouts, divided as they are when they are read. -/
def readsExactly (ms : ℕ) : Bool :=
  match ofFraction false ms 3600000 with
  | .finite false m e =>
    let d := shortest .toEven m e
    d.exponent < 0 && ofNat d.digits / ofNat (10 ^ (-d.exponent).toNat) = .finite false m e
  | _ => false

/-- The shortest timeouts are read back as they were written. -/
theorem readsExactly_of_few (h : 0 < ms) (hfew : ms < 4) : readsExactly ms = true := by
  rcases (by omega : ms = 1 ∨ ms = 2 ∨ ms = 3) with rfl | rfl | rfl <;> decide +kernel

/-- A power of ten that divides exactly. -/
theorem isShort_mul_ten_pow {n i : ℕ} (h : n * 5 ^ i ≤ 2 ^ 53) : IsShort (n * 10 ^ i) := by
  refine ⟨n * 5 ^ i, i, h, ?_⟩
  rw [zpow_natCast]
  push_cast
  rw [mul_assoc, ← mul_pow]
  norm_num

/-- Digits with up to 22 places are divided by a power of ten that is exact. -/
theorem ofNat_div_ten_pow {M j : ℕ} (hM : 0 < M ∧ M ≤ 10 ^ 17) (hj : j ≤ 22) :
    ofNat M / ofNat (10 ^ j) = nearest (toRat (nearest M) / 10 ^ j) := by
  have hten : 10 ^ j ≤ 10 ^ 22 := Nat.pow_le_pow_right (by norm_num) hj
  have hfive : 5 ^ j ≤ 5 ^ 22 := Nat.pow_le_pow_right (by norm_num) hj
  have hshort : IsShort ((10 ^ j : ℕ) : ℚ) := by
    have := isShort_mul_ten_pow (n := 1) (i := j) (by omega)
    push_cast at this ⊢
    rwa [one_mul] at this
  have hin : InRange ((10 ^ j : ℕ) : ℚ) := inRange_natCast (by positivity) hten
  rw [ofNat_eq_nearest, ofNat_eq_nearest,
    nearest_div_nearest (inRange_natCast hM.1 (hM.2.trans (by norm_num))) hin,
    toRat_nearest_of_isShort hin hshort]
  push_cast
  rfl

/-- A decimal that is read as hours of at least four milliseconds. -/
theorem size_between (h : AllowedMillis ms) (hfew : 4 ≤ ms) {size : ℚ} (hin : InRange size)
    (hx : StandsFor ms (nearest size)) : (17 * 2 ^ (-24 : ℤ) : ℚ) < size ∧ size < 8761 := by
  obtain ⟨m, e, heq, -, hlow, -⟩ := hx.between
  obtain ⟨m', e', heq', -, -, hle⟩ := hx.close h
  obtain ⟨-, rfl, rfl⟩ := Binary64.finite.inj (heq.symm.trans heq')
  constructor
  · by_contra hge
    have h₁ := nearest_le hin (z := (17 : ℕ) * 2 ^ (-24 : ℤ)) ⟨17, -24, by norm_num, rfl⟩
      (by exact_mod_cast not_lt.mp hge)
    have hfloor : 111 ≤ 250 * ms / 9 := by omega
    have hfloor' : (111 : ℚ) ≤ ((250 * ms / 9 : ℕ) : ℚ) := by exact_mod_cast hfloor
    have h₂ := le_nearest (inRange_of_between h le_rfl (below_le_above ms))
      (z := (18 : ℕ) * 2 ^ (-24 : ℤ)) ⟨18, -24, by norm_num, rfl⟩
      (by unfold hoursBelow; norm_num; linarith)
    rw [heq, toRat_finite] at h₁
    norm_num at h₁ h₂
    linarith
  · by_contra hge
    have h₁ := le_nearest hin (isShort_natCast (n := 8761) (by norm_num))
      (by exact_mod_cast not_lt.mp hge)
    rw [heq, toRat_finite] at h₁
    norm_num at h₁
    linarith

/-- Digits of a decimal above `10 ^ -6` have at most 22 places. -/
theorem places_le {size : ℚ} (hlow : (10 : ℚ) ^ (-6 : ℤ) < size) {M j : ℕ} (hM : M ≤ 10 ^ 17)
    (hsize : (M : ℚ) = size * 10 ^ j) : j ≤ 22 := by
  have hM' : (M : ℚ) ≤ 10 ^ 17 := by exact_mod_cast hM
  by_contra hlt
  have hten : (10 : ℚ) ^ 23 ≤ 10 ^ j := pow_le_pow_right₀ (by norm_num) (not_le.mp hlt)
  have hmul := mul_lt_mul_of_pos_right hlow (by positivity : (0 : ℚ) < 10 ^ j)
  rw [← hsize] at hmul
  norm_num at hmul
  linarith

/-- Digits that are not rounded are read as the hours. -/
theorem reads_short {size : ℚ} (hlow : (17 * 2 ^ (-24 : ℤ) : ℚ) < size) {M j : ℕ}
    (hpos : 0 < M) (hM : M ≤ 2 ^ 53) (hsize : (M : ℚ) = size * 10 ^ j) :
    ofNat M / ofNat (10 ^ j) = nearest size := by
  have hp : (0 : ℚ) < 10 ^ j := by positivity
  have hj : j ≤ 22 := places_le (lt_trans (by norm_num) hlow) (hM.trans (by norm_num)) hsize
  rw [ofNat_div_ten_pow ⟨hpos, hM.trans (by norm_num)⟩ hj, toRat_nearest_of_isShort
    (inRange_natCast hpos (hM.trans (by norm_num))) (isShort_natCast hM), hsize,
    mul_div_cancel_right₀ _ hp.ne']

/-- The bounds of the hours, with `i` more places, are short if they have no more than 17 digits. -/
theorem isShort_bounds {i : ℕ} (hi : 4 ≤ i) (hle : i ≤ 17) (hlt : 250 * ms / 9 * 10 ^ i < 10 ^ 17) :
    IsShort ((250 * ms / 9 : ℕ) * 10 ^ i) ∧ IsShort (((250 * ms + 8) / 9 : ℕ) * 10 ^ i) := by
  have hdigits : (250 * ms + 8) / 9 ≤ 10 ^ (17 - i) := by
    have hlt' : 250 * ms / 9 * 10 ^ i < 10 ^ (17 - i) * 10 ^ i := by
      rwa [← pow_add, show 17 - i + i = 17 by omega]
    have := Nat.lt_of_mul_lt_mul_right hlt'
    omega
  have hfive : (250 * ms + 8) / 9 * 5 ^ i ≤ 2 ^ 53 := by
    have hpow : 10 ^ (17 - i) * 5 ^ i * 2 ^ i = 10 ^ 17 := by
      rw [mul_assoc, ← mul_pow, show 5 * 2 = 10 from rfl, ← pow_add]
      congr 1
      omega
    have htwo : 2 ^ 4 ≤ 2 ^ i := Nat.pow_le_pow_right (by norm_num) hi
    have hle : (250 * ms + 8) / 9 * 5 ^ i ≤ 10 ^ (17 - i) * 5 ^ i := Nat.mul_le_mul_right _ hdigits
    have := Nat.mul_le_mul_left (10 ^ (17 - i) * 5 ^ i) htwo
    omega
  exact ⟨isShort_mul_ten_pow ((Nat.mul_le_mul_right _ (by omega)).trans hfive), isShort_mul_ten_pow hfive⟩

/-- Digits that are rounded are read as hours between the same bounds. -/
theorem reads_long (h : AllowedMillis ms) {size : ℚ} (hlow : hoursBelow ms < size)
    (hhigh : size < hoursAbove ms) (hfew : 4 ≤ ms) {M j : ℕ} (hM : 2 ^ 53 < M) (hM' : M ≤ 10 ^ 17)
    (hsize : (M : ℚ) = size * 10 ^ j) : StandsFor ms (ofNat M / ofNat (10 ^ j)) := by
  have hp : (0 : ℚ) < 10 ^ j := by positivity
  have hj : j ≤ 22 := by
    refine places_le (lt_of_lt_of_le ?_ hlow.le) hM' hsize
    have hfloor : 111 ≤ 250 * ms / 9 := by omega
    have hfloor' : (111 : ℚ) ≤ ((250 * ms / 9 : ℕ) : ℚ) := by exact_mod_cast hfloor
    unfold hoursBelow
    norm_num
    linarith
  have hj' : 12 ≤ j := by
    by_contra hlt
    have hten : (10 : ℚ) ^ j ≤ 10 ^ 11 := pow_le_pow_right₀ (by norm_num) (by omega)
    have hmul := mul_lt_mul_of_pos_right (hhigh.trans_le (hours_le h)) hp
    rw [← hsize] at hmul
    have hlarge : (2 ^ 53 : ℚ) < M := by exact_mod_cast hM
    linarith
  obtain ⟨i, rfl⟩ : ∃ i, j = i + 8 := ⟨j - 8, by omega⟩
  have hscale : ∀ n : ℕ, (n * 10 ^ (-8 : ℤ) : ℚ) * 10 ^ (i + 8) = n * 10 ^ i := by
    intro n
    rw [pow_add]
    norm_num
    ring
  have hbelow : ((250 * ms / 9 : ℕ) : ℚ) * 10 ^ i < M := by
    rw [← hscale, hsize]
    exact mul_lt_mul_of_pos_right hlow hp
  have habove : (M : ℚ) < ((250 * ms + 8) / 9 : ℕ) * 10 ^ i := by
    rw [← hscale ((250 * ms + 8) / 9), hsize]
    exact mul_lt_mul_of_pos_right hhigh hp
  -- rounding the digits does not leave the bounds, which are short
  have hlt : 250 * ms / 9 * 10 ^ i < M := by exact_mod_cast hbelow
  obtain ⟨hshort, hshort'⟩ := @isShort_bounds ms i (by omega) (by omega) (by omega)
  have hin : InRange (M : ℚ) := inRange_natCast (by omega) (hM'.trans (by norm_num))
  have h₁ := le_nearest hin hshort hbelow.le
  have h₂ := nearest_le hin hshort' habove.le
  rw [ofNat_div_ten_pow ⟨by omega, hM'⟩ hj]
  refine ⟨between_nearest h ?_ ?_, fun hlt => by omega⟩
  · rw [le_div_iff₀ hp, hoursBelow, hscale]
    exact h₁
  · rw [div_le_iff₀ hp, hoursAbove, hscale]
    exact h₂

/-- Hours that are written with many digits are not at the bounds. -/
theorem not_nearest_of_long (hnormal : IsNormal m e) (hcore : InCore (m * 2 ^ e))
    (hlow : (10 : ℚ) ^ (-8 : ℤ) ≤ m * 2 ^ e) (hhigh : (m : ℚ) * 2 ^ e ≤ 8760)
    (hlong : 10 ^ 15 < (shortest .toEven m e).digits) {N : ℕ} (hin : InRange (N * 10 ^ (-8 : ℤ))) :
    toRat (nearest (N * 10 ^ (-8 : ℤ))) ≠ m * 2 ^ e := by
  intro heq
  have hle := shortest_digits_le .toEven hnormal hcore hin
    (nearest_eq_of_toRat_eq hin hnormal heq) hlow (hhigh.trans_lt (by norm_num))
  omega

/-- Hours that stand for a timeout and are written are read back as hours that stand for it. -/
theorem StandsFor.reread {hours : Binary64} (h : AllowedMillis ms) (hx : StandsFor ms hours) :
    ∃ n size j hours', Layout.Reads (Layout.lockFile.render hours).toList size n j ∧
      n.toBinary64? = some hours' ∧ StandsFor ms hours' := by
  obtain ⟨m, e, rfl, hnormal, hclose, hyear⟩ := hx.close h
  have hms : (1 : ℚ) ≤ ms := by exact_mod_cast h.1
  have hlarge : (10 : ℚ) ^ (-8 : ℤ) ≤ m * 2 ^ e := by
    have := (abs_lt.mp hclose).1
    norm_num at this ⊢
    linarith
  have hcore : InCore (m * 2 ^ e) :=
    inCore_of_le (le_trans (by norm_num) hlarge) (hyear.trans (by norm_num))
  obtain ⟨-, hpos, -, hin, hnearest⟩ := shortest_spec .toEven hnormal hcore
  obtain ⟨n, M, j, hreads, hM, hM17, -, hsize, hform, hvalue⟩ :=
    Layout.reads_render hnormal hcore (hyear.trans_lt (by norm_num))
  refine ⟨n, _, j, _, hreads, hvalue, ?_⟩
  rcases lt_or_ge ms 4 with hfew | hfew
  · have hexact := readsExactly_of_few h.1 hfew
    have heq : ofFraction false ms 3600000 = .finite false m e := by
      rw [ofFraction_eq_nearest ms (by norm_num), hx.exact_of_few hfew]
      norm_num
    rw [readsExactly, heq] at hexact
    simp only [Bool.and_eq_true, decide_eq_true_eq] at hexact
    rcases hform with ⟨-, hexp⟩ | ⟨rfl, rfl⟩
    · exact absurd hexact.1 (not_lt.mpr hexp)
    · rw [hexact.2]
      exact hx
  · obtain ⟨hlow, hhigh⟩ := size_between h hfew hin (hnearest ▸ hx)
    rcases le_or_gt M (2 ^ 53) with hshort | hlong
    · rw [reads_short hlow hM hshort hsize, hnearest]
      exact hx
    · have hdigits : 10 ^ 15 < (shortest .toEven m e).digits := by
        rcases hform with ⟨rfl, -⟩ | ⟨-, rfl⟩
        · have hM' : (2 ^ 53 : ℚ) < M := by exact_mod_cast hlong
          linarith
        · omega
      have hinBelow := inRange_of_between h le_rfl (below_le_above ms)
      have hinAbove := inRange_of_between h (below_le_above ms) le_rfl
      obtain ⟨m', e', heq, -, hbelow, habove⟩ := hx.between
      obtain ⟨-, rfl, rfl⟩ := Binary64.finite.inj heq
      refine reads_long h ?_ ?_ hfew hlong hM17 hsize
      · by_contra hge
        have hle := nearest_mono hin hinBelow (not_lt.mp hge)
        rw [hnearest, toRat_finite] at hle
        exact not_nearest_of_long hnormal hcore hlarge hyear hdigits hinBelow
          (le_antisymm hbelow hle)
      · by_contra hge
        have hle := nearest_mono hinAbove hin (not_lt.mp hge)
        rw [hnearest, toRat_finite] at hle
        exact not_nearest_of_long hnormal hcore hlarge hyear hdigits hinAbove
          (le_antisymm hle habove)

end Reread

end Workboard
