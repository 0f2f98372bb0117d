import Workboard.Proofs.Lock.Hours
import Workboard.Settings

/-!
# Timeouts that come to nothing

The hours of valid settings are above zero and not above a year, but their timeout is a number
of whole milliseconds. Main statement: it is never more than a year, and it is more than nothing
if and only if the hours come to half a millisecond, less what rounding to 53 bits adds.
-/
namespace Workboard
namespace Binary64
variable {r : ℚ} {m : ℕ} {e : ℤ}

section RoundToInt

theorem roundToInt_nonneg (m : ℕ) (e : ℤ) : 0 ≤ roundToInt (.finite false m e) :=
  Int.natCast_nonneg _

theorem roundToInt_le {n : ℕ} (h : (m : ℚ) * 2 ^ e ≤ n) : roundToInt (.finite false m e) ≤ n := by
  have hd : (0 : ℚ) < den e := by exact_mod_cast den_pos e
  rw [← num_div_den, div_le_iff₀ hd] at h
  have hnum : num m e ≤ n * den e := by exact_mod_cast h
  have hround : roundHalfUp (num m e) (den e) ≤ n := by
    have hpos := den_pos e
    rw [roundHalfUp, ← Nat.lt_succ_iff, Nat.div_lt_iff_lt_mul (by omega)]
    calc 2 * num m e + den e ≤ 2 * (n * den e) + den e := by omega
      _ < (n + 1) * (2 * den e) := by
        rw [add_mul, one_mul, mul_left_comm]
        omega
  exact Int.ofNat_le.mpr hround

/-- A number is rounded away from zero from a half on. -/
theorem roundToInt_pos_iff : 0 < roundToInt (.finite false m e) ↔ 1 / 2 ≤ (m : ℚ) * 2 ^ e := by
  have hpos := den_pos e
  have hd : (0 : ℚ) < den e := by exact_mod_cast hpos
  have hround : 0 < roundHalfUp (num m e) (den e) ↔ den e ≤ 2 * num m e := by
    rw [roundHalfUp, Nat.div_pos_iff]
    omega
  rw [← num_div_den, le_div_iff₀ hd, div_mul_eq_mul_div, one_mul, div_le_iff₀ two_pos, mul_comm (num m e : ℚ)]
  change (0 : ℤ) < (roundHalfUp (num m e) (den e) : ℤ) ↔ _
  rw [Int.natCast_pos, hround]
  exact_mod_cast Iff.rfl

end RoundToInt

section Nearest

/-- A number that is not above another one stands for no more, also below the least exponent. -/
theorem value_le_of_le {n : ℕ} {f : ℤ} (hf : minExponent ≤ f)
    (h : le (.finite false m e) (.finite false n f) = true) : (m : ℚ) * 2 ^ e ≤ n * 2 ^ f := by
  rcases le_or_gt minExponent e with he | he
  · exact (le_finite_iff he hf).mp h
  · -- the comparison takes the least exponent instead, which makes the number larger
    have hscaled : scaled false m e = scaled false m minExponent := by
      rw [scaled, scaled, Int.toNat_of_nonpos (by omega), Int.toNat_of_nonpos (by omega)]
    have hleast : le (.finite false m minExponent) (.finite false n f) = true := by
      rw [le, ← hscaled]
      exact h
    refine le_trans ?_ ((le_finite_iff le_rfl hf).mp hleast)
    exact mul_le_mul_of_nonneg_left (zpow_le_zpow_right₀ one_le_two he.le) (Nat.cast_nonneg m)

/-- Even the least numbers are rounded to numbers as small. -/
theorem exists_nearest_of_small (hpos : 0 < r) (hsmall : r < 2 ^ (-200 : ℤ)) :
    ∃ m e, nearest r = .finite false m e ∧ (m : ℚ) * 2 ^ e ≤ 2 ^ (-199 : ℤ) := by
  have hlog : Int.log 2 r < -200 :=
    (Int.lt_zpow_iff_log_lt (b := 2) one_lt_two hpos (x := -200)).mp (by exact_mod_cast hsmall)
  have hplace : place r ≤ -200 := by
    unfold place minExponent
    omega
  have hmax : maxExponent = 971 := rfl
  have hp : (0 : ℚ) < 2 ^ place r := by positivity
  have hvalue : (halfEven (r / 2 ^ place r) : ℚ) * 2 ^ place r ≤ 2 ^ (-199 : ℤ) := by
    have herr := (abs_le.mp (abs_halfEven_sub_le (div_nonneg hpos.le hp.le))).2
    have hle : (2 : ℚ) ^ place r ≤ 2 ^ (-200 : ℤ) := zpow_le_zpow_right₀ one_le_two hplace
    calc (halfEven (r / 2 ^ place r) : ℚ) * 2 ^ place r
        ≤ (r / 2 ^ place r + 1 / 2) * 2 ^ place r := mul_le_mul_of_nonneg_right (by linarith) hp.le
      _ = r + 2 ^ place r / 2 := by
          rw [add_mul, div_mul_cancel₀ _ hp.ne']
          ring
      _ ≤ 2 ^ (-199 : ℤ) := by
          norm_num at hle hsmall ⊢
          linarith
  rw [nearest_eq_packed hpos]
  unfold packed
  split
  · rename_i heq
    rw [if_neg (by omega)]
    refine ⟨2 ^ 52, place r + 1, rfl, le_of_eq_of_le ?_ hvalue⟩
    rw [heq, zpow_add₀ two_ne_zero, zpow_one]
    push_cast
    ring
  · rw [if_neg (by omega)]
    exact ⟨_, _, rfl, hvalue⟩

/-- What is rounded to a half or more is less than a half by a quarter of the last bit at most. -/
theorem half_le_nearest_iff (h : InRange r) :
    1 / 2 ≤ toRat (nearest r) ↔ (1 / 2 - 2 ^ (-55 : ℤ) : ℚ) ≤ r := by
  have hquarter : IsShort (1 / 4) := ⟨1, -2, by norm_num, by norm_num⟩
  have hhalf : IsShort (1 / 2) := ⟨1, -1, by norm_num, by norm_num⟩
  rcases lt_or_ge r (1 / 4) with hlow | hlow
  · have hle := nearest_le h hquarter hlow.le
    refine iff_of_false (by linarith) ?_
    norm_num
    linarith
  rcases lt_or_ge r (1 / 2) with hhigh | hhigh
  · have hplace : place r = -54 := by
      rw [place_of_inRange h, (int_log_eq_iff h.pos (e := -2)).mpr ⟨by norm_num; linarith, by norm_num; linarith⟩]
      rfl
    have hx : 0 ≤ r / 2 ^ (-54 : ℤ) := div_nonneg h.pos.le (by positivity)
    have hiff := even_le_halfEven_iff hx (n := 2 ^ 53) (by decide) (by norm_num)
    have hscale : (2 : ℚ) ^ (-54 : ℤ) = 1 / 2 ^ 54 := by norm_num
    rw [toRat_nearest h, hplace]
    calc (1 / 2 : ℚ) ≤ halfEven (r / 2 ^ (-54 : ℤ)) * 2 ^ (-54 : ℤ)
        ↔ (2 ^ 53 : ℕ) ≤ (halfEven (r / 2 ^ (-54 : ℤ)) : ℚ) := by
          rw [hscale, mul_one_div, le_div_iff₀ (by positivity)]
          norm_num
      _ ↔ ((2 ^ 53 : ℕ) : ℚ) - 1 / 2 ≤ r / 2 ^ (-54 : ℤ) := by
          rw [← hiff]
          exact_mod_cast Iff.rfl
      _ ↔ (1 / 2 - 2 ^ (-55 : ℤ) : ℚ) ≤ r := by
          rw [hscale, le_div_iff₀ (by positivity)]
          norm_num
  · refine iff_of_true (le_nearest h hhalf hhigh) ?_
    norm_num
    linarith

/-- How a number is rounded twice: to 53 bits and then to a whole number. -/
theorem roundToInt_nearest (hpos : 0 < r) {n : ℕ} (hle : r ≤ n) (hn : n ≤ 2 ^ 53) (hone : 1 ≤ n) :
    0 ≤ roundToInt (nearest r) ∧ roundToInt (nearest r) ≤ n ∧
      (0 < roundToInt (nearest r) ↔ (1 / 2 - 2 ^ (-55 : ℤ) : ℚ) ≤ r) := by
  have hone' : (1 : ℚ) ≤ n := by exact_mod_cast hone
  rcases lt_or_ge r (2 ^ (-200 : ℤ)) with hsmall | hlarge
  · obtain ⟨m, e, heq, hvalue⟩ := exists_nearest_of_small hpos hsmall
    rw [heq, roundToInt_pos_iff]
    norm_num at hsmall hvalue
    refine ⟨roundToInt_nonneg m e, roundToInt_le (by linarith), iff_of_false (by linarith) ?_⟩
    norm_num
    linarith
  · have hn' : (n : ℚ) ≤ 2 ^ 53 := by exact_mod_cast hn
    have hin : InRange r := ⟨hlarge, by norm_num; linarith⟩
    obtain ⟨m, e, heq, -, -⟩ := exists_nearest hin
    have hhalf := half_le_nearest_iff hin
    have hup := nearest_le hin (isShort_natCast hn) hle
    rw [heq, toRat_finite] at hhalf hup
    rw [heq, roundToInt_pos_iff]
    exact ⟨roundToInt_nonneg m e, roundToInt_le hup, hhalf⟩

end Nearest

end Binary64

open Binary64

/-- Hours that a timeout can be made of are a number above zero and not above a year. -/
theorem exists_of_timeoutOfHours? {hours : Binary64} {d : Duration} (h : timeoutOfHours? hours = some d) :
    ∃ m e, hours = .finite false m e ∧ (0 : ℚ) < m * 2 ^ e ∧ (m : ℚ) * 2 ^ e ≤ 8760 ∧
      d = .ofMillis (nearest (m * 2 ^ e * 3600000)).roundToInt := by
  unfold timeoutOfHours? at h
  split at h
  · rename_i hrange
    simp only [Bool.and_eq_true, Bool.not_eq_true'] at hrange
    obtain ⟨⟨hfinite, hzero⟩, hmax⟩ := hrange
    cases hours with
    | nan => cases hfinite
    | infinite s => cases hfinite
    | finite s m e =>
      have hnotneg : s = false := by
        by_contra hs
        obtain rfl : s = true := by simpa using hs
        have hle : Binary64.le (.finite true m e) (.zero false) = true := by
          simp [Binary64.le, zero, scaled]
        rw [hle] at hzero
        cases hzero
      subst hnotneg
      have hm : 0 < m := by
        by_contra hm
        obtain rfl : m = 0 := by omega
        have hle : Binary64.le (.finite false 0 e) (.zero false) = true := by
          simp [Binary64.le, zero, scaled]
        rw [hle] at hzero
        cases hzero
      refine ⟨m, e, rfl, by positivity, ?_, ?_⟩
      · obtain ⟨n, f, heq, hnormal, hvalue⟩ := exists_maxHours
        rw [heq] at hmax
        rw [← hvalue]
        exact value_le_of_le hnormal.exponent.1 hmax
      · rw [← finite_mul_millisPerHour]
        exact (Option.some.inj h).symm
  · cases h

/-- No number with 53 bits comes to less than half a millisecond, but so close that it is rounded to it. -/
theorem half_le_millis_iff {m : ℕ} {e : ℤ} (h : IsNormal m e) :
    (1 / 2 - 2 ^ (-55 : ℤ) : ℚ) ≤ m * 2 ^ e * 3600000 ↔ (1 / 2 : ℚ) ≤ m * 2 ^ e * 3600000 := by
  constructor
  · intro hclose
    by_contra hlt
    have hp : (0 : ℚ) < 2 ^ e := by positivity
    have hlow : (2 ^ 52 : ℚ) ≤ m := by exact_mod_cast h.mantissa.1
    have hhigh : (m : ℚ) < 2 ^ 53 := by exact_mod_cast h.mantissa.2
    -- such a number would have this exponent
    have hbelow : (2 : ℚ) ^ e < 2 ^ (-74 : ℤ) := by
      norm_num at hclose hlt ⊢
      nlinarith
    have habove : (2 : ℚ) ^ (-76 : ℤ) < 2 ^ e := by
      norm_num at hclose hlt ⊢
      nlinarith
    have he₁ := (zpow_lt_zpow_iff_right₀ (one_lt_two (α := ℚ))).mp hbelow
    have he₂ := (zpow_lt_zpow_iff_right₀ (one_lt_two (α := ℚ))).mp habove
    obtain rfl : e = -75 := by omega
    norm_num at hclose hlt
    have hm₁ : (2 ^ 74 - 2 ^ 20 : ℚ) ≤ m * 3600000 := by linarith
    have hm₂ : (m * 3600000 : ℚ) < 2 ^ 74 := by linarith
    have hm₁' : 2 ^ 74 ≤ m * 3600000 + 2 ^ 20 := by
      have hsum : (2 ^ 74 : ℚ) ≤ m * 3600000 + 2 ^ 20 := by linarith
      exact_mod_cast hsum
    have hm₂' : m * 3600000 < 2 ^ 74 := by exact_mod_cast hm₂
    omega
  · intro hhalf
    norm_num at hhalf ⊢
    linarith

namespace Settings
variable {s : Settings}

theorem timeoutOfHours?_of_valid (h : s.flaw? = none) :
    timeoutOfHours? s.lockTimeoutHours = some s.lockTimeout := by
  cases htimeout : timeoutOfHours? s.lockTimeoutHours with
  | none =>
    rw [flaw?, htimeout] at h
    cases h
  | some d => rw [lockTimeout, htimeout, Option.getD_some]

/-- The timeout of valid settings is not below zero and not above a year. It is zero if the hours
come to less than half a millisecond, so far as that can be told with 53 bits. -/
theorem lockTimeout_bounds (h : s.flaw? = none) :
    .zero ≤ s.lockTimeout ∧ s.lockTimeout ≤ maxTimeout ∧
      (.zero < s.lockTimeout ↔ (1 / 2 - 2 ^ (-55 : ℤ) : ℚ) ≤ s.lockTimeoutHours.toRat * 3600000) := by
  obtain ⟨m, e, hhours, hpos, hyear, htimeout⟩ := exists_of_timeoutOfHours? (timeoutOfHours?_of_valid h)
  obtain ⟨hnonneg, hle, hiff⟩ := roundToInt_nearest (r := m * 2 ^ e * 3600000) (n := 8760 * 3600000)
    (by linarith) (by push_cast; linarith) (by norm_num) (by norm_num)
  rw [hhours, toRat_finite, ← hiff, htimeout, Duration.le_def, Duration.le_def, Duration.lt_def]
  generalize (nearest (m * 2 ^ e * 3600000)).roundToInt = n at hnonneg hle
  change 0 ≤ n * 1000000 ∧ n * 1000000 ≤ (8760 * 3600000 : ℤ) * 1000000 ∧ (0 < n * 1000000 ↔ 0 < n)
  push_cast at hle
  omega

/-- Hours of 53 bits come to a timeout above zero from half a millisecond on. -/
theorem lockTimeout_pos_iff {m : ℕ} {e : ℤ} (h : s.flaw? = none) (hhours : s.lockTimeoutHours = .finite false m e)
    (hnormal : IsNormal m e) : .zero < s.lockTimeout ↔ (1 / 2 : ℚ) ≤ m * 2 ^ e * 3600000 := by
  rw [(lockTimeout_bounds h).2.2, hhours, toRat_finite, half_le_millis_iff hnormal]

end Settings

end Workboard
