import Mathlib.Algebra.Order.Floor.Semifield
import Mathlib.Data.Int.Log
import Mathlib.Data.Rat.Floor
import Mathlib.Tactic
import Workboard.Number.Binary64

/-!
# Nearest binary numbers

What a binary number stands for, and what rounding does. A fraction is rounded by its value
alone, so every operation gives the number nearest to its exact result. Main statements:
rounding keeps the order, and it leaves what has at most 53 bits.
-/
namespace Workboard

section HalfEven

/-- The whole number nearest to a rational one, at a tie the even one. -/
def halfEven (x : ℚ) : ℕ :=
  if x - ⌊x⌋₊ < 1 / 2 then ⌊x⌋₊ else if 1 / 2 < x - ⌊x⌋₊ then ⌊x⌋₊ + 1 else ⌊x⌋₊ + ⌊x⌋₊ % 2

theorem roundHalfEven_eq_halfEven (num : ℕ) {den : ℕ} (hden : 0 < den) :
    roundHalfEven num den = halfEven (num / den) := by
  have hd : (0 : ℚ) < den := by exact_mod_cast hden
  have hfloor : ⌊(num / den : ℚ)⌋₊ = num / den := Nat.floor_div_eq_div num den
  have hrest : (num / den : ℚ) - (num / den : ℕ) = (num % den : ℕ) / den := by
    have h : (num : ℚ) = den * (num / den : ℕ) + (num % den : ℕ) := by
      exact_mod_cast (Nat.div_add_mod num den).symm
    rw [eq_div_iff hd.ne', sub_mul, div_mul_cancel₀ _ hd.ne']
    linarith
  have hlow : (num % den : ℕ) / (den : ℚ) < 1 / 2 ↔ 2 * (num % den) < den := by
    rw [div_lt_div_iff₀ hd (by norm_num), one_mul, mul_comm]
    exact_mod_cast Iff.rfl
  have hhigh : 1 / 2 < (num % den : ℕ) / (den : ℚ) ↔ den < 2 * (num % den) := by
    rw [div_lt_div_iff₀ (by norm_num) hd, one_mul, mul_comm]
    exact_mod_cast Iff.rfl
  simp only [halfEven, hfloor, hrest, if_congr hlow rfl (if_congr hhigh rfl rfl), roundHalfEven]

/-- The error is at most a half. -/
theorem abs_halfEven_sub_le {x : ℚ} (hx : 0 ≤ x) : |(halfEven x : ℚ) - x| ≤ 1 / 2 := by
  have hlow := Nat.floor_le hx
  have hhigh := Nat.lt_floor_add_one x
  have hmod : ((⌊x⌋₊ % 2 : ℕ) : ℚ) ≤ 1 := by
    exact_mod_cast Nat.lt_succ_iff.mp (Nat.mod_lt _ two_pos)
  have hmod' : (0 : ℚ) ≤ ((⌊x⌋₊ % 2 : ℕ) : ℚ) := Nat.cast_nonneg _
  unfold halfEven
  rw [abs_le]
  split_ifs <;> push_cast <;> constructor <;> linarith

/-- Nothing but the nearest whole number is closer than a half. -/
theorem halfEven_eq_of_abs_lt {x : ℚ} (hx : 0 ≤ x) {n : ℕ} (h : |x - n| < 1 / 2) :
    halfEven x = n := by
  have herr := abs_le.mp (abs_halfEven_sub_le hx)
  have hlt := abs_lt.mp h
  have h₁ : (halfEven x : ℚ) < n + 1 := by linarith
  have h₂ : (n : ℚ) < halfEven x + 1 := by linarith
  have h₃ : halfEven x < n + 1 := by exact_mod_cast h₁
  have h₄ : n < halfEven x + 1 := by exact_mod_cast h₂
  omega

@[simp] theorem halfEven_natCast (n : ℕ) : halfEven n = n :=
  halfEven_eq_of_abs_lt (Nat.cast_nonneg n) (by norm_num)

/-- An even number is reached from half a unit below. -/
theorem even_le_halfEven_iff {x : ℚ} (hx : 0 ≤ x) {n : ℕ} (heven : Even n) (hpos : 0 < n) :
    n ≤ halfEven x ↔ (n : ℚ) - 1 / 2 ≤ x := by
  obtain ⟨hlow, hhigh⟩ := abs_le.mp (abs_halfEven_sub_le hx)
  constructor
  · intro h
    have h' : (n : ℚ) ≤ halfEven x := by exact_mod_cast h
    linarith
  · intro h
    by_contra hlt
    -- then `x` is the tie between `n` and the odd number below
    have hle : (halfEven x : ℚ) ≤ n - 1 := by
      have hsucc : halfEven x + 1 ≤ n := by omega
      have hsucc' : (halfEven x : ℚ) + 1 ≤ n := by exact_mod_cast hsucc
      linarith
    have hpred : ((n - 1 : ℕ) : ℚ) = n - 1 := by
      rw [Nat.cast_sub hpos, Nat.cast_one]
    have htie : x = (n - 1 : ℕ) + 1 / 2 := by
      rw [hpred]
      linarith
    have hfloor : ⌊x⌋₊ = n - 1 := by
      rw [Nat.floor_eq_iff hx, htie]
      constructor <;> linarith
    have hrest : x - ((n - 1 : ℕ) : ℚ) = 1 / 2 := by
      rw [htie]
      ring
    obtain ⟨k, rfl⟩ := heven
    rw [halfEven, hfloor, hrest, if_neg (lt_irrefl _), if_neg (lt_irrefl _)] at hlt
    omega

theorem halfEven_mono {x y : ℚ} (hxy : x ≤ y) : halfEven x ≤ halfEven y := by
  have hfloor : ⌊x⌋₊ ≤ ⌊y⌋₊ := Nat.floor_le_floor hxy
  rcases Nat.lt_or_eq_of_le hfloor with hlt | heq
  · -- the next whole number lies between
    have hxle : halfEven x ≤ ⌊x⌋₊ + 1 := by
      unfold halfEven
      split_ifs <;> omega
    have hyge : ⌊y⌋₊ ≤ halfEven y := by
      unfold halfEven
      split_ifs <;> omega
    omega
  · unfold halfEven
    rw [heq]
    split_ifs <;> first | omega | linarith

end HalfEven

section FloorLog

/-- A power of two as a fraction of whole powers. -/
theorem two_zpow_eq (e : ℤ) : (2 : ℚ) ^ e = (2 ^ e.toNat : ℕ) / (2 ^ (-e).toNat : ℕ) := by
  rcases le_total 0 e with he | he
  · have h : (-e).toNat = 0 := by omega
    rw [h, pow_zero, Nat.cast_one, div_one]
    nth_rewrite 1 [← Int.toNat_of_nonneg he]
    rw [zpow_natCast, Nat.cast_pow, Nat.cast_ofNat]
  · have h : e.toNat = 0 := by omega
    rw [h, pow_zero, Nat.cast_one, one_div]
    nth_rewrite 1 [← neg_neg e, ← Int.toNat_of_nonneg (Int.neg_nonneg_of_nonpos he)]
    rw [zpow_neg, zpow_natCast, Nat.cast_pow, Nat.cast_ofNat]

theorem fraction_lt_zpow_iff {num den : ℕ} (hden : 0 < den) (e : ℤ) :
    (num / den : ℚ) < 2 ^ e ↔ num * 2 ^ (-e).toNat < den * 2 ^ e.toNat := by
  have hd : (0 : ℚ) < den := by exact_mod_cast hden
  have hp : (0 : ℚ) < (2 ^ (-e).toNat : ℕ) := by positivity
  rw [two_zpow_eq, div_lt_div_iff₀ hd hp, mul_comm ((2 ^ e.toNat : ℕ) : ℚ)]
  exact_mod_cast Iff.rfl

theorem int_log_eq_iff {r : ℚ} (hr : 0 < r) {e : ℤ} :
    Int.log 2 r = e ↔ (2 : ℚ) ^ e ≤ r ∧ r < (2 : ℚ) ^ (e + 1) := by
  have hlow := Int.zpow_le_iff_le_log (b := 2) one_lt_two hr (x := e)
  have hhigh := Int.lt_zpow_iff_log_lt (b := 2) one_lt_two hr (x := e + 1)
  rw [Nat.cast_ofNat] at hlow hhigh
  rw [hlow, hhigh]
  omega

theorem floorLog2_eq_log {num den : ℕ} (hnum : 0 < num) (hden : 0 < den) :
    floorLog2 num den = Int.log 2 (num / den : ℚ) := by
  have hn : (0 : ℚ) < num := by exact_mod_cast hnum
  have hd : (0 : ℚ) < den := by exact_mod_cast hden
  have hr : (0 : ℚ) < num / den := div_pos hn hd
  have hn₁ : (2 : ℚ) ^ num.log2 ≤ num := by exact_mod_cast Nat.log2_self_le hnum.ne'
  have hn₂ : (num : ℚ) < 2 ^ (num.log2 + 1) := by exact_mod_cast Nat.lt_log2_self
  have hd₁ : (2 : ℚ) ^ den.log2 ≤ den := by exact_mod_cast Nat.log2_self_le hden.ne'
  have hd₂ : (den : ℚ) < 2 ^ (den.log2 + 1) := by exact_mod_cast Nat.lt_log2_self
  have hbelow : (2 : ℚ) ^ ((num.log2 : ℤ) - den.log2 - 1) ≤ num / den := by
    rw [le_div_iff₀ hd]
    calc (2 : ℚ) ^ ((num.log2 : ℤ) - den.log2 - 1) * den
        ≤ 2 ^ ((num.log2 : ℤ) - den.log2 - 1) * 2 ^ (den.log2 + 1) :=
          mul_le_mul_of_nonneg_left hd₂.le (by positivity)
      _ = 2 ^ num.log2 := by
          rw [← zpow_natCast, ← zpow_natCast, ← zpow_add₀ two_ne_zero]
          congr 1
          push_cast
          ring
      _ ≤ num := hn₁
  have habove : (num / den : ℚ) < 2 ^ ((num.log2 : ℤ) - den.log2 + 1) := by
    rw [div_lt_iff₀ hd]
    calc (num : ℚ) < 2 ^ (num.log2 + 1) := hn₂
      _ = 2 ^ ((num.log2 : ℤ) - den.log2 + 1) * 2 ^ den.log2 := by
          rw [← zpow_natCast, ← zpow_natCast, ← zpow_add₀ two_ne_zero]
          congr 1
          push_cast
          ring
      _ ≤ 2 ^ ((num.log2 : ℤ) - den.log2 + 1) * den :=
          mul_le_mul_of_nonneg_left hd₁ (by positivity)
  symm
  rw [int_log_eq_iff hr, floorLog2]
  simp only [← fraction_lt_zpow_iff hden]
  split_ifs with h
  · exact ⟨hbelow, by rwa [sub_add_cancel]⟩
  · exact ⟨not_lt.mp h, habove⟩

end FloorLog

namespace Binary64

/-- What a finite number stands for. -/
def toRat : Binary64 → ℚ
  | .finite s m e => (if s then -1 else 1) * m * 2 ^ e
  | _ => 0

@[simp] theorem toRat_finite (m : ℕ) (e : ℤ) : toRat (.finite false m e) = m * 2 ^ e := by
  simp [toRat]

/-- The number nearest to a rational number. -/
def nearest (r : ℚ) : Binary64 := ofFraction false r.num.toNat r.den

/-- The exponent with which a rational number is rounded. -/
def place (r : ℚ) : ℤ := max (Int.log 2 r - 52) minExponent

/-- The number with this mantissa and exponent, one of 54 bits carried over. -/
def packed (m : ℕ) (e : ℤ) : Binary64 :=
  if m = 2 ^ 53 then if maxExponent < e + 1 then .infinite false else .finite false (2 ^ 52) (e + 1)
  else if maxExponent < e then .infinite false else .finite false m e

theorem ofFraction_eq_packed {num den : ℕ} (hnum : 0 < num) (hden : 0 < den) :
    ofFraction false num den =
      packed (halfEven ((num / den : ℚ) / 2 ^ place (num / den))) (place (num / den)) := by
  have hscaled : ∀ e : ℤ, roundHalfEven (num * 2 ^ (-e).toNat) (den * 2 ^ e.toNat) =
      halfEven ((num / den : ℚ) / 2 ^ e) := by
    intro e
    rw [roundHalfEven_eq_halfEven _ (by positivity), two_zpow_eq]
    congr 1
    push_cast
    field_simp
  have hplace : max (floorLog2 num den - 52) minExponent = place (num / den) := by
    rw [floorLog2_eq_log hnum hden, place]
  unfold ofFraction packed
  simp only [if_neg hnum.ne', hplace, hscaled]
  split <;> rfl

theorem num_div_den_of_pos {r : ℚ} (hr : 0 < r) : ((r.num.toNat : ℕ) / r.den : ℚ) = r := by
  have h : ((r.num.toNat : ℤ) : ℚ) = r.num := by
    rw [Int.toNat_of_nonneg (Rat.num_nonneg.mpr hr.le)]
  rw [Int.cast_natCast] at h
  rw [h, Rat.num_div_den]

theorem nearest_eq_packed {r : ℚ} (hr : 0 < r) :
    nearest r = packed (halfEven (r / 2 ^ place r)) (place r) := by
  have hnum : 0 < r.num.toNat := by
    have h := Rat.num_pos.mpr hr
    omega
  rw [nearest, ofFraction_eq_packed hnum r.den_pos, num_div_den_of_pos hr]

/-- Rounding depends on the value of a fraction only. -/
theorem ofFraction_eq_nearest (num : ℕ) {den : ℕ} (hden : 0 < den) :
    ofFraction false num den = nearest (num / den) := by
  rcases Nat.eq_zero_or_pos num with rfl | hnum
  · simp [nearest, ofFraction]
  have hn : (0 : ℚ) < num := by exact_mod_cast hnum
  have hd : (0 : ℚ) < den := by exact_mod_cast hden
  rw [ofFraction_eq_packed hnum hden, nearest_eq_packed (div_pos hn hd)]

/-- A number with all its 53 bits, as rounding makes them. -/
structure IsNormal (m : ℕ) (e : ℤ) : Prop where
  mantissa : 2 ^ 52 ≤ m ∧ m < 2 ^ 53
  exponent : minExponent ≤ e ∧ e ≤ maxExponent

/-- A range in which numbers are rounded to 53 bits. -/
def InRange (r : ℚ) : Prop := (2 : ℚ) ^ (-200 : ℤ) ≤ r ∧ r ≤ 2 ^ (200 : ℤ)

section InRange
variable {r r' : ℚ}

theorem InRange.pos (h : InRange r) : 0 < r := lt_of_lt_of_le (by positivity) h.1

theorem place_of_inRange (h : InRange r) : place r = Int.log 2 r - 52 := by
  have hlog : (-200 : ℤ) ≤ Int.log 2 r := by
    have := (Int.zpow_le_iff_le_log (b := 2) one_lt_two h.pos (x := -200)).mp (by exact_mod_cast h.1)
    exact this
  unfold place minExponent
  omega

theorem place_le_of_inRange (h : InRange r) : place r ≤ 148 := by
  have hlog : Int.log 2 r < 201 := by
    refine (Int.lt_zpow_iff_log_lt (b := 2) one_lt_two h.pos (x := 201)).mp ?_
    refine h.2.trans_lt ?_
    rw [Nat.cast_ofNat]
    exact zpow_lt_zpow_right₀ one_lt_two (by norm_num)
  rw [place_of_inRange h]
  omega

theorem zpow_place_le (h : InRange r) : (2 : ℚ) ^ (place r + 52) ≤ r := by
  rw [place_of_inRange h, sub_add_cancel]
  exact ((int_log_eq_iff h.pos).mp rfl).1

theorem lt_zpow_place (h : InRange r) : r < (2 : ℚ) ^ (place r + 53) := by
  have hlog := ((int_log_eq_iff h.pos).mp rfl).2
  rwa [place_of_inRange h, show Int.log 2 r - 52 + 53 = Int.log 2 r + 1 by ring]

theorem scaled_bounds (h : InRange r) : (2 ^ 52 : ℕ) ≤ r / 2 ^ place r ∧ r / 2 ^ place r < (2 ^ 53 : ℕ) := by
  have hp : (0 : ℚ) < 2 ^ place r := by positivity
  constructor
  · rw [le_div_iff₀ hp, Nat.cast_pow, Nat.cast_ofNat, ← zpow_natCast, ← zpow_add₀ two_ne_zero, add_comm]
    exact zpow_place_le h
  · rw [div_lt_iff₀ hp, Nat.cast_pow, Nat.cast_ofNat, ← zpow_natCast, ← zpow_add₀ two_ne_zero, add_comm]
    exact lt_zpow_place h

theorem halfEven_scaled_bounds (h : InRange r) :
    2 ^ 52 ≤ halfEven (r / 2 ^ place r) ∧ halfEven (r / 2 ^ place r) ≤ 2 ^ 53 := by
  obtain ⟨hlow, hhigh⟩ := scaled_bounds h
  have h₁ := halfEven_mono hlow
  have h₂ := halfEven_mono hhigh.le
  rw [halfEven_natCast] at h₁ h₂
  exact ⟨h₁, h₂⟩

/-- A number in range is rounded to a number with 53 bits. -/
theorem exists_nearest (h : InRange r) : ∃ m e, nearest r = .finite false m e ∧ IsNormal m e ∧
    (m : ℚ) * 2 ^ e = halfEven (r / 2 ^ place r) * 2 ^ place r := by
  obtain ⟨hlow, hhigh⟩ := halfEven_scaled_bounds h
  have hmin : minExponent ≤ place r := le_max_right _ _
  have hmax := place_le_of_inRange h
  have hmaxE : maxExponent = 971 := rfl
  rw [nearest_eq_packed h.pos]
  unfold packed
  split
  · rename_i heq
    rw [if_neg (by omega)]
    refine ⟨2 ^ 52, place r + 1, rfl, ⟨⟨le_refl _, by norm_num⟩, by omega, by omega⟩, ?_⟩
    rw [heq, zpow_add₀ two_ne_zero, zpow_one]
    push_cast
    ring
  · rename_i hne
    rw [if_neg (by omega)]
    exact ⟨_, _, rfl, ⟨⟨hlow, by omega⟩, hmin, by omega⟩, rfl⟩

theorem toRat_nearest (h : InRange r) :
    toRat (nearest r) = halfEven (r / 2 ^ place r) * 2 ^ place r := by
  obtain ⟨m, e, heq, -, hval⟩ := exists_nearest h
  rw [heq, toRat_finite, hval]

/-- A number that needs at most 53 bits. -/
def IsShort (z : ℚ) : Prop := ∃ (n : ℕ) (f : ℤ), n ≤ 2 ^ 53 ∧ z = n * 2 ^ f

/-- A short number stays below what is rounded. -/
theorem le_nearest (h : InRange r) {z : ℚ} (hz : IsShort z) (hzr : z ≤ r) : z ≤ toRat (nearest r) := by
  obtain ⟨n, f, hn, rfl⟩ := hz
  rw [toRat_nearest h]
  have hp : (0 : ℚ) < 2 ^ place r := by positivity
  rcases le_or_gt (place r) f with hle | hlt
  · obtain ⟨k, rfl⟩ := Int.le.dest hle
    have hscale : (n : ℚ) * 2 ^ (place r + k) = (n * 2 ^ k : ℕ) * 2 ^ place r := by
      rw [zpow_add₀ two_ne_zero, zpow_natCast]
      push_cast
      ring
    rw [hscale] at hzr ⊢
    have hdiv : ((n * 2 ^ k : ℕ) : ℚ) ≤ r / 2 ^ place r := by rwa [le_div_iff₀ hp]
    have hmono := halfEven_mono hdiv
    rw [halfEven_natCast] at hmono
    exact mul_le_mul_of_nonneg_right (by exact_mod_cast hmono) hp.le
  · calc (n : ℚ) * 2 ^ f ≤ (2 ^ 53 : ℕ) * 2 ^ (place r - 1) := by
          refine mul_le_mul (by exact_mod_cast hn) ?_ (by positivity) (by positivity)
          exact zpow_le_zpow_right₀ one_le_two (by omega)
      _ = (2 ^ 52 : ℕ) * 2 ^ place r := by
          rw [zpow_sub₀ two_ne_zero, zpow_one]
          push_cast
          ring
      _ ≤ halfEven (r / 2 ^ place r) * 2 ^ place r :=
          mul_le_mul_of_nonneg_right (by exact_mod_cast (halfEven_scaled_bounds h).1) hp.le

/-- A short number stays above what is rounded. -/
theorem nearest_le (h : InRange r) {z : ℚ} (hz : IsShort z) (hrz : r ≤ z) : toRat (nearest r) ≤ z := by
  obtain ⟨n, f, hn, rfl⟩ := hz
  rw [toRat_nearest h]
  have hp : (0 : ℚ) < 2 ^ place r := by positivity
  rcases le_or_gt (place r) f with hle | hlt
  · obtain ⟨k, rfl⟩ := Int.le.dest hle
    have hscale : (n : ℚ) * 2 ^ (place r + k) = (n * 2 ^ k : ℕ) * 2 ^ place r := by
      rw [zpow_add₀ two_ne_zero, zpow_natCast]
      push_cast
      ring
    rw [hscale] at hrz ⊢
    have hdiv : r / 2 ^ place r ≤ ((n * 2 ^ k : ℕ) : ℚ) := by rwa [div_le_iff₀ hp]
    have hmono := halfEven_mono hdiv
    rw [halfEven_natCast] at hmono
    exact mul_le_mul_of_nonneg_right (by exact_mod_cast hmono) hp.le
  · -- then both are the least number with this exponent
    have hup : (n : ℚ) * 2 ^ f ≤ (2 ^ 52 : ℕ) * 2 ^ place r := by
      calc (n : ℚ) * 2 ^ f ≤ (2 ^ 53 : ℕ) * 2 ^ (place r - 1) := by
            refine mul_le_mul (by exact_mod_cast hn) ?_ (by positivity) (by positivity)
            exact zpow_le_zpow_right₀ one_le_two (by omega)
        _ = (2 ^ 52 : ℕ) * 2 ^ place r := by
            rw [zpow_sub₀ two_ne_zero, zpow_one]
            push_cast
            ring
    have hlow := (scaled_bounds h).1
    rw [le_div_iff₀ hp] at hlow
    have heq : r = (2 ^ 52 : ℕ) * 2 ^ place r := le_antisymm (hrz.trans hup) hlow
    have hscaled : r / 2 ^ place r = (2 ^ 52 : ℕ) := by
      rw [div_eq_iff hp.ne']
      exact heq
    rw [hscaled, halfEven_natCast, ← heq]
    exact hrz

/-- A short number is left as it is. -/
theorem toRat_nearest_of_isShort (h : InRange r) (hr : IsShort r) : toRat (nearest r) = r :=
  le_antisymm (nearest_le h hr le_rfl) (le_nearest h hr le_rfl)

theorem isShort_finite {m : ℕ} {e : ℤ} (h : IsNormal m e) : IsShort (m * 2 ^ e) :=
  ⟨m, e, h.mantissa.2.le, rfl⟩

theorem isShort_natCast {n : ℕ} (hn : n ≤ 2 ^ 53) : IsShort n := ⟨n, 0, hn, by simp⟩

theorem isShort_two_zpow (f : ℤ) : IsShort (2 ^ f) := ⟨1, f, by norm_num, by simp⟩

/-- Rounding keeps the order. -/
theorem nearest_mono (h : InRange r) (h' : InRange r') (hle : r ≤ r') :
    toRat (nearest r) ≤ toRat (nearest r') := by
  have hplace : place r ≤ place r' := by
    rw [place_of_inRange h, place_of_inRange h']
    have := Int.log_mono_right (b := 2) h.pos hle
    omega
  rcases eq_or_lt_of_le hplace with heq | hlt
  · have hp : (0 : ℚ) < 2 ^ place r' := by positivity
    rw [toRat_nearest h, toRat_nearest h', heq]
    refine mul_le_mul_of_nonneg_right ?_ hp.le
    exact_mod_cast halfEven_mono (div_le_div_of_nonneg_right hle hp.le)
  · -- a power of two lies between
    have hbetween : (2 : ℚ) ^ (place r + 53) ≤ 2 ^ (place r' + 52) :=
      zpow_le_zpow_right₀ one_le_two (by omega)
    calc toRat (nearest r) ≤ 2 ^ (place r + 53) :=
          nearest_le h (isShort_two_zpow _) (lt_zpow_place h).le
      _ ≤ 2 ^ (place r' + 52) := hbetween
      _ ≤ toRat (nearest r') := le_nearest h' (isShort_two_zpow _) (zpow_place_le h')

/-- A number with 53 bits is known by what it stands for. -/
theorem eq_of_value_eq {m m' : ℕ} {e e' : ℤ} (h : IsNormal m e) (h' : IsNormal m' e')
    (heq : (m : ℚ) * 2 ^ e = m' * 2 ^ e') : m = m' ∧ e = e' := by
  have hlog : ∀ {m : ℕ} {e : ℤ}, IsNormal m e → Int.log 2 ((m : ℚ) * 2 ^ e) = e + 52 := by
    intro m e h
    have hp : (0 : ℚ) < 2 ^ e := by positivity
    have hlow : ((2 ^ 52 : ℕ) : ℚ) ≤ m := by exact_mod_cast h.mantissa.1
    have hhigh : (m : ℚ) < (2 ^ 53 : ℕ) := by exact_mod_cast h.mantissa.2
    have hm : (0 : ℚ) < m := lt_of_lt_of_le (by norm_num) hlow
    rw [int_log_eq_iff (mul_pos hm hp), add_assoc, zpow_add₀ two_ne_zero, zpow_add₀ two_ne_zero,
      mul_comm (m : ℚ)]
    constructor
    · refine mul_le_mul_of_nonneg_left (le_of_eq_of_le ?_ hlow) hp.le
      norm_num
    · refine mul_lt_mul_of_pos_left (lt_of_lt_of_eq hhigh ?_) hp
      norm_num
  have hexp : e = e' := by
    have := hlog h
    rw [heq, hlog h'] at this
    omega
  subst hexp
  have hp : (0 : ℚ) < 2 ^ e := by positivity
  exact ⟨by exact_mod_cast mul_right_cancel₀ hp.ne' heq, rfl⟩

/-- Numbers in range that stand for the same are the same. -/
theorem nearest_eq_of_toRat_eq (h : InRange r) {m : ℕ} {e : ℤ} (hnormal : IsNormal m e)
    (heq : toRat (nearest r) = m * 2 ^ e) : nearest r = .finite false m e := by
  obtain ⟨m', e', hr, hnormal', -⟩ := exists_nearest h
  rw [hr, toRat_finite] at heq
  obtain ⟨rfl, rfl⟩ := eq_of_value_eq hnormal' hnormal heq
  exact hr

/-- What is closer than half a unit of the last bit is rounded to a number. -/
theorem nearest_eq_of_abs_lt (h : InRange r) {m : ℕ} {e : ℤ} (hnormal : IsNormal m e)
    (hlow : (2 : ℚ) ^ (e + 52) ≤ r) (hclose : |r - m * 2 ^ e| < 2 ^ e / 2) :
    nearest r = .finite false m e := by
  have hp : (0 : ℚ) < 2 ^ e := by positivity
  have hm : (m : ℚ) + 1 ≤ (2 ^ 53 : ℕ) := by exact_mod_cast hnormal.mantissa.2
  have hlt := abs_lt.mp hclose
  have hhigh : r < 2 ^ (e + 53) := by
    rw [zpow_add₀ two_ne_zero]
    norm_num at hm ⊢
    nlinarith
  have hplace : place r = e := by
    rw [place_of_inRange h, (int_log_eq_iff h.pos (e := e + 52)).mpr ⟨hlow, by rwa [add_assoc]⟩]
    ring
  have hdiv : |r / 2 ^ e - m| < 1 / 2 := by
    have heq : r / 2 ^ e - m = (r - m * 2 ^ e) / 2 ^ e := by
      rw [sub_div, mul_div_cancel_right₀ _ hp.ne']
    rw [heq, abs_div, abs_of_pos hp, div_lt_iff₀ hp]
    linarith
  refine nearest_eq_of_toRat_eq h hnormal ?_
  rw [toRat_nearest h, hplace, halfEven_eq_of_abs_lt (div_nonneg h.pos.le hp.le) hdiv]

/-- Rounding moves a number by half a unit of the last place at most. -/
theorem abs_sub_nearest_le (h : InRange r) {m : ℕ} {e : ℤ} (heq : nearest r = .finite false m e) :
    |r - m * 2 ^ e| ≤ 2 ^ e / 2 := by
  obtain ⟨m', e', heq', hnormal, hval⟩ := exists_nearest h
  obtain ⟨-, rfl, rfl⟩ := Binary64.finite.inj (heq.symm.trans heq')
  have hp : (0 : ℚ) < 2 ^ place r := by positivity
  have hle : place r ≤ e := by
    have hlow : (2 : ℚ) ^ (place r + 52) ≤ m * 2 ^ e := by
      rw [hval, zpow_add₀ two_ne_zero, mul_comm]
      exact mul_le_mul_of_nonneg_right (by exact_mod_cast (halfEven_scaled_bounds h).1) hp.le
    have hhigh : (m : ℚ) * 2 ^ e < 2 ^ (e + 53) := by
      rw [zpow_add₀ two_ne_zero, mul_comm]
      exact mul_lt_mul_of_pos_left (by exact_mod_cast hnormal.mantissa.2) (by positivity)
    have hlt := (zpow_lt_zpow_iff_right₀ (one_lt_two (α := ℚ))).mp (hlow.trans_lt hhigh)
    omega
  have herr := abs_halfEven_sub_le (div_nonneg h.pos.le hp.le)
  have hscale : |((halfEven (r / 2 ^ place r) : ℚ) - r / 2 ^ place r) * 2 ^ place r| =
      |(halfEven (r / 2 ^ place r) : ℚ) - r / 2 ^ place r| * 2 ^ place r := by
    rw [abs_mul, abs_of_pos hp]
  calc |r - m * 2 ^ e| = |(halfEven (r / 2 ^ place r) : ℚ) - r / 2 ^ place r| * 2 ^ place r := by
        rw [hval, abs_sub_comm, ← hscale, sub_mul, div_mul_cancel₀ _ hp.ne']
    _ ≤ 1 / 2 * 2 ^ place r := mul_le_mul_of_nonneg_right herr hp.le
    _ ≤ 2 ^ e / 2 := by
        have := zpow_le_zpow_right₀ (one_le_two (α := ℚ)) hle
        linarith

/-- A number with 53 bits is nearest to what it stands for. -/
theorem nearest_toRat {m : ℕ} {e : ℤ} (hnormal : IsNormal m e) (h : InRange (m * 2 ^ e)) :
    nearest (m * 2 ^ e) = .finite false m e :=
  nearest_eq_of_toRat_eq h hnormal (toRat_nearest_of_isShort h (isShort_finite hnormal))

end InRange

section Operations

/-- The fraction that a number with an exponent is. -/
theorem num_div_den (m : ℕ) (e : ℤ) : ((num m e : ℕ) / (den e : ℕ) : ℚ) = m * 2 ^ e := by
  rw [num, den, two_zpow_eq]
  push_cast
  ring

theorem den_pos (e : ℤ) : 0 < den e := by
  unfold den
  positivity

theorem ofNat_eq_nearest (n : ℕ) : ofNat n = nearest n := by
  rw [ofNat, ofFraction_eq_nearest n one_pos, Nat.cast_one, div_one]

theorem mul_finite (m n : ℕ) (e f : ℤ) :
    finite false m e * finite false n f = nearest (m * 2 ^ e * (n * 2 ^ f)) := by
  change ofFraction false (num (m * n) (e + f)) (den (e + f)) = _
  rw [ofFraction_eq_nearest _ (den_pos _), num_div_den, zpow_add₀ two_ne_zero]
  push_cast
  ring_nf

theorem div_finite (m : ℕ) {n : ℕ} (hn : 0 < n) (e f : ℤ) :
    finite false m e / finite false n f = nearest (m * 2 ^ e / (n * 2 ^ f)) := by
  change div (finite false m e) (finite false n f) = _
  have hn' : (n : ℚ) ≠ 0 := by positivity
  have hf : (2 : ℚ) ^ f ≠ 0 := by positivity
  have hd : ((den (e - f) : ℕ) : ℚ) ≠ 0 := by exact_mod_cast (den_pos _).ne'
  rw [div, if_neg hn.ne']
  change ofFraction false (num m (e - f)) (n * den (e - f)) = _
  rw [ofFraction_eq_nearest _ (Nat.mul_pos hn (den_pos _))]
  congr 1
  have h := num_div_den m (e - f)
  rw [zpow_sub₀ two_ne_zero, div_eq_iff hd] at h
  rw [h]
  push_cast
  field_simp

/-- A product is rounded once. -/
theorem nearest_mul_nearest {r s : ℚ} (hr : InRange r) (hs : InRange s) :
    nearest r * nearest s = nearest (toRat (nearest r) * toRat (nearest s)) := by
  obtain ⟨m, e, hm, -, -⟩ := exists_nearest hr
  obtain ⟨n, f, hn, -, -⟩ := exists_nearest hs
  rw [hm, hn, mul_finite, toRat_finite, toRat_finite]

/-- A quotient is rounded once. -/
theorem nearest_div_nearest {r s : ℚ} (hr : InRange r) (hs : InRange s) :
    nearest r / nearest s = nearest (toRat (nearest r) / toRat (nearest s)) := by
  obtain ⟨m, e, hm, -, -⟩ := exists_nearest hr
  obtain ⟨n, f, hn, hnormal, -⟩ := exists_nearest hs
  have hpos : 0 < n := lt_of_lt_of_le (by norm_num) hnormal.mantissa.1
  rw [hm, hn, div_finite m hpos, toRat_finite, toRat_finite]

/-- Numbers are compared by their values. -/
theorem le_finite_iff {m n : ℕ} {e f : ℤ} (he : minExponent ≤ e) (hf : minExponent ≤ f) :
    le (.finite false m e) (.finite false n f) = true ↔ (m : ℚ) * 2 ^ e ≤ n * 2 ^ f := by
  have hscaled : ∀ {m : ℕ} {e : ℤ}, minExponent ≤ e →
      ((scaled false m e : ℤ) : ℚ) = m * 2 ^ e * 2 ^ (-minExponent) := by
    intro m e he
    unfold scaled
    simp only [Bool.false_eq_true, if_false]
    push_cast
    rw [mul_assoc, ← zpow_add₀ two_ne_zero, ← zpow_natCast, Int.toNat_of_nonneg (by omega),
      sub_eq_add_neg]
  have hp : (0 : ℚ) < 2 ^ (-minExponent) := by positivity
  simp only [le, decide_eq_true_eq]
  rw [← mul_le_mul_iff_left₀ hp, ← hscaled he, ← hscaled hf]
  exact_mod_cast Iff.rfl

/-- A number that is close to a whole number is rounded to it. -/
theorem roundToInt_eq {m n : ℕ} {e : ℤ} (h : |(m : ℚ) * 2 ^ e - n| < 1 / 2) :
    roundToInt (.finite false m e) = n := by
  have hd : (0 : ℚ) < den e := by exact_mod_cast den_pos e
  rw [← num_div_den] at h
  obtain ⟨hlow, hhigh⟩ := abs_lt.mp h
  rw [lt_sub_iff_add_lt, lt_div_iff₀ hd] at hlow
  rw [sub_lt_iff_lt_add, div_lt_iff₀ hd] at hhigh
  have hlow' : (n : ℚ) * (2 * den e) ≤ 2 * num m e + den e := by linarith
  have hhigh' : (2 * num m e + den e : ℚ) < (n + 1) * (2 * den e) := by linarith
  have hround : roundHalfUp (num m e) (den e) = n := by
    refine Nat.div_eq_of_lt_le ?_ ?_
    · exact_mod_cast hlow'
    · exact_mod_cast hhigh'
  unfold roundToInt
  simp only [Bool.false_eq_true, if_false, hround]

end Operations

end Binary64

end Workboard
