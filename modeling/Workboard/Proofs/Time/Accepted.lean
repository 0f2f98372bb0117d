import Mathlib.Data.List.TakeWhile
import Workboard.Proofs.Time.Reading

/-!
# Instants that are read

The reader is lenient about how an instant is written, but it accepts none that cannot be:
whatever it reads has a proper count of nanoseconds, a leap second at the end of a minute
only, and a day of the supported years.
-/
namespace Workboard.Instant

namespace Reader

/-- Digits stand for less than ten to their number. -/
theorem foldl_digits_lt {ds : List Char} (hds : ∀ c ∈ ds, c.isDigit = true) (n : Nat) :
    ds.foldl (fun n d => 10 * n + (d.toNat - 48)) n < 10 ^ ds.length * (n + 1) := by
  induction ds generalizing n with
  | nil => simp
  | cons d ds ih =>
    have hd : d.toNat ≤ 57 := by
      have := hds d List.mem_cons_self
      simp only [Char.isDigit, Bool.and_eq_true, decide_eq_true_eq, UInt32.le_iff_toNat_le] at this
      exact this.2
    have hrest := ih (fun c hc => hds c (List.mem_cons_of_mem _ hc)) (10 * n + (d.toNat - 48))
    rw [List.foldl_cons, List.length_cons, pow_succ, mul_assoc]
    refine hrest.trans_le (Nat.mul_le_mul_left _ ?_)
    omega

theorem lt_of_digits {width n places : Nat} {cs rest : List Char}
    (h : digits width cs = some ((n, places), rest)) : n < 10 ^ places ∧ places ≤ width := by
  unfold digits at h
  dsimp only at h
  split at h
  · cases h
  · cases h
    refine ⟨?_, ?_⟩
    · have hdigits : ∀ c ∈ (cs.take width).takeWhile Char.isDigit, c.isDigit = true :=
        fun c hc => List.mem_takeWhile_imp hc
      have hlt := foldl_digits_lt hdigits 0
      rwa [Nat.zero_add, Nat.mul_one] at hlt
    · exact (List.takeWhile_prefix _).length_le.trans (List.length_take_le _ _)

/-- The places of a second make less than a second. -/
theorem lt_of_fraction {n : Nat} {cs rest : List Char} (h : fraction cs = some (n, rest)) :
    n < 1000000000 := by
  unfold fraction at h
  split at h
  · obtain ⟨⟨⟨k, places⟩, r⟩, hdigits, heq⟩ := Option.map_eq_some_iff.mp h
    cases heq
    obtain ⟨hlt, hle⟩ := lt_of_digits hdigits
    calc k * 10 ^ (9 - places) < 10 ^ places * 10 ^ (9 - places) :=
          Nat.mul_lt_mul_of_pos_right hlt (by positivity)
      _ = 10 ^ 9 := by rw [← pow_add, Nat.add_sub_cancel' hle]
  · cases h
    decide

theorem mod_offsetAmount {n : Int} {cs rest : List Char} (h : offsetAmount cs = some (n, rest)) :
    n % 60 = 0 := by
  obtain ⟨⟨hours, cs₁⟩, -, h⟩ := Option.bind_eq_some_iff.mp h
  obtain ⟨⟨minutes, cs₂⟩, -, h⟩ := Option.bind_eq_some_iff.mp h
  cases h
  omega

/-- A zone is ahead by whole minutes. -/
theorem mod_zone {n : Int} {cs rest : List Char} (h : zone cs = some (n, rest)) : n % 60 = 0 := by
  unfold zone at h
  split at h
  · cases h
  · split_ifs at h
    · cases h
      rfl
    · cases h
      rfl
    · exact mod_offsetAmount h
    · obtain ⟨⟨k, r⟩, hamount, heq⟩ := Option.map_eq_some_iff.mp h
      cases heq
      have := mod_offsetAmount hamount
      omega

theorem isTime_of_assemble? {year : Int} {month day hour minute second nanos : Nat} {offset : Int}
    {t : Instant} (h : assemble? year month day hour minute second nanos offset = some t)
    (hnanos : nanos < 1000000000) (hoffset : offset % 60 = 0) :
    t.IsTime ∧ t.inRange = true := by
  unfold assemble? at h
  split at h
  · rename_i hguard
    simp only [Bool.and_eq_true, decide_eq_true_eq] at hguard
    have hsecond := hguard.1.2
    simp only at h
    split at h
    · rename_i hrange
      cases h
      refine ⟨⟨?_, fun hleap => ?_⟩, (Bool.and_eq_true _ _ ▸ hrange).2⟩
      · change nanos + second / 60 * 1000000000 < 2000000000
        omega
      · have hpast : (1000000000 : Int) ≤ (nanos + second / 60 * 1000000000 : Nat) :=
          of_decide_eq_true hleap
        obtain rfl : second = 60 := by omega
        change (dayOfDate year month day * 86400 +
          (hour * 3600 + minute * 60 + (60 - 60 / 60) : Nat) - offset) % 86400 % 60 = 59
        omega
    · cases h
  · cases h

theorem isTime_of_dateTime {cs rest : List Char} {t : Instant} (h : dateTime cs = some (t, rest)) :
    t.IsTime ∧ t.inRange = true := by
  obtain ⟨⟨year, cs₁⟩, -, h⟩ := Option.bind_eq_some_iff.mp h
  obtain ⟨⟨_, cs₂⟩, -, h⟩ := Option.bind_eq_some_iff.mp h
  obtain ⟨⟨month, cs₃⟩, -, h⟩ := Option.bind_eq_some_iff.mp h
  obtain ⟨⟨_, cs₄⟩, -, h⟩ := Option.bind_eq_some_iff.mp h
  obtain ⟨⟨day, cs₅⟩, -, h⟩ := Option.bind_eq_some_iff.mp h
  dsimp only at h
  split at h
  rotate_left
  · cases h
  split at h
  rotate_left
  · cases h
  obtain ⟨cs₆, -, h⟩ := Option.bind_eq_some_iff.mp h
  obtain ⟨⟨hour, cs₇⟩, -, h⟩ := Option.bind_eq_some_iff.mp h
  obtain ⟨⟨_, cs₈⟩, -, h⟩ := Option.bind_eq_some_iff.mp h
  obtain ⟨⟨minute, cs₉⟩, -, h⟩ := Option.bind_eq_some_iff.mp h
  obtain ⟨⟨_, cs₁₀⟩, -, h⟩ := Option.bind_eq_some_iff.mp h
  obtain ⟨⟨second, cs₁₁⟩, -, h⟩ := Option.bind_eq_some_iff.mp h
  obtain ⟨⟨nanos, cs₁₂⟩, hfraction, h⟩ := Option.bind_eq_some_iff.mp h
  obtain ⟨⟨offset, cs₁₃⟩, hzone, h⟩ := Option.bind_eq_some_iff.mp h
  obtain ⟨u, hassemble, h⟩ := Option.bind_eq_some_iff.mp h
  cases h
  exact isTime_of_assemble? hassemble (lt_of_fraction hfraction) (mod_zone hzone)

end Reader

/-- Whatever the reader accepts is an instant of the supported years. -/
theorem isTime_of_ofText? {s : String} {t : Instant} (h : ofText? s = some t) :
    t.IsTime ∧ t.inRange = true := by
  unfold ofText? at h
  split at h
  · rename_i u rest hread
    split at h
    · cases h
      exact Reader.isTime_of_dateTime hread
    · cases h
  · cases h

end Workboard.Instant
