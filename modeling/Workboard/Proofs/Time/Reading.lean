import Mathlib.Tactic.Common
import Workboard.Proofs.Text.Digits
import Workboard.Proofs.Time.Calendar
import Workboard.Time.Printer
import Workboard.Time.Reader

/-!
# Reading instants that were written

Every part of a written instant is read back by the step of the reader that meets it.
Main statement: an instant of the supported years is read back from its text.
-/
namespace Workboard.Instant

/-- A count of a whole second or more stands only for a second that follows 59. -/
structure IsTime (t : Instant) : Prop where
  nanos : t.nanos < 2000000000
  leap : t.isLeap = true → t.timeOfDay % 60 = 59

namespace Reader
open Workboard.Text

theorem isBlank_of_isDigit {c : Char} (h : c.isDigit = true) : isBlank c = false := by
  simp only [Char.isDigit, Bool.and_eq_true, decide_eq_true_eq, ge_iff_le, UInt32.le_iff_toNat_le] at h
  change 48 ≤ c.toNat ∧ c.toNat ≤ 57 at h
  unfold isBlank
  simp only [Bool.or_eq_false_iff, Bool.and_eq_false_iff, decide_eq_false_iff_not, beq_eq_false_iff_ne]
  omega

section Digits
variable {ds rest : List Char} (hds : ∀ c ∈ ds, c.isDigit = true) (hne : ds ≠ [])
include hds hne

theorem dropBlank_digits (rest : List Char) : dropBlank (ds ++ rest) = ds ++ rest := by
  cases ds with
  | nil => exact absurd rfl hne
  | cons d ds =>
    rw [List.cons_append, dropBlank_cons, if_neg]
    rw [isBlank_of_isDigit (hds d List.mem_cons_self)]
    exact Bool.false_ne_true

/-- Digits that fit the width, in front of something else. -/
theorem digits_append {width : Nat} (hlen : ds.length ≤ width)
    (hrest : ∀ c ∈ rest.head?, c.isDigit = false) :
    digits width (ds ++ rest) = some ((natOfDigits ds, ds.length), rest) := by
  have htake : ((ds ++ rest).take width).takeWhile Char.isDigit = ds := by
    rw [List.take_append, List.take_of_length_le hlen, List.takeWhile_append_of_pos hds]
    have hnil : (rest.take (width - ds.length)).takeWhile Char.isDigit = [] := by
      cases rest with
      | nil => simp
      | cons c rest =>
        cases width - ds.length with
        | zero => rfl
        | succ n => simp [hrest c rfl]
    rw [hnil, List.append_nil]
  have hfalse : ds.isEmpty = false := by simpa using hne
  unfold digits
  simp only [htake, hfalse, Bool.false_eq_true, if_false, List.drop_left]
  rfl

end Digits

section Steps
variable {rest : List Char} (hrest : ∀ c ∈ rest.head?, c.isDigit = false)

/-- A character that is not blank is met at once. -/
theorem mark_cons {c : Char} (hc : isBlank c = false) (rest : List Char) :
    mark c (c :: rest) = some ((), rest) := by
  unfold mark
  rw [dropBlank_cons, if_neg (by rw [hc]; exact Bool.false_ne_true)]
  exact if_pos rfl

include hrest

/-- A field of two digits. -/
theorem field_padDigits {n : Nat} (hn : n < 100) : field (padDigits 2 n ++ rest) = some (n, rest) := by
  have hdigits : ∀ c ∈ padDigits 2 n, c.isDigit = true := fun c hc => isDigit_of_mem_padDigits hc
  have hne := padDigits_ne_nil 2 n
  unfold field
  rw [dropBlank_digits hdigits hne, digits_append hdigits hne
    (length_padDigits (by omega) hn).le hrest, Option.map_some, natOfDigits_padDigits]

/-- A year, with a sign if it does not have four digits. -/
theorem year_written (y : Int) :
    year ((if 0 ≤ y && y ≤ 9999 then padDigits 4 y.toNat
      else (if y < 0 then '-' else '+') :: padDigits 4 y.natAbs) ++ rest) = some (y, rest) := by
  have hdigits : ∀ n, ∀ c ∈ padDigits 4 n, c.isDigit = true := fun n c hc => isDigit_of_mem_padDigits hc
  have hne := padDigits_ne_nil 4
  have hsigned : ∀ n, digits (padDigits 4 n ++ rest).length (padDigits 4 n ++ rest) =
      some ((n, (padDigits 4 n).length), rest) := by
    intro n
    rw [digits_append (hdigits n) (hne n) (by simp) hrest, natOfDigits_padDigits]
  have hminus : isBlank '-' = false := by decide
  have hplus : isBlank '+' = false := by decide
  unfold year
  by_cases hplain : 0 ≤ y ∧ y ≤ 9999
  · have hguard : (0 ≤ y && y ≤ 9999) = true := by simpa using hplain
    have hlen := @length_padDigits 4 y.toNat (by omega) (by omega)
    rw [if_pos hguard, dropBlank_digits (hdigits _) (hne _)]
    have hread := digits_append (hdigits y.toNat) (hne _) hlen.le hrest
    rw [natOfDigits_padDigits] at hread
    cases hds : padDigits 4 y.toNat with
    | nil => exact absurd hds (hne _)
    | cons d ds =>
      have hd : d.isDigit = true := hdigits y.toNat d (by rw [hds]; exact List.mem_cons_self)
      rw [hds] at hread
      split
      · rename_i heq
        obtain ⟨rfl, -⟩ := List.cons.inj heq
        exact absurd hd (by decide)
      · rename_i heq
        obtain ⟨rfl, -⟩ := List.cons.inj heq
        exact absurd hd (by decide)
      · simp only [hread, Option.map_some]
        congr 2
        omega
  · have hguard : ¬ (0 ≤ y && y ≤ 9999) = true := by simpa using hplain
    rw [if_neg hguard]
    by_cases hneg : y < 0
    · rw [if_pos hneg, List.cons_append, dropBlank_cons, if_neg (by rw [hminus]; exact Bool.false_ne_true)]
      simp only [hsigned, Option.map_some]
      congr 2
      omega
    · rw [if_neg hneg, List.cons_append, dropBlank_cons, if_neg (by rw [hplus]; exact Bool.false_ne_true)]
      simp only [hsigned, Option.map_some]
      congr 2
      omega

/-- The places of a second. -/
theorem fraction_written {n : Nat} (hn : n < 1000000000) (hpoint : ∀ c ∈ rest.head?, c ≠ '.') :
    fraction (fractionText n ++ rest) = some (n, rest) := by
  have hplaces : ∀ width k, 0 < width → width ≤ 9 → k < 10 ^ width →
      fraction ('.' :: padDigits width k ++ rest) = some (k * 10 ^ (9 - width), rest) := by
    intro width k hwidth hle hk
    have hlen := length_padDigits hwidth hk
    unfold fraction
    simp only [List.cons_append]
    rw [digits_append (fun c hc => isDigit_of_mem_padDigits hc) (padDigits_ne_nil _ _)
      (hlen.trans_le hle) hrest, natOfDigits_padDigits, hlen, Option.map_some]
    have hdrop : rest.dropWhile Char.isDigit = rest := by
      cases rest with
      | nil => rfl
      | cons c rest => simp [hrest c rfl]
    rw [hdrop]
  unfold fractionText
  by_cases h₀ : n = 0
  · subst h₀
    rw [if_pos rfl, List.nil_append]
    unfold fraction
    split
    · exact absurd rfl (hpoint '.' rfl)
    · rfl
  rw [if_neg h₀]
  by_cases h₃ : n % 1000000 = 0
  · rw [if_pos h₃, hplaces 3 _ (by omega) (by omega) (by omega)]
    congr 2
    omega
  rw [if_neg h₃]
  by_cases h₆ : n % 1000 = 0
  · rw [if_pos h₆, hplaces 6 _ (by omega) (by omega) (by omega)]
    congr 2
    omega
  rw [if_neg h₆, hplaces 9 _ (by omega) (by omega) (by omega)]
  congr 2
  omega

end Steps

/-- An instant is put together from its date and its time of day. -/
theorem assemble?_eq {t : Instant} (h : t.IsTime) (hrange : t.inRange = true) :
    assemble? (dateOfDay t.day).1 (dateOfDay t.day).2.1 (dateOfDay t.day).2.2
      (t.timeOfDay.toNat / 3600) (t.timeOfDay.toNat / 60 % 60)
      (t.timeOfDay.toNat % 60 + if t.isLeap then 1 else 0)
      (t.nanos - (if t.isLeap then 1 else 0) * 1000000000) 0 = some t := by
  obtain ⟨⟨⟨hm₁, hm₂⟩, hd₁, hd₂⟩, hday⟩ := dateOfDay_spec t.day
  have htod : t.timeOfDay = t.seconds % 86400 := rfl
  have hdays : t.day = t.seconds / 86400 := rfl
  obtain ⟨s, hs⟩ : ∃ s : Nat, t.timeOfDay.toNat = s := ⟨_, rfl⟩
  have hlt : s < 86400 := by omega
  have hnanos := h.nanos
  obtain ⟨leap, hleap, hsecond, hpast⟩ : ∃ leap : Nat, (if t.isLeap then 1 else 0) = leap ∧
      (s % 60 + leap) / 60 = leap ∧ leap * 1000000000 ≤ t.nanos := by
    by_cases hl : t.isLeap = true
    · have hlast := h.leap hl
      have hge : 1000000000 ≤ t.nanos := by
        have : nanosPerSecond ≤ t.nanos := of_decide_eq_true hl
        change (1000000000 : Int) ≤ t.nanos at this
        omega
      exact ⟨1, if_pos hl, by omega, (Nat.one_mul _).trans_le hge⟩
    · exact ⟨0, if_neg hl, by omega, (Nat.zero_mul _).trans_le (Nat.zero_le _)⟩
  rw [hs, hleap]
  have hclock : s / 3600 * 3600 + s / 60 % 60 * 60 + (s % 60 + leap - leap) = s := by omega
  have hguard : (1 ≤ (dateOfDay t.day).2.1 && (dateOfDay t.day).2.1 ≤ 12 &&
      1 ≤ (dateOfDay t.day).2.2 &&
      (dateOfDay t.day).2.2 ≤ daysInMonth (dateOfDay t.day).1 (dateOfDay t.day).2.1 &&
      s / 3600 < 24 && s / 60 % 60 < 60 && s % 60 + leap ≤ 60 && (0 : Int).natAbs < 86400) = true := by
    simp only [Bool.and_eq_true, decide_eq_true_eq]
    refine ⟨⟨⟨⟨⟨⟨⟨hm₁, hm₂⟩, hd₁⟩, hd₂⟩, by omega⟩, by omega⟩, by omega⟩, by decide⟩
  have hshown : (⟨dayOfDate (dateOfDay t.day).1 (dateOfDay t.day).2.1 (dateOfDay t.day).2.2 *
      secondsPerDay + (s : Int), t.nanos - leap * 1000000000 + leap * 1000000000⟩ : Instant) = t := by
    have hsec : t.day * secondsPerDay + (s : Int) = t.seconds := by
      have : secondsPerDay = 86400 := rfl
      rw [this]
      omega
    have hnan : t.nanos - leap * 1000000000 + leap * 1000000000 = t.nanos := by omega
    rw [hday, hsec, hnan]
  unfold assemble?
  simp only [if_pos hguard, hsecond, hclock, hshown, Int.sub_zero, hrange, Bool.and_self, if_true]

/-- The characters of a written instant. -/
theorem toList_toZuluText (t : Instant) : t.toZuluText.toList =
    (if 0 ≤ (dateOfDay t.day).1 && (dateOfDay t.day).1 ≤ 9999
      then padDigits 4 (dateOfDay t.day).1.toNat
      else (if (dateOfDay t.day).1 < 0 then '-' else '+') :: padDigits 4 (dateOfDay t.day).1.natAbs) ++
    '-' :: (padDigits 2 (dateOfDay t.day).2.1 ++ '-' :: (padDigits 2 (dateOfDay t.day).2.2 ++
    'T' :: (padDigits 2 (t.timeOfDay.toNat / 3600) ++ ':' :: (padDigits 2 (t.timeOfDay.toNat / 60 % 60) ++
    ':' :: (padDigits 2 (t.timeOfDay.toNat % 60 + if t.isLeap then 1 else 0) ++
      (fractionText (t.nanos - (if t.isLeap then 1 else 0) * 1000000000) ++ ['Z'])))))) := by
  unfold toZuluText dateText timeText
  have hT : "T".toList = ['T'] := rfl
  have hZ : "Z".toList = ['Z'] := rfl
  simp only [String.toList_append, String.toList_ofList, hT, hZ, List.append_assoc,
    List.cons_append, List.nil_append]

theorem fractionText_stops (n : Nat) : ∀ c ∈ (fractionText n ++ ['Z']).head?, c.isDigit = false := by
  unfold fractionText
  split_ifs <;> simp

/-- A written instant is read in whole. -/
theorem dateTime_toZuluText {t : Instant} (h : t.IsTime) (hrange : t.inRange = true) :
    dateTime t.toZuluText.toList = some (t, []) := by
  have hassemble := assemble?_eq h hrange
  obtain ⟨⟨⟨hm₁, hm₂⟩, hd₁, hd₂⟩, -⟩ := dateOfDay_spec t.day
  have hdays : (dateOfDay t.day).2.2 ≤ 31 := hd₂.trans (daysInMonth_le _ _)
  have hlt : t.timeOfDay.toNat < 86400 := by
    have : t.timeOfDay = t.seconds % 86400 := rfl
    omega
  have hnanos : t.nanos - (if t.isLeap then 1 else 0) * 1000000000 < 1000000000 := by
    have := h.nanos
    split
    · omega
    · rename_i hl
      have : ¬ nanosPerSecond ≤ t.nanos := fun hle => hl (decide_eq_true hle)
      change ¬ (1000000000 : Int) ≤ t.nanos at this
      omega
  have hsecond : t.timeOfDay.toNat % 60 + (if t.isLeap then 1 else 0) < 100 := by split <;> omega
  have hhyphen : isBlank '-' = false := by decide
  have hcolon : isBlank ':' = false := by decide
  have hzone : zone ['Z'] = some (0, []) := by decide
  have hstop : ∀ c : Char, c.isDigit = false → ∀ rest, ∀ x ∈ (c :: rest).head?, x.isDigit = false := by
    intro c hc rest
    simpa using hc
  have hminus := hstop '-' (by decide)
  have htwo := hstop ':' (by decide)
  rw [toList_toZuluText]
  revert hassemble hnanos hsecond
  generalize t.nanos - (if t.isLeap then 1 else 0) * 1000000000 = nanos
  generalize t.timeOfDay.toNat % 60 + (if t.isLeap then 1 else 0) = second
  intro hassemble hnanos hsecond
  refine Option.bind_eq_some_iff.mpr ⟨_, year_written (hminus _) _, ?_⟩
  refine Option.bind_eq_some_iff.mpr ⟨_, mark_cons hhyphen _, ?_⟩
  refine Option.bind_eq_some_iff.mpr ⟨_, field_padDigits (hminus _) (by omega), ?_⟩
  refine Option.bind_eq_some_iff.mpr ⟨_, mark_cons hhyphen _, ?_⟩
  refine Option.bind_eq_some_iff.mpr ⟨_, field_padDigits (hstop 'T' (by decide) _) (by omega), ?_⟩
  refine Option.bind_eq_some_iff.mpr ⟨_, field_padDigits (htwo _) (by omega), ?_⟩
  refine Option.bind_eq_some_iff.mpr ⟨_, mark_cons hcolon _, ?_⟩
  refine Option.bind_eq_some_iff.mpr ⟨_, field_padDigits (htwo _) (by omega), ?_⟩
  refine Option.bind_eq_some_iff.mpr ⟨_, mark_cons hcolon _, ?_⟩
  refine Option.bind_eq_some_iff.mpr ⟨_, field_padDigits (fractionText_stops _) hsecond, ?_⟩
  refine Option.bind_eq_some_iff.mpr ⟨_, fraction_written (hstop 'Z' (by decide) []) hnanos (by simp), ?_⟩
  refine Option.bind_eq_some_iff.mpr ⟨_, hzone, ?_⟩
  exact Option.bind_eq_some_iff.mpr ⟨_, hassemble, rfl⟩

end Reader

/-- An instant of the supported years is read back from its text. -/
theorem ofText?_toZuluText {t : Instant} (h : t.IsTime) (hrange : t.inRange = true) :
    ofText? t.toZuluText = some t := by
  unfold ofText?
  simp only [Reader.dateTime_toZuluText h hrange]
  rfl

end Workboard.Instant
