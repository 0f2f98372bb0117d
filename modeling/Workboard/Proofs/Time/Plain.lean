import Workboard.Time.Instant

/-!
# Instants outside leap seconds

Outside leap seconds an instant is a count of nanoseconds, differences are differences of
counts, and a shift adds to the count.
-/
namespace Workboard.Instant

/-- The instant is not within a leap second. -/
def IsPlain (t : Instant) : Prop := t.nanos < 1000000000

instance (t : Instant) : Decidable t.IsPlain := inferInstanceAs (Decidable (t.nanos < 1000000000))

/-- The nanoseconds since the start of 1970. -/
def count (t : Instant) : Int := t.seconds * nanosPerSecond + t.nanos

theorem nanosPerSecond_eq : nanosPerSecond = 1000000000 := rfl

section Plain
variable {a b t : Instant}

theorem IsPlain.isLeap_eq (h : t.IsPlain) : t.isLeap = false := by
  have hlt : t.nanos < 1000000000 := h
  rw [isLeap, decide_eq_false_iff_not, nanosPerSecond_eq]
  omega

theorem lt_iff_count_lt (ha : a.IsPlain) (hb : b.IsPlain) : a < b ↔ a.count < b.count := by
  have ha' : a.nanos < 1000000000 := ha
  have hb' : b.nanos < 1000000000 := hb
  rw [lt_def, count, count, nanosPerSecond_eq]
  omega

theorem since_eq (ha : a.IsPlain) (hb : b.IsPlain) : a.since b = ⟨a.count - b.count⟩ := by
  have hleap : leapBetween a b = 0 := by
    simp [leapBetween, ha.isLeap_eq, hb.isLeap_eq]
  rw [since, hleap, count, count, Duration.mk.injEq, nanosPerSecond_eq]
  omega

theorem shift_eq (h : t.IsPlain) (d : Duration) : t.shift d =
    ⟨(t.count + d.nanos) / nanosPerSecond, ((t.count + d.nanos) % nanosPerSecond).toNat⟩ := by
  simp only [shift, h.isLeap_eq, Bool.false_and, Bool.false_eq_true, if_false, count]

theorem isPlain_shift (h : t.IsPlain) (d : Duration) : (t.shift d).IsPlain := by
  rw [shift_eq h, nanosPerSecond_eq]
  change ((t.count + d.nanos) % 1000000000).toNat < 1000000000
  omega

theorem count_shift (h : t.IsPlain) (d : Duration) : (t.shift d).count = t.count + d.nanos := by
  rw [shift_eq h, count, nanosPerSecond_eq]
  simp only
  omega

/-- More time has gone by than the duration exactly after the shifted instant. -/
theorem lt_since_iff (ha : a.IsPlain) (ht : t.IsPlain) (d : Duration) :
    d < a.since t ↔ t.shift d < a := by
  rw [since_eq ha ht, Duration.lt_def, lt_iff_count_lt (isPlain_shift ht d) ha, count_shift ht]
  simp only
  omega

theorem add?_eq_some {d : Duration} {e : Instant} :
    t.add? d = some e ↔ t.shift d = e ∧ e.inRange = true := by
  simp only [add?]
  split
  · rename_i h
    constructor
    · rintro ⟨rfl⟩
      exact ⟨rfl, h⟩
    · rintro ⟨rfl, -⟩
      rfl
  · rename_i h
    constructor
    · intro hnone
      cases hnone
    · rintro ⟨rfl, hrange⟩
      exact absurd hrange h

theorem max_eq_or (a b : Instant) : max a b = a ∨ max a b = b := by
  rw [max_def]
  split
  · exact .inr rfl
  · exact .inl rfl

end Plain

end Workboard.Instant
