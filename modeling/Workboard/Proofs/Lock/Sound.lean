import Workboard.Proofs.Lock.Hours
import Workboard.Proofs.Lock.Slot
import Workboard.Proofs.Time.Plain

/-!
# Records that are read back

A lock record whose times can be written, whose hours stand for whole milliseconds and whose
lock has an instant to expire at is read back with the same owner, times and timeout.
Only its number of hours may differ.
-/
namespace Workboard.LockRecord

/-- The record of a lock that is kept for so many milliseconds. -/
structure IsSound (r : LockRecord) (ms : ℕ) : Prop where
  allowed : AllowedMillis ms
  hours : StandsFor ms r.timeoutHours
  acquired : r.acquiredAt.IsTime ∧ r.acquiredAt.inRange = true
  heartbeat : r.heartbeatAt.IsTime ∧ r.heartbeatAt.inRange = true
  expires : (r.heartbeatAt.add? (.ofMillis ms)).isSome = true

section Sound
variable {r : LockRecord} {ms : ℕ}

theorem IsSound.timeoutOfHours?_eq (h : r.IsSound ms) :
    timeoutOfHours? r.timeoutHours = some (.ofMillis ms) := h.hours.timeoutOfHours? h.allowed

theorem IsSound.timeout_eq (h : r.IsSound ms) : r.timeout = .ofMillis ms := by
  rw [timeout, h.timeoutOfHours?_eq, Option.getD_some]

theorem IsSound.flaw?_eq (h : r.IsSound ms) : r.flaw? = none := by
  have hexpires : r.expiresAt?.isNone = false := by
    rw [expiresAt?, h.timeout_eq, ← Bool.not_eq_true, Option.isNone_iff_eq_none,
      ← Option.not_isSome_iff_eq_none, not_not]
    exact h.expires
  rw [flaw?, h.timeoutOfHours?_eq, hexpires]
  rfl

/-- A record that is read back, read from a lock file. -/
theorem IsSound.ofText_render (h : r.IsSound ms) : ∃ hours, StandsFor ms hours ∧
    Locks.Slot.ofText r.render = .held { r with timeoutHours := hours } := by
  obtain ⟨n, size, j, hours, hreads, hvalue, hstands⟩ := h.hours.reread h.allowed
  have hsound : IsSound { r with timeoutHours := hours } ms :=
    ⟨h.allowed, hstands, h.acquired, h.heartbeat, h.expires⟩
  refine ⟨hours, hstands, ?_⟩
  rw [Locks.Slot.ofText, ofText?_render_of_reads h.acquired h.heartbeat hreads hvalue]
  simp only [hsound.flaw?_eq]

/-- The record of a lock that is taken now. -/
theorem isSound_new (h : AllowedMillis ms) (id owner : String) {now : Instant} (htime : now.IsTime)
    (hrange : now.inRange = true) (hexpires : (now.add? (.ofMillis ms)).isSome = true) :
    (LockRecord.new id owner now (.ofMillis ms)).IsSound ms :=
  ⟨h, standsFor_hoursOfTimeout h, ⟨htime, hrange⟩, ⟨htime, hrange⟩, hexpires⟩

/-- Outside leap seconds a lock is stale exactly after the instant at which it expires. -/
theorem isStale_iff_expiresAt?_lt {now : Instant} (hnow : now.IsPlain)
    (hbeat : r.heartbeatAt.IsPlain) (hexpires : r.expiresAt?.isSome = true) :
    r.isStale now = true ↔ ∃ t, r.expiresAt? = some t ∧ t < now := by
  obtain ⟨t, ht⟩ := Option.isSome_iff_exists.mp hexpires
  obtain ⟨hshift, -⟩ := Instant.add?_eq_some.mp ht
  rw [isStale, decide_eq_true_eq, Instant.lt_since_iff hnow hbeat, hshift, ht]
  simp

end Sound

end Workboard.LockRecord
