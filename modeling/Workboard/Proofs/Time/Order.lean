import Mathlib.Order.Defs.LinearOrder
import Workboard.Time.Instant

/-!
# The order of instants

Instants are compared by their parts, so two that neither comes before the other are the same. A
leap second is later than the second that it follows and earlier than the next one.
-/
namespace Workboard

/-- Instants are ordered by their seconds first. -/
instance : LinearOrder Instant where
  le_refl t := .inr ⟨rfl, Nat.le_refl _⟩
  le_trans s t u h h' := by
    rw [Instant.le_def] at h h' ⊢
    omega
  lt_iff_le_not_ge s t := by
    rw [Instant.lt_def, Instant.le_def, Instant.le_def]
    omega
  le_antisymm s t h h' := by
    rw [Instant.le_def] at h h'
    obtain ⟨hseconds, hnanos⟩ : s.seconds = t.seconds ∧ s.nanos = t.nanos := by omega
    cases s
    cases t
    simp_all
  le_total s t := by
    rw [Instant.le_def, Instant.le_def]
    omega
  toDecidableLE := inferInstance
  max_def s t := Instant.max_def s t

end Workboard
