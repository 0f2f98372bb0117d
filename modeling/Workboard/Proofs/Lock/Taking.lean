import Workboard.Proofs.Lock.Granting

/-!
# Who is given a lock

A lock that nobody interrupts the taking of is given to whoever finds it free, unreadable, stale or
their own, whatever stands in its file. Main statement: it then names the new owner, and nothing else
changes; anybody else leaves everything as it is.
-/
namespace Workboard.Locks
open Workboard.Action

/-- Who asks for the lock at this instant finds it free, unreadable, stale or their own. -/
def Slot.isOpenTo (s : Slot) (owner : String) (now : Instant) : Bool :=
  match s with
  | .missing => true
  | .unreadable _ => true
  | .held r => r.isStale now || r.owner = owner

variable {w : World Files} {root : Path} {id owner : String} {timeout : Duration}

theorem not_refuses (h : w.store.refusing = []) (p : Path) : ¬ w.Refuses p := by
  rintro ⟨names, hmem, -⟩
  rw [h] at hmem
  cases hmem

section Open
variable {post : Except Error Bool → World Files → Prop} (hw : w.Steady) (hrefusing : w.store.refusing = [])
include hw hrefusing

/-- A record that is read back whole takes a lock over. -/
theorem ends_takeOver {record : LockRecord} {hours : Binary64}
    (hread : Slot.ofText record.render = .held { record with timeoutHours := hours })
    (htaken : ∀ w', w.Becomes w' (Function.update w.store.text? (path root id).names (some record.render)) →
      post (.ok true) w') : (takeOver (path root id) record).Ends w post := by
  refine ends_bind (ends_replace hw _ _ (isPublic_path root id)
    (fun _ _ hrefuses => absurd hrefuses (not_refuses hrefusing _)) fun w' _ hw' => ?_)
  rw [andThen_ok]
  refine ends_bind (ends_slot ?_)
  have htext : w'.store.text? (path root id).names = some record.render := by rw [hw'.text, Function.update_self]
  rw [slotAt_of_text? htext, hread, andThen_ok]
  simp only [decide_true, Bool.and_self]
  exact ends_pure (htaken w' hw')

/-- A lock is given to whoever it is open to, and is then recorded for them; for anybody else nothing
changes. -/
theorem ends_acquire_open (hid : isValidId id = true) (hnamed : Text.isAllBlank owner = false)
    (hasked : timeout.MayBeAsked) (hnow : w.clock.IsTime ∧ w.clock.inRange = true) (hlasts : timeout.Lasts w.clock)
    (htaken : (slotAt w.store (path root id)).isOpenTo owner w.clock = true → ∀ text w',
      (Slot.ofText text).owner? = some owner →
      w.Becomes w' (Function.update w.store.text? (path root id).names (some text)) → post (.ok true) w')
    (hother : (slotAt w.store (path root id)).isOpenTo owner w.clock = false → post (.ok false) w) :
    (acquire root id owner timeout).Ends w post := by
  have hread : ∀ r : LockRecord, r.IsAsked timeout → r.heartbeatAt = w.clock → ∃ hours,
      Slot.ofText r.render = .held { r with timeoutHours := hours } := by
    intro r hr hbeat
    obtain ⟨hours, -, hheld⟩ := (hr.isSound (hbeat ▸ hlasts)).ofText_render
    exact ⟨hours, hheld⟩
  obtain ⟨hours, hheld⟩ := hread (.new id owner w.clock timeout) ⟨hasked, rfl, hnow, hnow⟩ rfl
  have hnew : (Slot.ofText (LockRecord.new id owner w.clock timeout).render).owner? = some owner := by
    rw [hheld]
    rfl
  rw [acquire_eq, if_neg (by simp [hid]), if_neg (by simp [hnamed]), if_neg hasked]
  refine ends_bind (ends_now ?_)
  rw [andThen_ok, tryTake]
  refine ends_bind (ends_createNew hw _ _ (isPublic_path root id)
    (fun _ hrefuses => absurd hrefuses (not_refuses hrefusing _)) (fun old hold => ?_) fun hnone w' hw' => ?_)
  · rw [andThen_ok, if_neg Bool.false_ne_true]
    refine ends_bind (ends_slot ?_)
    cases hslot : slotAt w.store (path root id) with
    | missing =>
      rw [slotAt_eq_missing, hold] at hslot
      cases hslot
    | unreadable reason =>
      rw [hslot] at htaken
      exact ends_takeOver hw hrefusing hheld fun w' hw' => htaken rfl _ w' hnew hw'
    | held current =>
      rw [hslot] at htaken hother
      simp only [Slot.isOpenTo, Bool.or_eq_true, Bool.or_eq_false_iff, decide_eq_true_eq,
        decide_eq_false_iff_not] at htaken hother
      rw [andThen_ok]
      by_cases hstale : current.isStale w.clock = true
      · simp only [if_pos hstale]
        exact ends_takeOver hw hrefusing hheld fun w' hw' => htaken (.inl hstale) _ w' hnew hw'
      simp only [if_neg hstale]
      by_cases hown : current.owner = owner
      · -- the own lock is written anew, and still tells since when it is held
        obtain ⟨hours', hheld'⟩ := hread
          { LockRecord.new id owner w.clock timeout with acquiredAt := current.acquiredAt }
          ⟨hasked, rfl, (isTime_of_held hslot).1, hnow⟩ rfl
        have hown' : current.owner = (LockRecord.new id owner w.clock timeout).owner := hown
        simp only [if_pos hown']
        refine ends_bind (ends_replace hw _ _ (isPublic_path root id)
          (fun _ _ hrefuses => absurd hrefuses (not_refuses hrefusing _)) fun w' _ hw' => ?_)
        exact ends_pure (htaken (.inr hown) _ w' (by rw [hheld']; rfl) hw')
      · have hown' : ¬ current.owner = (LockRecord.new id owner w.clock timeout).owner := hown
        simp only [if_neg hown']
        exact ends_pure (hother ⟨by simpa using hstale, hown⟩)
  · rw [andThen_ok, if_pos rfl]
    have hopen : (slotAt w.store (path root id)).isOpenTo owner w.clock = true := by
      rw [slotAt_eq_missing.mpr hnone]
      rfl
    exact ends_pure (htaken hopen _ w' hnew hw')

end Open

end Workboard.Locks
