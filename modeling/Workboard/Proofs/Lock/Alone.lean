import Workboard.Proofs.Board.Alone

/-!
# Locks, used alone

What a look at a lock finds if nobody interrupts it, and what its removal leaves.
-/
namespace Workboard.Locks
open Workboard.Action
variable {w : World Files} {root : Path} {id owner : String}

/-- A look at a lock, run alone. -/
theorem runIn_slot (w : World Files) (p : Path) : (slot p).run.runIn w = (.ok (slotAt w.store p), w) := by
  unfold slot slotAt
  rw [Action.runIn_bind_ok (Action.runIn_read w p), Files.read]
  cases w.store.text? p.names <;> rfl

theorem runIn_checkId (hid : isValidId id = true) (w : World Files) :
    (Records.checkId id).run.runIn w = (.ok (), w) := by
  rw [Records.checkId, if_pos hid]
  rfl

/-- A lock that is held has a file. -/
theorem exists_text_of_held {f : Files} {p : Path} {r : LockRecord} (h : slotAt f p = .held r) :
    ∃ text, f.text? p.names = some text := by
  unfold slotAt at h
  split at h
  · cases h
  · rename_i text htext
    exact ⟨text, htext⟩

theorem ends_slot {p : Path} {post : Except Error Slot → World Files → Prop}
    (h : post (.ok (slotAt w.store p)) w) : (slot p).Ends w post :=
  ends_of_runIn (runIn_slot w p) h

/-- The question whether the lock names the owner. -/
theorem ends_owns {post : Except Error Bool → World Files → Prop}
    (hvalid : isValidId id = true →
      post (.ok (decide ((slotAt w.store (path root id)).owner? = some owner))) w)
    (hinvalid : isValidId id = false → post (.error (.invalidId id)) w) :
    (owns root id owner).Ends w post := by
  refine ends_bind (ends_attempt (ends_bind (ends_bind (Records.ends_checkId (fun hid => ?_) hinvalid))))
  have hvalid := hvalid hid
  rw [andThen_ok]
  refine ends_bind (ends_slot ?_)
  cases hslot : slotAt w.store (path root id) with
  | missing =>
    rw [hslot] at hvalid
    exact hvalid
  | unreadable reason =>
    rw [hslot] at hvalid
    exact hvalid
  | held r =>
    simp only [hslot, Slot.owner?, Option.some.injEq] at hvalid
    exact hvalid

/-- To look at the lock of a task changes nothing. -/
theorem ends_status {post : Except Error (Option LockInfo) → World Files → Prop} (h : ∀ r, post r w) :
    (status root id).Ends w post := by
  refine ends_bind (Records.ends_checkId (fun _ => ?_) fun _ => h _)
  rw [andThen_ok]
  refine ends_bind (ends_slot ?_)
  rw [andThen_ok]
  split
  · exact ends_pure (h _)
  · refine ends_bind (ends_now ?_)
    rw [andThen_ok]
    exact ends_pure (h _)
  · exact ends_throw (h _)

/-- The owner, and nobody else, removes the lock. -/
theorem ends_release {post : Except Error Bool → World Files → Prop} (hw : w.Steady)
    (hinvalid : isValidId id = false → post (.error (.invalidId id)) w)
    (hother : (slotAt w.store (path root id)).owner? ≠ some owner → post (.ok false) w)
    (howner : (slotAt w.store (path root id)).owner? = some owner → ∀ w',
      w.Becomes w' (Function.update w.store.text? (path root id).names none) → post (.ok true) w') :
    (release root id owner).Ends w post := by
  refine ends_bind (Records.ends_checkId (fun _ => ?_) hinvalid)
  refine ends_bind (ends_slot ?_)
  cases hslot : slotAt w.store (path root id) with
  | missing => exact ends_pure (hother (by simp [hslot, Slot.owner?]))
  | unreadable reason => exact ends_pure (hother (by simp [hslot, Slot.owner?]))
  | held r =>
    rw [andThen_ok]
    by_cases hr : r.owner = owner
    · simp only [if_pos hr]
      refine ends_remove hw (path root id) (fun hnone => ?_) fun _ _ w' hw' => ?_
      · obtain ⟨text, htext⟩ := exists_text_of_held hslot
        rw [hnone] at htext
        cases htext
      · exact howner (by simp [hslot, Slot.owner?, hr]) w' hw'
    · simp only [if_neg hr]
      exact ends_pure (hother (by simp [hslot, Slot.owner?, hr]))

/-- Whatever there is in its place, a lock that is removed by force is gone. -/
theorem ends_forceRelease {post : Except Error (Option LockRecord) → World Files → Prop} (hw : w.Steady)
    (hinvalid : isValidId id = false → post (.error (.invalidId id)) w)
    (hgone : ∀ r w', w.Becomes w' (Function.update w.store.text? (path root id).names none) →
      post (.ok r) w') :
    (forceRelease root id).Ends w post := by
  have hremoved : ∀ r, (orFail (remove (path root id)) >>= fun _ => pure r :
      Action (Option LockRecord)).Ends w post := by
    intro r
    refine ends_bind (ends_remove hw (path root id) (fun hnone => ?_) fun _ _ w' hw' => hgone r w' hw')
    refine hgone r w ⟨hw.continues_self, ?_⟩
    rw [← hnone, Function.update_eq_self]
  refine ends_bind (Records.ends_checkId (fun _ => ?_) hinvalid)
  refine ends_bind (ends_slot ?_)
  cases hslot : slotAt w.store (path root id) with
  | missing =>
    refine ends_pure (hgone none w ⟨hw.continues_self, ?_⟩)
    rw [← slotAt_eq_missing.mp hslot, Function.update_eq_self]
  | unreadable reason => exact hremoved none
  | held r => exact hremoved (some r)

/-- Where there is no lock, it is taken if what is asked for is allowed and the file can be
written. -/
theorem ends_acquire {timeout : Duration} {post : Except Error Bool → World Files → Prop}
    (hw : w.Steady) (hfree : w.store.text? (path root id).names = none) (herr : ∀ e, post (.error e) w)
    (htaken : ¬ (timeout ≤ .zero ∨ maxTimeout < timeout) → ∀ w',
      w.Becomes w' (Function.update w.store.text? (path root id).names
        (some (LockRecord.new id owner w.clock timeout).render)) → post (.ok true) w') :
    (acquire root id owner timeout).Ends w post := by
  rw [acquire_eq]
  split
  · exact ends_throw (herr _)
  · split
    · exact ends_throw (herr _)
    · split
      · exact ends_throw (herr _)
      · rename_i htimeout
        refine ends_bind (ends_now ?_)
        rw [andThen_ok, tryTake]
        refine ends_bind (ends_createNew hw _ _ (isPublic_path root id) (fun e _ => herr e)
          (fun old hold => ?_) fun _ w' hw' => ?_)
        · rw [hfree] at hold
          cases hold
        · rw [andThen_ok, if_pos rfl]
          exact ends_pure (htaken htimeout w' hw')

/-- A lock that is renewed is written anew, or nothing changes. -/
theorem ends_renew {post : Except Error Bool → World Files → Prop} (hw : w.Steady)
    (hsame : ∀ r w', w.Becomes w' w.store.text? → post r w')
    (hrenewed : ∀ text w', (w.store.text? (path root id).names).isSome = true →
      w.Becomes w' (Function.update w.store.text? (path root id).names (some text)) → post (.ok true) w') :
    (renew root id owner).Ends w post := by
  refine ends_bind (Records.ends_checkId (fun _ => ?_) fun _ => hsame _ w hw.becomes_self)
  rw [andThen_ok]
  refine ends_bind (ends_slot ?_)
  rw [andThen_ok]
  cases hslot : slotAt w.store (path root id) with
  | missing => exact ends_pure (hsame _ w hw.becomes_self)
  | unreadable reason => exact ends_pure (hsame _ w hw.becomes_self)
  | held r =>
    obtain ⟨text, htext⟩ := exists_text_of_held hslot
    by_cases hr : r.owner = owner
    · simp only [if_pos hr]
      refine ends_bind (ends_now ?_)
      rw [andThen_ok]
      refine ends_bind (ends_replace hw _ _ (isPublic_path root id) (fun e w' _ hw' => hsame _ w' hw')
        fun w' _ hw' => ?_)
      exact ends_pure (hrenewed _ w' (by rw [htext]; rfl) hw')
    · simp only [if_neg hr]
      exact ends_pure (hsame _ w hw.becomes_self)

end Workboard.Locks
