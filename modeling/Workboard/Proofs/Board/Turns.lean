import Workboard.Board.Edit
import Workboard.Board.Reconcile
import Workboard.Proofs.Board.Guarding
import Workboard.Proofs.Board.Recovery

/-!
# Operations one after the other

Operations take turns on a board, each at its own instant and with its own places that cannot
be written. An operation that takes or removes a lock also saves the task, and what fails in
between is undone or has not begun. Main statement: after every turn, a task that can be read is
locked exactly if it is active.
-/
namespace Workboard

/-- The fields that are not set by their names alone. -/
theorem Task.others_of_setField {t t' : Task} {field value : String} (h : t.setField field value = .ok t') :
    t' = { t with
      title := t'.title, priority := t'.priority, assignedTo := t'.assignedTo, waitingFor := t'.waitingFor
      body := t'.body, extra := t'.extra } := by
  unfold setField at h
  simp only at h
  repeat' split at h
  all_goals cases h
  all_goals rfl

namespace Board
open Workboard.Action
variable {b : Board} {w w₁ : World Files} {id owner : String} {t : Task}

/-- A task is moved and saved, or nothing changes. -/
theorem ends_advance (hw : w.Steady) {target : TaskState} {g : Guard}
    {post : Except Error Task → World Files → Prop}
    (herr : ∀ e w', w.Becomes w' w.store.text? → post (.error e) w')
    (hmoved : ∀ t' w', t.move target g w.clock = .ok t' → t'.id = t.id → t'.state = target →
      w.Becomes w' (Function.update w.store.text? (Records.path b.root t'.id).names
        (some (Record.render t'))) → post (.ok t') w') :
    (b.advance t target g).Ends w post := by
  refine ends_bind (ends_now ?_)
  rw [andThen_ok]
  refine ends_bind (ends_settle ?_)
  cases hmove : t.move target g w.clock with
  | error e => exact herr e w hw.becomes_self
  | ok t' =>
    obtain ⟨rfl, -⟩ := Task.exists_of_move_eq_ok hmove
    rw [andThen_ok]
    refine ends_bind (Records.ends_save hw (fun e w' _ hw' => herr e w' hw') fun w' _ _ hw' => ?_)
    exact ends_pure (hmoved _ w' hmove (Task.id_moved _ _ _ _) rfl hw')

/-- A task is started and saved, or nothing changes. -/
theorem ends_start (hw : w.Steady) {post : Except Error Task → World Files → Prop}
    (herr : ∀ e w', w.Becomes w' w.store.text? → post (.error e) w')
    (hstarted : ∀ t w', t.id = id → t.state = .active →
      w.Becomes w' (Function.update w.store.text? (Records.path b.root t.id).names
        (some (Record.render t))) → post (.ok t) w') :
    (b.start id owner).Ends w post := by
  rw [start_eq]
  refine ends_bind (Records.ends_load ?_)
  cases hload : Records.loadAt w.store b.root id with
  | error e => exact herr e w hw.becomes_self
  | ok t =>
    obtain ⟨-, _, -, hread⟩ := Records.loadAt_eq_ok.mp hload
    rw [andThen_ok]
    refine ends_bind (ends_now ?_)
    rw [andThen_ok]
    refine ends_bind (ends_settle ?_)
    cases hmove : t.move .active { lockHeld := true } w.clock with
    | error e => exact herr e w hw.becomes_self
    | ok moved =>
      obtain ⟨rfl, -⟩ := Task.exists_of_move_eq_ok hmove
      rw [andThen_ok]
      refine ends_bind (Records.ends_save hw (fun e w' _ hw' => herr e w' hw') fun w' _ _ hw' => ?_)
      exact ends_pure (hstarted (t.started owner w.clock) w'
        ((t.id_started owner w.clock).trans (Records.id_of_read hread)) rfl hw')

/-- Some owner is named for a lock that could not be taken, and nothing changes. -/
theorem ends_holderOf {post : Except Error String → World Files → Prop} (h : ∀ holder, post (.ok holder) w) :
    (b.holderOf id).Ends w post := by
  refine ends_bind (ends_attempt (Locks.ends_status fun r => ?_))
  rw [andThen_ok]
  split <;> exact ends_pure (h _)

/-- To save a task is to leave all locks as they are. -/
theorem slotAt_saved (hw₁ : w.Becomes w₁ (Function.update w.store.text? (Records.path b.root t.id).names
    (some (Record.render t)))) (id : String) :
    Locks.slotAt w₁.store (Locks.path b.root id) = Locks.slotAt w.store (Locks.path b.root id) :=
  Locks.slotAt_congr (by rw [hw₁.text, Function.update_of_ne (Records.names_path_ne_lock _ _ _).symm])

/-- A task that is active no longer loses its lock. -/
theorem ends_forceRelease_after (h : b.Guarded w.store.text?) (hid : isValidId t.id = true)
    (hidle : t.state ≠ .active) (hw₁ : w.Becomes w₁ (Function.update w.store.text?
      (Records.path b.root t.id).names (some (Record.render t)))) :
    (Locks.forceRelease b.root t.id).Ends w₁ fun _ w₂ => b.Guards w w₂ := by
  refine Locks.ends_forceRelease hw₁.steady (fun hno => absurd (hid.symm.trans hno) Bool.noConfusion)
    fun _ w₂ hw₂ => ⟨hw₁.toContinues.trans hw₂.toContinues, ?_⟩
  rw [hw₂.text, hw₁.text]
  exact h.put t (by simp [hidle])

section Operations
variable {α : Type} (hw : w.Steady) (h : b.Guarded w.store.text?)
include hw h

/-- A task that is loaded is filed under its own id. -/
theorem ends_loaded {f : Task → Action α}
    (hf : ∀ t, t.id = id → Records.loadAt w.store b.root t.id = .ok t → (f t).Ends w fun _ w' => b.Guards w w') :
    (Records.load b.root id >>= f).Ends w fun _ w' => b.Guards w w' := by
  refine ends_bind (Records.ends_load ?_)
  cases hload : Records.loadAt w.store b.root id with
  | error e => exact (h.minds_self hw).toGuards
  | ok t =>
    obtain ⟨-, _, -, hread⟩ := Records.loadAt_eq_ok.mp hload
    obtain rfl := Records.id_of_read hread
    exact hf t rfl hload

/-- What an owner may do with an own task, which is active. -/
theorem ends_owned {f : Task → Action α} {refusal : Action α} (hrefusal : ∃ r, refusal.run.runIn w = (r, w))
    (hf : ∀ t, t.id = id → Records.loadAt w.store b.root t.id = .ok t → t.state = .active →
      (Locks.slotAt w.store (Locks.path b.root t.id)).owner? = some owner →
      (f t).Ends w fun _ w' => b.Guards w w') :
    (Locks.owns b.root id owner >>= fun mine =>
      if mine then Records.load b.root id >>= f else refusal).Ends w fun _ w' => b.Guards w w' := by
  refine ends_bind (Locks.ends_owns (fun _ => ?_) fun _ => (h.minds_self hw).toGuards)
  rw [andThen_ok]
  split
  · rename_i howner
    have howner := of_decide_eq_true howner
    refine ends_loaded hw h fun t hid hload => ?_
    rw [← hid] at howner
    refine hf t hid hload ?_ howner
    rw [← h.locked_iff hload, HasLock]
    obtain ⟨r, hheld, -⟩ := Locks.Slot.owner?_eq_some.mp howner
    obtain ⟨text, htext⟩ := Locks.exists_text_of_held hheld
    rw [htext, Option.isSome_some]
  · obtain ⟨r, hrun⟩ := hrefusal
    exact ends_of_runIn hrun (h.minds_self hw).toGuards

theorem ends_spawn_guarding (parent : String) (n : NewTask) :
    (b.spawn parent n).Ends w fun _ w' => b.Guards w w' := by
  refine ends_loaded hw h fun p hid hload => ?_
  subst hid
  split
  · exact ends_throw (h.minds_self hw).toGuards
  · refine Ends.mono (ends_bind_of_trans (R := b.Minds) Minds.trans (ends_insert_minding hw h n (some p.id))
      fun child w₁ hw₁ => ends_bind (ends_now ?_)) fun _ _ hw' => hw'.toGuards
    have hlocked : b.HasLock w₁.store.text? p.id ↔ p.state = .active :=
      (hw₁.locked p.id).trans (h.locked_iff hload)
    rw [andThen_ok]
    exact ends_bind_of_trans Minds.trans
      (ends_save_minding (t := p.withChild child.id w₁.clock) hw₁.steady hw₁.guarded hlocked)
      fun _ _ hw₂ => ends_pure (hw₂.guarded.minds_self hw₂.steady)

/-- A task without a lock is moved to a state in which it is not active. -/
theorem ends_advance_guarding {target : TaskState} {g : Guard} (hload : Records.loadAt w.store b.root t.id = .ok t)
    (htarget : target ≠ .active)
    (hidle : ∀ t', t.move target g w.clock = .ok t' → t.state ≠ .active) :
    (b.advance t target g).Ends w fun _ w' => b.Guards w w' := by
  refine ends_advance hw (fun _ w₁ hw₁ => (h.minds_of_same hw₁).toGuards) fun t' w₁ hmove hid hstate hw₁ => ?_
  refine (h.minds_save (iff_of_false ?_ (hstate ▸ htarget)) hw₁).toGuards
  rw [hid, h.locked_iff hload]
  exact hidle t' hmove

theorem ends_promote_guarding (id : String) : (b.promote id).Ends w fun _ w' => b.Guards w w' := by
  refine ends_loaded hw h fun t _ hload => ?_
  split
  · rename_i hshelf
    refine ends_advance_guarding hw h hload TaskState.noConfusion fun _ _ hactive => ?_
    rw [hactive] at hshelf
    cases hshelf
  · exact ends_throw (h.minds_self hw).toGuards

theorem ends_defer_guarding (id : String) (target : TaskState) :
    (b.defer id target).Ends w fun _ w' => b.Guards w w' := by
  unfold defer
  split
  · rename_i hshelf
    refine ends_loaded hw h fun t _ hload => ?_
    refine ends_advance_guarding hw h hload ?_ fun t' hmove => Task.not_active_of_move_shelf hmove hshelf
    rintro rfl
    cases hshelf
  · exact ends_throw (h.minds_self hw).toGuards

theorem ends_cancel_guarding (id : String) : (b.cancel id).Ends w fun _ w' => b.Guards w w' := by
  refine ends_loaded hw h fun t hid hload => ?_
  obtain ⟨hvalid, -⟩ := Records.loadAt_eq_ok.mp hload
  refine ends_bind (ends_advance hw (fun _ w₁ hw₁ => (h.minds_of_same hw₁).toGuards)
    fun t' w₁ _ hsame hstate hw₁ => ?_)
  rw [andThen_ok, ← hid, ← hsame]
  exact ends_bind ((ends_forceRelease_after h (hsame ▸ hvalid) (by simp [hstate]) hw₁).mono
    fun r w₂ hw₂ => by cases r <;> exact hw₂)

theorem ends_heartbeat_guarding (id owner : String) :
    (b.heartbeat id owner).Ends w fun _ w' => b.Guards w w' := by
  have hends : (Locks.renew b.root id owner).Ends w fun _ w' => b.Guards w w' := by
    refine Locks.ends_renew hw (fun _ w₁ hw₁ => (h.minds_of_same hw₁).toGuards) fun text w₁ hsome hw₁ => ?_
    refine ⟨hw₁.toContinues, h.congr (fun id' => ?_) fun id' => ?_⟩
    · rw [hw₁.text, Function.update_of_ne (Records.names_path_ne_lock _ _ _)]
    · rw [hw₁.text, HasLock]
      by_cases hid : id' = id
      · rw [hid, Function.update_self, HasLock, hsome, Option.isSome_some]
      · rw [Function.update_of_ne fun heq => hid (Records.eq_of_names_lock_path heq), HasLock]
  refine ends_bind (hends.mono fun r w₁ hw₁ => ?_)
  cases r with
  | error e => exact hw₁
  | ok mine => cases mine <;> exact hw₁

/-- An own task is moved to a state in which it is not active; its owner can then release it. -/
theorem ends_advance_owned {target : TaskState} {g : Guard} {f : Task → Action α}
    (hload : Records.loadAt w.store b.root t.id = .ok t)
    (howner : (Locks.slotAt w.store (Locks.path b.root t.id)).owner? = some owner)
    (htarget : target ≠ .active)
    (hf : ∀ t' w₁, (Locks.release b.root t.id owner).Ends w₁ (fun r w₂ => r = .ok true ∧ b.Guards w w₂) →
      (f t').Ends w₁ fun _ w' => b.Guards w w') :
    (b.advance t target g >>= f).Ends w fun _ w' => b.Guards w w' := by
  obtain ⟨hvalid, -⟩ := Records.loadAt_eq_ok.mp hload
  refine ends_bind (ends_advance hw (fun _ w₁ hw₁ => (h.minds_of_same hw₁).toGuards)
    fun t' w₁ _ hid hstate hw₁ => hf t' w₁ ?_)
  refine Locks.ends_release hw₁.steady (fun hno => absurd (hvalid.symm.trans hno) Bool.noConfusion)
    (fun hno => absurd (slotAt_saved hw₁ t.id ▸ howner) hno)
    fun _ w₂ hw₂ => ⟨rfl, hw₁.toContinues.trans hw₂.toContinues, ?_⟩
  rw [hw₂.text, hw₁.text, ← hid]
  exact h.put t' (by simp [hstate, htarget])

theorem ends_release_guarding (id owner : String) :
    (b.release id owner).Ends w fun _ w' => b.Guards w w' := by
  refine ends_owned hw h ⟨_, rfl⟩ fun t hid hload hactive howner => ?_
  subst hid
  simp only [if_pos hactive]
  exact ends_advance_owned hw h hload howner TaskState.noConfusion
    fun _ _ hrelease => hrelease.mono fun _ _ hw₂ => hw₂.2

theorem ends_block_guarding (id owner waitingFor : String) :
    (b.block id owner waitingFor).Ends w fun _ w' => b.Guards w w' := by
  refine ends_owned hw h ⟨_, rfl⟩ fun t hid hload _ howner => ?_
  subst hid
  refine ends_advance_owned hw h hload howner TaskState.noConfusion
    fun _ _ hrelease => ends_bind (hrelease.mono ?_)
  rintro r w₂ ⟨rfl, hw₂⟩
  exact hw₂

theorem ends_complete_guarding (id owner : String) :
    (b.complete id owner).Ends w fun _ w' => b.Guards w w' := by
  refine ends_owned hw h ⟨_, rfl⟩ fun t hid hload _ howner => ?_
  subst hid
  refine ends_advance_owned hw h hload howner TaskState.noConfusion
    fun _ _ hrelease => ends_bind (ends_attempt (hrelease.mono ?_))
  rintro r w₂ ⟨rfl, hw₂⟩
  exact (ends_unblockDependents_minding hw₂.steady hw₂.guarded t.id).mono
    fun r w₃ hw₃ => hw₂.trans hw₃.toGuards

/-- The lock of a task in todo is taken before the task is started; if it is not started, the
lock is released again. -/
theorem ends_claim_guarding (htime : w.clock.IsTime) (hrange : w.clock.inRange = true)
    (hexpires : (w.clock.add? b.settings.lockTimeout).isSome = true) (id owner : String) :
    (b.claim id owner).Ends w fun _ w' => b.Guards w w' := by
  have hsame : b.Guards w w := (h.minds_self hw).toGuards
  rw [claim_eq]
  refine ends_loaded hw h fun t hid hload => ?_
  subst hid
  obtain ⟨hvalid, -⟩ := Records.loadAt_eq_ok.mp hload
  split
  · exact ends_throw hsame
  rename_i htodo
  have hfree : w.store.text? (Locks.path b.root t.id).names = none := by
    have hunlocked : ¬ b.HasLock w.store.text? t.id := by
      rw [h.locked_iff hload, not_not.mp htodo]
      exact TaskState.noConfusion
    exact Option.not_isSome_iff_eq_none.mp hunlocked
  refine ends_bind (Records.ends_scan ?_)
  rw [andThen_ok]
  split
  · exact ends_throw hsame
  refine ends_bind (Locks.ends_owns (fun _ => ?_) fun _ => hsame)
  rw [andThen_ok, Locks.slotAt_eq_missing.mpr hfree]
  refine ends_bind (Locks.ends_acquire hw hfree (fun _ => hsame) fun hallowed w₁ hw₁ => ?_)
  obtain ⟨ms, hms, htimeout⟩ := Settings.exists_millis_lockTimeout hallowed
  obtain ⟨hours, -, hheld⟩ := (LockRecord.isSound_new hms t.id owner htime hrange
    (htimeout ▸ hexpires)).ofText_render
  rw [← htimeout] at hheld
  rw [andThen_ok, if_pos rfl]
  refine ends_bind (ends_attempt (ends_start hw₁.steady (fun e w₂ hw₂ => ?_) fun t' w₂ hid hactive hw₂ => ?_))
  · -- the owner releases the new lock, and all is as before
    have hslot : (Locks.slotAt w₂.store (Locks.path b.root t.id)).owner? = some owner := by
      rw [Locks.slotAt_of_text? (by rw [hw₂.text, hw₁.text, Function.update_self]), hheld]
      rfl
    rw [andThen_ok]
    simp only [Locks.Slot.owner?, reduceCtorEq, decide_false, Bool.false_eq_true, if_false]
    refine ends_bind (ends_attempt (Locks.ends_release hw₂.steady
      (fun hno => absurd (hvalid.symm.trans hno) Bool.noConfusion) (fun hno => absurd hslot hno)
      fun _ w₃ hw₃ => ?_))
    rw [andThen_ok]
    refine ends_throw (h.minds_of_same
      ⟨hw₁.toContinues.trans (hw₂.toContinues.trans hw₃.toContinues), ?_⟩).toGuards
    rw [hw₃.text, hw₂.text, hw₁.text, Function.update_idem, ← hfree, Function.update_eq_self]
  · rw [andThen_ok]
    refine ends_pure ⟨hw₁.toContinues.trans hw₂.toContinues, ?_⟩
    rw [hw₂.text, hw₁.text, Function.update_comm (Records.names_path_ne_lock _ _ _).symm, ← hid]
    exact h.put t' (by simp [hactive])

theorem ends_claimNext_guarding (htime : w.clock.IsTime) (hrange : w.clock.inRange = true)
    (hexpires : (w.clock.add? b.settings.lockTimeout).isSome = true) (owner : String) :
    (b.claimNext owner).Ends w fun _ w' => b.Guards w w' := by
  have hfirst : ∀ ids, ∀ v, b.Guards w v → (b.claimFirst owner ids).Ends v fun _ w' => b.Guards v w' := by
    intro ids
    induction ids with
    | nil => exact fun v hv => (hv.guarded.minds_self hv.steady).toGuards
    | cons id ids ih =>
      intro v hv
      have hclaim := ends_claim_guarding hv.steady hv.guarded (hv.clock ▸ htime) (hv.clock ▸ hrange)
        (hv.clock ▸ hexpires) id owner
      refine ends_bind_of_trans Guards.trans (ends_attempt hclaim) fun r u hu => ?_
      have hself : b.Guards u u := (hu.guarded.minds_self hu.steady).toGuards
      split
      · exact ends_pure hself
      · exact ih u (hv.trans hu)
      · exact ih u (hv.trans hu)
      · exact ends_throw hself
  refine ends_bind (Records.ends_scan ?_)
  exact hfirst _ w (h.minds_self hw).toGuards

/-- The state is set; the lock of a task that leaves active is removed next. -/
theorem ends_editState_guarding (hload : Records.loadAt w.store b.root t.id = .ok t) (now : Instant)
    (word : String) : (b.editState t now word).Ends w fun _ w' => b.Guards w w' := by
  have hsame : b.Guards w w := (h.minds_self hw).toGuards
  obtain ⟨hvalid, -⟩ := Records.loadAt_eq_ok.mp hload
  unfold editState
  split
  · exact ends_throw hsame
  · exact ends_cancel_guarding hw h t.id
  rename_i target _ _
  refine ends_bind (ends_settle ?_)
  cases hmove : t.move target { waitingFor := t.waitingFor } now with
  | error e => exact hsame
  | ok moved =>
    have hidle := Task.not_active_of_move hmove rfl
    have hid : moved.id = t.id := by
      obtain ⟨rfl, -⟩ := Task.exists_of_move_eq_ok hmove
      exact Task.id_moved _ _ _ _
    rw [andThen_ok]
    refine ends_bind (Records.ends_save hw (fun e w₁ _ hw₁ => (h.minds_of_same hw₁).toGuards)
      fun w₁ _ _ hw₁ => ?_)
    -- once the lock is right, the dependents go on
    have hrest : ∀ w₂, b.Guards w w₂ → Ends (if moved.state = .done then
          Records.scan b.root >>= fun all => b.saveEach (all.cascade t.id now) >>= fun _ => pure moved
        else pure moved) w₂ fun _ w' => b.Guards w w' := by
      intro w₂ hw₂
      split
      · refine ends_bind (ends_scan_minding hw₂.guarded fun all hall => ?_)
        rw [andThen_ok]
        exact ends_bind ((ends_cascade_minding hw₂.steady hw₂.guarded hall t.id now).mono
          fun r w₃ hw₃ => by cases r <;> exact hw₂.trans hw₃.toGuards)
      · exact ends_pure hw₂
    rw [andThen_ok]
    by_cases hactive : t.state = .active
    · simp only [if_pos hactive]
      have hvalid' : isValidId moved.id = true := hid ▸ hvalid
      rw [← hid]
      refine ends_bind ((ends_forceRelease_after h hvalid' hidle hw₁).mono fun r w₂ hw₂ => ?_)
      cases r with
      | ok _ => exact hid ▸ hrest w₂ hw₂
      | error e => exact hw₂
    · simp only [if_neg hactive]
      have hunlocked : ¬ b.HasLock w.store.text? moved.id := by
        rw [hid, h.locked_iff hload]
        exact hactive
      exact hrest w₁ (h.minds_save (iff_of_false hunlocked hidle) hw₁).toGuards

theorem ends_editRequires_guarding (hload : Records.loadAt w.store b.root t.id = .ok t) (now : Instant)
    (text : String) : (b.editRequires t now text).Ends w fun _ w' => b.Guards w w' := by
  have hsame : b.Guards w w := (h.minds_self hw).toGuards
  refine ends_bind (ends_settle ?_)
  cases requirementsOf t.id (idsOfText text) with
  | error e => exact hsame
  | ok requires =>
    rw [andThen_ok]
    refine ends_bind (Records.ends_scan ?_)
    rw [andThen_ok]
    split
    · exact ends_throw hsame
    · have hlocked : b.HasLock w.store.text? t.id ↔ t.state = .active := h.locked_iff hload
      refine Ends.mono (ends_bind_of_trans (R := b.Minds) Minds.trans
        (ends_save_minding (t := ({ t with requires } : Task).touch now) hw h hlocked) fun _ w₁ hw₁ => ?_)
        fun _ _ hw' => hw'.toGuards
      exact ends_bind_of_trans Minds.trans (ends_link_minding hw₁.steady hw₁.guarded _ _ _)
        fun _ _ hw₂ => ends_pure (hw₂.guarded.minds_self hw₂.steady)

theorem ends_edit_guarding (id field value : String) :
    (b.edit id field value).Ends w fun _ w' => b.Guards w w' := by
  have hsame : b.Guards w w := (h.minds_self hw).toGuards
  refine ends_loaded hw h fun t hid hload => ends_bind (ends_now ?_)
  subst hid
  rw [andThen_ok]
  split
  · exact ends_throw hsame
  split
  · exact ends_editState_guarding hw h hload w.clock _
  split
  · exact ends_editRequires_guarding hw h hload w.clock _
  refine ends_bind (ends_settle ?_)
  cases hset : t.setField field value with
  | error e => exact hsame
  | ok t' =>
    obtain ⟨hid, hstate⟩ : t'.id = t.id ∧ t'.state = t.state := by
      rw [Task.others_of_setField hset]
      exact ⟨rfl, rfl⟩
    have hlocked : b.HasLock w.store.text? t'.id ↔ t'.state = .active := by
      rw [hid, hstate]
      exact h.locked_iff hload
    rw [andThen_ok]
    refine Ends.mono (ends_bind_of_trans (R := b.Minds) Minds.trans
      (ends_save_minding (t := t'.touch w.clock) hw h hlocked) fun _ w₁ hw₁ => ?_) fun _ _ hw' => hw'.toGuards
    exact ends_pure (hw₁.guarded.minds_self hw₁.steady)

end Operations

/-- What a board can be asked to do that may change its files. -/
inductive Operation where
  | create (n : NewTask)
  | spawn (parent : String) (n : NewTask)
  | edit (id field value : String)
  | claim (id owner : String)
  | claimNext (owner : String)
  | heartbeat (id owner : String)
  | release (id owner : String)
  | block (id owner waitingFor : String)
  | complete (id owner : String)
  | cancel (id : String)
  | promote (id : String)
  | defer (id : String) (target : TaskState)
  | reconcile

/-- The world that an operation leaves, whatever its answer is. -/
def Operation.perform (b : Board) (w : World Files) : Operation → World Files
  | create n => ((b.create n).run.runIn w).2
  | spawn parent n => ((b.spawn parent n).run.runIn w).2
  | edit id field value => ((b.edit id field value).run.runIn w).2
  | claim id owner => ((b.claim id owner).run.runIn w).2
  | claimNext owner => ((b.claimNext owner).run.runIn w).2
  | heartbeat id owner => ((b.heartbeat id owner).run.runIn w).2
  | release id owner => ((b.release id owner).run.runIn w).2
  | block id owner waitingFor => ((b.block id owner waitingFor).run.runIn w).2
  | complete id owner => ((b.complete id owner).run.runIn w).2
  | cancel id => ((b.cancel id).run.runIn w).2
  | promote id => ((b.promote id).run.runIn w).2
  | defer id target => ((b.defer id target).run.runIn w).2
  | reconcile => (b.reconcile.run.runIn w).2

/-- An operation, the instant at which it is performed, and the places that cannot be written
then. -/
structure Turn where
  now : Instant
  refusing : List (List String) := []
  operation : Operation

/-- The world that a turn leaves. -/
def Turn.perform (b : Board) (w : World Files) (turn : Turn) : World Files :=
  turn.operation.perform b { w.refuse turn.refusing with clock := turn.now }

/-- The instant can be shown, and a lock that is taken then has an instant to expire at. -/
structure Turn.Timely (b : Board) (turn : Turn) : Prop where
  isTime : turn.now.IsTime
  inRange : turn.now.inRange = true
  expires : (turn.now.add? b.settings.lockTimeout).isSome = true

/-- The world after turns, one after the other. -/
def afterTurns (b : Board) (w : World Files) (turns : List Turn) : World Files :=
  turns.foldl (Turn.perform b) w

/-- No turn leaves an active task without a lock, or a lock without an active task. -/
theorem Turn.Timely.guards {turn : Turn} (hturn : turn.Timely b) (hw : w.Steady)
    (h : b.Guarded w.store.text?) :
    (turn.perform b w).Steady ∧ b.Guarded (turn.perform b w).store.text? := by
  have hw' : World.Steady { w.refuse turn.refusing with clock := turn.now } :=
    ⟨hw.proper, hw.unused⟩
  have h' : b.Guarded (World.store { w.refuse turn.refusing with clock := turn.now }).text? := h
  suffices hguards : b.Guards { w.refuse turn.refusing with clock := turn.now } (turn.perform b w) from
    ⟨hguards.steady, hguards.guarded⟩
  unfold Turn.perform
  cases turn.operation with
  | create n => exact (ends_insert_minding hw' h' n none).toGuards
  | spawn parent n => exact ends_spawn_guarding hw' h' parent n
  | edit id field value => exact ends_edit_guarding hw' h' id field value
  | claim id owner => exact ends_claim_guarding hw' h' hturn.isTime hturn.inRange hturn.expires id owner
  | claimNext owner => exact ends_claimNext_guarding hw' h' hturn.isTime hturn.inRange hturn.expires owner
  | heartbeat id owner => exact ends_heartbeat_guarding hw' h' id owner
  | release id owner => exact ends_release_guarding hw' h' id owner
  | block id owner waitingFor => exact ends_block_guarding hw' h' id owner waitingFor
  | complete id owner => exact ends_complete_guarding hw' h' id owner
  | cancel id => exact ends_cancel_guarding hw' h' id
  | promote id => exact ends_promote_guarding hw' h' id
  | defer id target => exact ends_defer_guarding hw' h' id target
  | reconcile => exact (ends_reconcile_minding hw' h').toGuards

theorem guarded_afterTurns (hw : w.Steady) (h : b.Guarded w.store.text?) {turns : List Turn}
    (hturns : ∀ turn ∈ turns, turn.Timely b) : b.Guarded (b.afterTurns w turns).store.text? := by
  induction turns generalizing w with
  | nil => exact h
  | cons turn turns ih =>
    obtain ⟨hw₁, h₁⟩ := (hturns turn List.mem_cons_self).guards hw h
    exact ih hw₁ h₁ fun other ho => hturns other (List.mem_cons_of_mem _ ho)

/-- After any turns on an empty board, a task that can be read has a lock file exactly if it is
active. -/
theorem locked_iff_active (b : Board) {w : World Files} (hempty : w.store.entries = [])
    {turns : List Turn} (hturns : ∀ turn ∈ turns, turn.Timely b) {id : String} {t : Task}
    (hload : Records.loadAt (b.afterTurns w turns).store b.root id = .ok t) :
    ((b.afterTurns w turns).store.text? (Locks.path b.root id).names).isSome = true ↔
      t.state = .active := by
  have hnone : ∀ names, w.store.text? names = none := fun names => by
    rw [Files.text?, hempty, List.lookup_nil]
  have hw : w.Steady := ⟨by simp [Files.Proper, hempty], fun _ names _ _ => hnone names⟩
  have hbegin : b.Guarded w.store.text? := by
    refine ⟨fun id content hcontent => ?_, fun id hlocked => ?_⟩
    · rw [hnone] at hcontent
      cases hcontent
    · rw [HasLock, hnone] at hlocked
      cases hlocked
  exact (guarded_afterTurns hw hbegin hturns).locked_iff hload

section Retried

/-- A task is created, claimed in vain since its record cannot be written, and claimed again. -/
def retried : List Turn := [
  ⟨Lone.begun, [], .create { id := some "a", title := "A" }⟩,
  ⟨Lone.begun, [(Records.path Lone.board.root "a").names], .claim "a" "x"⟩,
  ⟨Lone.begun, [], .claim "a" "x"⟩]

/-- The task as it is read in the end. -/
def retriedTask : Task := {
  id := "a"
  title := "A"
  state := .active
  assignedTo := some "x"
  createdAt := Lone.begun
  updatedAt := Lone.begun }

theorem locked_iff_active_retried :
    let w := Lone.board.afterTurns ⟨⟨[], []⟩, Lone.begun, 0, 4, 0⟩ retried
    Records.loadAt w.store Lone.board.root "a" = .ok retriedTask ∧
      (w.store.text? (Locks.path Lone.board.root "a").names).isSome = true := by
  have hturns : ∀ turn ∈ retried, turn.Timely Lone.board := by
    have htime : Lone.begun.IsTime := ⟨by decide, by decide⟩
    have hexpires : (Lone.begun.add? Lone.board.settings.lockTimeout).isSome = true := by decide +kernel
    intro turn hturn
    obtain rfl | rfl | rfl : turn = _ ∨ turn = _ ∨ turn = _ := by simpa [retried] using hturn
    all_goals exact ⟨htime, by decide +kernel, hexpires⟩
  have hload : Records.loadAt (Lone.board.afterTurns ⟨⟨[], []⟩, Lone.begun, 0, 4, 0⟩ retried).store
      Lone.board.root "a" = .ok retriedTask := by decide +kernel
  exact ⟨hload, (locked_iff_active Lone.board rfl hturns hload).mpr rfl⟩

end Retried

end Board

end Workboard
