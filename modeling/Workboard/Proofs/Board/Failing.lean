import Workboard.Proofs.Board.Whole

/-!
# What failed operations leave

An operation on one task changes nothing if it fails. A claim takes the lock before it saves the
task, and gives the lock back if the task cannot be saved, unless the owner had it before. Main
statements: whatever cannot be written, a failed operation leaves all records as they were and no
new file, and a failed claim leaves no lock that its owner did not have. The exception is a task
that is split off: once it is inserted it stays, also if its parent cannot be saved.
-/
namespace Workboard

namespace Action
variable {α : Type} {shows : Instant → Prop}

/-- The action without its result. -/
def forget (a : Action α) : Action Unit := a >>= fun _ => pure ()

theorem Whole.forget {a : Action α} (ha : a.Whole shows) : a.forget.Whole shows :=
  ha.bind_sure fun _ _ _ _ => sure_pure ()

end Action

namespace Locks
open Workboard.Action
variable {shows : Instant → Prop} {f g : Files} {root : Path} {id owner : String}

theorem reaches_owns_ok {held : Bool} (hid : isValidId id = true)
    (h : (owns root id owner).Reaches shows f (.ok held) g) :
    g = f ∧ (held = true ↔ (slotAt f (path root id)).owner? = some owner) := by
  refine ⟨(quiet_owns root id owner).eq_of_reaches h, ?_⟩
  obtain ⟨_, -, heq⟩ | ⟨r, f₁, hlook, hrest⟩ := reaches_bind.mp h
  · cases heq
  obtain ⟨_, hlook, heq⟩ := reaches_attempt.mp hlook
  obtain rfl := Except.ok.inj heq
  rw [← reaches_isHeldBy hid hlook]
  cases r with
  | ok b =>
    obtain rfl := Except.ok.inj hrest.1
    simp
  | error e =>
    cases e with
    | corrupt _ _ =>
      obtain rfl := Except.ok.inj hrest.1
      simp
    | _ => cases hrest.1

/-- The owner removes the own lock. -/
theorem reaches_release_own {r : Except Error Bool} (hid : isValidId id = true)
    (howner : (slotAt f (path root id)).owner? = some owner)
    (h : (release root id owner).Reaches shows f r g) : g = f.erase (path root id).names := by
  obtain ⟨record, hheld, hown⟩ := Slot.owner?_eq_some.mp howner
  obtain ⟨text, htext⟩ := exists_text_of_held hheld
  obtain ⟨e, hcheck, -⟩ | ⟨_, f₁, hcheck, hlook⟩ := reaches_bind.mp h
  · exact absurd hcheck (Records.sure_checkId hid _ _ _)
  obtain ⟨rfl, -⟩ := reaches_checkId hcheck
  obtain ⟨e, hslot, -⟩ | ⟨s, f₂, hslot, hremove⟩ := reaches_bind.mp hlook
  · exact absurd hslot (sure_slot _ _ _ _)
  obtain ⟨heq, rfl⟩ := reaches_slot hslot
  obtain rfl := Except.ok.inj heq
  simp only [hheld, if_pos hown] at hremove
  obtain ⟨-, -, hnone⟩ | ⟨-, rfl⟩ := reaches_remove hremove
  · rw [htext] at hnone
    cases hnone
  · rfl

end Locks

namespace Board
open Workboard.Action
variable {shows : Instant → Prop} {b : Board} {f g : Files} {id owner : String}

/-- The operations on one task that take no lock and split nothing off. -/
def Operation.isWhole : Operation → Bool
  | .spawn .. => false
  | .claim .. => false
  | .claimNext .. => false
  | .reconcile => false
  | _ => true

/-- An operation as an action, without its result. -/
def Operation.action (b : Board) : Operation → Action Unit
  | .create n => (b.create n).forget
  | .spawn parent n => (b.spawn parent n).forget
  | .edit id field value => (b.edit id field value).forget
  | .claim id owner => (b.claim id owner).forget
  | .claimNext owner => (b.claimNext owner).forget
  | .heartbeat id owner => b.heartbeat id owner
  | .release id owner => (b.release id owner).forget
  | .block id owner waitingFor => (b.block id owner waitingFor).forget
  | .complete id owner => (b.complete id owner).forget
  | .cancel id => (b.cancel id).forget
  | .promote id => (b.promote id).forget
  | .defer id target => (b.defer id target).forget
  | .reconcile => b.reconcile.forget

theorem Operation.whole_action {op : Operation} (h : op.isWhole = true) : (op.action b).Whole shows := by
  cases op with
  | create n => exact (whole_insert n none).forget
  | edit id field value => exact (whole_edit id field value).forget
  | heartbeat id owner => exact whole_heartbeat id owner
  | release id owner => exact (whole_release id owner).forget
  | block id owner waitingFor => exact (whole_block id owner waitingFor).forget
  | complete id owner => exact (whole_complete id owner).forget
  | cancel id => exact (whole_cancel id).forget
  | promote id => exact (whole_promote id).forget
  | defer id target => exact (whole_defer id target).forget
  | spawn parent n => cases h
  | claim id owner => cases h
  | claimNext owner => cases h
  | reconcile => cases h

/-- The instant is one of the supported years, and so is the one at which a lock that is taken
then becomes stale. -/
structure Timely (b : Board) (now : Instant) : Prop where
  isTime : now.IsTime
  inRange : now.inRange = true
  expires : (now.add? b.settings.lockTimeout).isSome = true

theorem Timely.lasts {now : Instant} (h : b.Timely now) (hasked : b.settings.lockTimeout.MayBeAsked) :
    b.settings.lockTimeout.Lasts now := by
  obtain ⟨ms, hallowed, heq⟩ := Settings.exists_millis_lockTimeout hasked
  have hexpires := h.expires
  rw [heq] at hexpires ⊢
  rw [Duration.Lasts, Duration.millis_ofMillis]
  exact ⟨by exact_mod_cast hallowed.1, hexpires⟩

theorem whole_start (id owner : String) : (b.start id owner).Whole shows := by
  rw [start_eq]
  exact Records.whole_load_bind fun t _ _ => quiet_now.whole_bind fun _ _ _ =>
    whole_settle_bind fun _ _ => (Records.whole_save _).bind_sure fun _ _ _ _ => sure_pure _

theorem quiet_holderOf (id : String) : Quiet (b.holderOf id) := by
  refine (Locks.quiet_status b.root id).attempt.bind fun r => ?_
  rcases r with e | info?
  · exact quiet_pure _
  · cases info? <;> exact quiet_pure _

/-- What a claim does once it has taken the lock. -/
def startOrGiveBack (b : Board) (id owner : String) (heldBefore : Bool) : Action Task :=
  attempt (b.start id owner) >>= fun r =>
    match r with
    | .ok t => pure t
    | .error e =>
      if heldBefore then throw e else attempt (Locks.release b.root id owner) >>= fun _ => throw e

/-- If the task cannot be started, a lock that was taken for it is given back. -/
theorem reaches_startOrGiveBack {heldBefore : Bool} {e : Error} (hid : isValidId id = true)
    (howner : heldBefore = false → (Locks.slotAt f (Locks.path b.root id)).owner? = some owner)
    (h : (b.startOrGiveBack id owner heldBefore).Reaches shows f (.error e) g) :
    f.KeptBut [(Locks.path b.root id).names] g ∧
      (heldBefore = false → g.text? (Locks.path b.root id).names = none) := by
  obtain ⟨_, hstart, -⟩ | ⟨r, f₁, hstart, hrest⟩ := reaches_bind.mp h
  · exact absurd hstart (sure_attempt _ _ _ _)
  obtain ⟨_, hstart, heq⟩ := reaches_attempt.mp hstart
  obtain rfl := Except.ok.inj heq
  cases r with
  | ok t => cases hrest.1
  | error e' =>
    have hkept := whole_start id owner f e' f₁ hstart
    cases heldBefore with
    | true =>
      obtain ⟨-, rfl⟩ := hrest
      exact ⟨hkept.keptBut _, Bool.noConfusion⟩
    | false =>
      obtain ⟨_, hrelease, -⟩ | ⟨_, f₂, hrelease, -, rfl⟩ := reaches_bind.mp hrest
      · exact absurd hrelease (sure_attempt _ _ _ _)
      obtain ⟨_, hrelease, -⟩ := reaches_attempt.mp hrelease
      have hlock := hkept.text _ List.not_mem_nil (Locks.isPublic_path b.root id)
      have howner := howner rfl
      rw [← Locks.slotAt_congr hlock] at howner
      obtain rfl := Locks.reaches_release_own hid howner hrelease
      exact ⟨(hkept.keptBut _).trans (f₁.keptBut_erase _), fun _ => by simp⟩

/-- Outside the lock of the task all is as before; the lock is as before, or gone, or it was the
owner's already. -/
def LeavesAtMost (b : Board) (id owner : String) (f g : Files) : Prop :=
  f.KeptBut [(Locks.path b.root id).names] g ∧
    (g.text? (Locks.path b.root id).names = f.text? (Locks.path b.root id).names ∨
      g.text? (Locks.path b.root id).names = none ∨
        (Locks.slotAt f (Locks.path b.root id)).owner? = some owner)

theorem leavesAtMost_of_kept (h : f.Kept g) : b.LeavesAtMost id owner f g :=
  ⟨h.keptBut _, .inl (h.text _ List.not_mem_nil (Locks.isPublic_path b.root id))⟩

/-- A claim that fails has at most touched the lock of its owner. -/
theorem leavesAtMost_of_claim {e : Error} (h : (b.claim id owner).Reaches b.Timely f (.error e) g) :
    b.LeavesAtMost id owner f g := by
  rw [claim_eq] at h
  obtain ⟨_, hload, -⟩ | ⟨t, f₁, hload, hchecked⟩ := reaches_bind.mp h
  all_goals obtain rfl := (Records.quiet_load b.root id).eq_of_reaches hload
  · exact leavesAtMost_of_kept (.refl _ _)
  obtain ⟨hid, -⟩ := Records.reaches_load_ok hload
  split at hchecked
  · rw [hchecked.2]
    exact leavesAtMost_of_kept (.refl _ _)
  obtain ⟨_, hscan, -⟩ | ⟨all, f₂, hscan, hscanned⟩ := reaches_bind.mp hchecked
  all_goals obtain rfl := (Records.quiet_scan b.root).eq_of_reaches hscan
  · exact leavesAtMost_of_kept (.refl _ _)
  split at hscanned
  · rw [hscanned.2]
    exact leavesAtMost_of_kept (.refl _ _)
  obtain ⟨_, howns, -⟩ | ⟨heldBefore, f₃, howns, hlocking⟩ := reaches_bind.mp hscanned
  · rw [(Locks.quiet_owns b.root id owner).eq_of_reaches howns]
    exact leavesAtMost_of_kept (.refl _ _)
  obtain ⟨rfl, hheld⟩ := Locks.reaches_owns_ok hid howns
  obtain ⟨_, hacquire, -⟩ | ⟨taken, f₄, hacquire, hrest⟩ := reaches_bind.mp hlocking
  · obtain ⟨_, -, hkept⟩ | ⟨_, _, -, -, -, heq, -⟩ := Locks.reaches_acquire hacquire
    · exact leavesAtMost_of_kept hkept
    · cases heq
  obtain ⟨_, heq, -⟩ | ⟨now, _, hnow, -, hasked, heq, htry⟩ := Locks.reaches_acquire hacquire
  · cases heq
  obtain rfl := Except.ok.inj heq
  -- the record that was written can be read, since its timeout lasts
  have hrecord : (LockRecord.new id owner now b.settings.lockTimeout).IsAsked b.settings.lockTimeout :=
    ⟨hasked, rfl, ⟨hnow.isTime, hnow.inRange⟩, ⟨hnow.isTime, hnow.inRange⟩⟩
  obtain ⟨hours, -, hread⟩ := (hrecord.isSound (hnow.lasts hasked)).ofText_render
  cases taken with
  | false =>
    obtain ⟨_, hholder, -⟩ | ⟨_, f₅, hholder, -, rfl⟩ := reaches_bind.mp hrest
    all_goals obtain rfl := (quiet_holderOf id).eq_of_reaches hholder
    all_goals
      cases htry with
      | inTheWay => exact leavesAtMost_of_kept (.refl _ _)
      | written _ _ htold => exact absurd hread (htold rfl hours)
  | true =>
    cases htry with
    | written hkept htext _ =>
      have howner : (Locks.slotAt f₄ (Locks.path b.root id)).owner? = some owner := by
        rw [Locks.slotAt_of_text? htext, hread]
        rfl
      obtain ⟨hkept', hgone⟩ := reaches_startOrGiveBack hid (fun _ => howner) hrest
      refine ⟨hkept.trans hkept', .inr ?_⟩
      cases heldBefore with
      | true => exact .inr (hheld.mp rfl)
      | false => exact .inl (hgone rfl)
    | again hcurrent hown hkept htext =>
      have hbefore : (Locks.slotAt f₃ (Locks.path b.root id)).owner? = some owner :=
        Locks.Slot.owner?_eq_some.mpr ⟨_, hcurrent, hown⟩
      obtain rfl : heldBefore = true := hheld.mpr hbefore
      have hrest : (b.startOrGiveBack id owner true).Reaches b.Timely f₄ (.error e) g := hrest
      obtain ⟨hkept', -⟩ := reaches_startOrGiveBack hid Bool.noConfusion hrest
      exact ⟨hkept.trans hkept', .inr (.inr hbefore)⟩

/-- No record has changed, and there is no new file. -/
structure SparesRecords (b : Board) (f g : Files) : Prop where
  records : ∀ id, g.text? (Records.path b.root id).names = f.text? (Records.path b.root id).names
  none : ∀ names, f.text? names = none → g.text? names = none

theorem sparesRecords_of_kept (h : f.Kept g) : b.SparesRecords f g :=
  ⟨fun id => h.text _ List.not_mem_nil (Records.isPublic_path b.root id),
    fun names => h.none names List.not_mem_nil⟩

theorem LeavesAtMost.sparesRecords (h : b.LeavesAtMost id owner f g) : b.SparesRecords f g := by
  refine ⟨fun other => ?_, fun names hnone => ?_⟩
  · refine h.1.text _ ?_ (Records.isPublic_path b.root other)
    rw [List.mem_singleton]
    exact Records.names_path_ne_lock b.root other id
  · by_cases heq : names = (Locks.path b.root id).names
    · rw [heq] at hnone ⊢
      obtain hsame | hgone | howner := h.2
      · rw [hsame, hnone]
      · exact hgone
      · rw [Locks.slotAt_eq_missing.mpr hnone] at howner
        cases howner
    · exact h.1.none names (by rwa [List.mem_singleton]) hnone

/-- Whenever an operation on one task fails, all records and all locks are as before and no file
is new. Whenever a claim fails, all records are as before and no file is new, and the lock names
the owner only if it did before. -/
theorem failed_spares (b : Board) {f g : Files} {e : Error} :
    (∀ (shows : Instant → Prop) (op : Operation), op.isWhole = true →
      (op.action b).Reaches shows f (.error e) g → b.SparesRecords f g ∧
        ∀ id, g.text? (Locks.path b.root id).names = f.text? (Locks.path b.root id).names) ∧
    ∀ id owner, (b.claim id owner).Reaches b.Timely f (.error e) g → b.SparesRecords f g ∧
      ((Locks.slotAt g (Locks.path b.root id)).owner? = some owner →
        (Locks.slotAt f (Locks.path b.root id)).owner? = some owner) := by
  constructor
  · intro shows op hwhole hfailed
    have hkept := Operation.whole_action hwhole f e g hfailed
    exact ⟨sparesRecords_of_kept hkept,
      fun id => hkept.text _ List.not_mem_nil (Locks.isPublic_path b.root id)⟩
  · intro id owner hfailed
    have hleft := leavesAtMost_of_claim hfailed
    refine ⟨hleft.sparesRecords, fun howner => ?_⟩
    obtain hsame | hgone | hbefore := hleft.2
    · rwa [Locks.slotAt_congr hsame] at howner
    · rw [Locks.slotAt_eq_missing.mpr hgone] at howner
      cases howner
    · exact hbefore

/-- The record of a task cannot be written, so the task is neither edited nor claimed. -/
theorem failed_spares_refused :
    let w := Lone.world.refuse [(Records.path Lone.board.root "a").names]
    let refused := Error.storage "write refused: /store/tasks/a.md"
    ∃ f g, ((Operation.edit "a" "title" "A").action Lone.board).Reaches (fun _ => True)
        w.store (.error refused) f ∧ Lone.board.SparesRecords w.store f ∧
      (Lone.board.claim "a" "x").Reaches Lone.board.Timely w.store (.error refused) g ∧
        Lone.board.SparesRecords w.store g ∧
          (Locks.slotAt g (Locks.path Lone.board.root "a")).owner? ≠ some "x" := by
  intro w refused
  have hedited : (((Operation.edit "a" "title" "A").action Lone.board).run.runIn w).1 =
      .error refused := by decide +kernel
  have hclaimed : ((Lone.board.claim "a" "x").run.runIn w).1 = .error refused := by decide +kernel
  have htimely : Lone.board.Timely w.clock :=
    ⟨⟨by decide, by decide⟩, by decide +kernel, by decide +kernel⟩
  have hfree : (Locks.slotAt w.store (Locks.path Lone.board.root "a")).owner? ≠ some "x" := by
    decide +kernel
  obtain ⟨f, hedit⟩ : ∃ f, ((Operation.edit "a" "title" "A").action Lone.board).Reaches
      (fun _ => True) w.store (.error refused) f := ⟨_, reaches_runIn hedited trivial⟩
  obtain ⟨g, hclaim⟩ : ∃ g, (Lone.board.claim "a" "x").Reaches Lone.board.Timely
      w.store (.error refused) g := ⟨_, reaches_runIn hclaimed htimely⟩
  obtain ⟨hspared, -⟩ := (failed_spares Lone.board).1 _ (.edit "a" "title" "A") rfl hedit
  obtain ⟨hspared', howner⟩ := (failed_spares Lone.board).2 "a" "x" hclaim
  exact ⟨f, g, hedit, hspared, hclaim, hspared', fun hx => hfree (howner hx)⟩

/-! ## Tasks that are split off -/

theorem lasting_save (t : Task) : (Records.save b.root t).Lasting shows :=
  (Records.quiet_checkId t.id).lasting.bind fun _ => lasting_replace _ _

theorem lasting_linkEach (now : Instant) (dependent : String) (added : Bool) (ids : List String) :
    (b.linkEach now dependent added ids).Lasting shows := by
  induction ids with
  | nil => exact (quiet_pure ()).lasting
  | cons id ids ih =>
    refine Lasting.bind ((Records.quiet_load b.root id).attempt.lasting.bind fun r => ?_) fun _ => ih
    cases r with
    | error e => exact (quiet_pure ()).lasting
    | ok t =>
      simp only
      split
      · exact (quiet_pure ()).lasting
      · exact (lasting_save _).attempt.bind fun _ => (quiet_pure ()).lasting

theorem lasting_link (dependent : String) (added removed : TextSet) :
    (b.link dependent added removed).Lasting shows :=
  quiet_now.lasting.bind fun _ => (lasting_linkEach _ dependent true _).bind
    fun _ => lasting_linkEach _ dependent false _

/-- There was no record of the task before, and there is one now. -/
def Adds (b : Board) (id : String) (f g : Files) : Prop :=
  f.text? (Records.path b.root id).names = none ∧ (g.text? (Records.path b.root id).names).isSome = true

theorem adds_of_insertAs {n : NewTask} {parent : Option String} {t : Task}
    (h : (b.insertAs n parent id).Reaches shows f (.ok t) g) : b.Adds t.id f g := by
  obtain ⟨_, -, h₁⟩ := (Records.quiet_checkId id).reaches_bind_ok h
  obtain ⟨taken, -, h₂⟩ := (Records.quiet_holds b.root id).reaches_bind_ok h₁
  split at h₂
  · cases h₂.1
  obtain ⟨checked, -, h₃⟩ := (quiet_settle _).reaches_bind_ok h₂
  obtain ⟨requires, -, h₄⟩ := (quiet_settle _).reaches_bind_ok h₃
  obtain ⟨all, -, h₅⟩ := (Records.quiet_scan b.root).reaches_bind_ok h₄
  obtain ⟨now, -, h₆⟩ := quiet_now.reaches_bind_ok h₅
  simp only at h₆
  split at h₆
  · cases h₆.1
  obtain ⟨created, f₁, hcreate, h₇⟩ := reaches_bind_ok h₆
  obtain ⟨_, -, hcreate⟩ := (Records.quiet_checkId _).reaches_bind_ok hcreate
  obtain ⟨_, heq, -⟩ | ⟨heq, -⟩ | ⟨heq, rfl, hnone⟩ := reaches_createNew hcreate
  · cases heq
  · obtain rfl := Except.ok.inj heq
    cases h₇.1
  · obtain rfl := Except.ok.inj heq
    obtain ⟨_, f₂, hlink, heq, rfl⟩ := reaches_bind_ok h₇
    obtain rfl := Except.ok.inj heq
    -- to link the task loses no file
    exact ⟨hnone, lasting_link _ _ _ _ _ _ hlink _ (Records.isPublic_path b.root _) (by simp)⟩

/-- Where a task has been inserted, its record is new. -/
theorem adds_of_insert {n : NewTask} {parent : Option String} {t : Task}
    (h : (b.insert n parent).Reaches shows f (.ok t) g) : b.Adds t.id f g := by
  rw [insert_eq] at h
  split at h
  · exact adds_of_insertAs h
  · obtain ⟨id, -, hinsert⟩ := (quiet_ask (c := .freshId) trivial).reaches_bind_ok h
    exact adds_of_insertAs hinsert

/-- A task fails to be split off before it is inserted, or because its parent cannot be saved
after that. -/
theorem reaches_spawn_error {parent : String} {n : NewTask} {e : Error}
    (h : (b.spawn parent n).Reaches shows f (.error e) g) :
    f.Kept g ∨ f.RefusesNear (Records.path b.root parent) ∧
      ∃ child f₁, (b.insert n (some parent)).Reaches shows f (.ok child) f₁ ∧ f₁.Kept g := by
  obtain ⟨_, hload, -⟩ | ⟨p, f₁, hload, hrest⟩ := reaches_bind.mp h
  all_goals obtain rfl := (Records.quiet_load b.root parent).eq_of_reaches hload
  · exact .inl (.refl _ _)
  obtain ⟨hid, rfl⟩ := Records.reaches_load_ok hload
  split at hrest
  · rw [hrest.2]
    exact .inl (.refl _ _)
  obtain ⟨_, hinsert, -⟩ | ⟨child, f₂, hinsert, hnote⟩ := reaches_bind.mp hrest
  · exact .inl (whole_insert n (some p.id) _ _ _ hinsert)
  refine .inr ?_
  obtain ⟨_, hnow, -⟩ | ⟨now, f₃, hnow, hsave⟩ := reaches_bind.mp hnote
  · exact absurd hnow (sure_ask .now _ _ _)
  obtain rfl := quiet_now.eq_of_reaches hnow
  obtain ⟨_, hsave, -⟩ | ⟨_, f₄, -, heq, -⟩ := reaches_bind.mp hsave
  · obtain ⟨_, hcheck, -⟩ | ⟨_, f₄, hcheck, hreplace⟩ := reaches_bind.mp hsave
    · exact absurd hcheck (Records.sure_checkId hid _ _ _)
    obtain rfl := (Records.quiet_checkId _).eq_of_reaches hcheck
    obtain ⟨_, -, hkept, hrefuses⟩ | ⟨heq, -⟩ := reaches_replace hreplace
    · refine ⟨?_, child, _, hinsert, hkept⟩
      rwa [Files.RefusesNear, Program.refusing_of_reaches hinsert] at hrefuses
    · cases heq
  · cases heq

/-- Whenever a task fails to be split off, the records are as before exactly if it was not
inserted. It can have been inserted only if the record of its parent cannot be written; then its
record is there, and nothing takes it back. -/
theorem failed_spawn_spares_iff {parent : String} {n : NewTask} {e : Error}
    (h : (b.spawn parent n).Reaches shows f (.error e) g) :
    (b.SparesRecords f g ∨ f.RefusesNear (Records.path b.root parent)) ∧
      (b.SparesRecords f g ↔
        ¬ ∃ child f₁, (b.insert n (some parent)).Reaches shows f (.ok child) f₁ ∧ f₁.Kept g) := by
  have hinserted : ∀ {child : Task} {f₁ : Files},
      (b.insert n (some parent)).Reaches shows f (.ok child) f₁ → f₁.Kept g → ¬ b.SparesRecords f g := by
    intro child f₁ hinsert hkept hspared
    obtain ⟨hnone, hsome⟩ := adds_of_insert hinsert
    rw [← hkept.text _ List.not_mem_nil (Records.isPublic_path b.root child.id),
      hspared.records, hnone] at hsome
    cases hsome
  obtain hkept | ⟨hrefuses, child, f₁, hinsert, hkept⟩ := reaches_spawn_error h
  · have hspared := sparesRecords_of_kept hkept (b := b)
    refine ⟨.inl hspared, iff_of_true hspared ?_⟩
    rintro ⟨child, f₁, hinsert, hkept'⟩
    exact hinserted hinsert hkept' hspared
  · exact ⟨.inr hrefuses, iff_of_false (hinserted hinsert hkept) (not_not_intro ⟨child, f₁, hinsert, hkept⟩)⟩

/-- The record of the parent cannot be written: the new task is inserted, and stays. -/
theorem failed_spawn_spares_iff_refused :
    let w := Lone.world.refuse [(Records.path Lone.board.root "a").names]
    let n : NewTask := { id := some "c", title := "C" }
    ∃ e g, (Lone.board.spawn "a" n).Reaches (fun _ => True) w.store (.error e) g ∧
      ¬ Lone.board.SparesRecords w.store g ∧ ∃ child f,
        (Lone.board.insert n (some "a")).Reaches (fun _ => True) w.store (.ok child) f ∧ f.Kept g := by
  intro w n
  have hrun : ((Lone.board.spawn "a" n).run.runIn w).1 =
        .error (.storage "write refused: /store/tasks/a.md") ∧
      (((Lone.board.spawn "a" n).run.runIn w).2.store.text?
        (Records.path Lone.board.root "c").names).isSome = true := by
    decide +kernel
  have hnone : w.store.text? (Records.path Lone.board.root "c").names = none := by decide +kernel
  obtain ⟨g, hfailed, hthere⟩ : ∃ g, (Lone.board.spawn "a" n).Reaches (fun _ => True) w.store
      (.error (.storage "write refused: /store/tasks/a.md")) g ∧
      (g.text? (Records.path Lone.board.root "c").names).isSome = true :=
    ⟨_, reaches_runIn hrun.1 trivial, hrun.2⟩
  obtain ⟨-, hiff⟩ := failed_spawn_spares_iff hfailed
  have hspoiled : ¬ Lone.board.SparesRecords w.store g := by
    intro hspared
    rw [hspared.records, hnone] at hthere
    cases hthere
  exact ⟨_, g, hfailed, hspoiled, by_contra fun hno => hspoiled (hiff.mpr hno)⟩

/-- The task that failed to be split off can be loaded, and names its parent; the parent does not
list it. -/
theorem unlisted_child_left :
    let w := Lone.world.refuse [(Records.path Lone.board.root "a").names]
    let spawned := (Lone.board.spawn "a" { id := some "c", title := "C" }).run.runIn w
    spawned.1 = .error (.storage "write refused: /store/tasks/a.md") ∧
      Records.loadAt w.store Lone.board.root "c" = .error (.notFound "c") ∧
      (Records.loadAt spawned.2.store Lone.board.root "c").map Task.spawnedFrom = .ok (some "a") ∧
      (Records.loadAt spawned.2.store Lone.board.root "a").map Task.spawnedTasks = .ok [] := by
  decide +kernel

end Board

end Workboard
