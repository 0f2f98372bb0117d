import Workboard.Proofs.Lock.Alone
import Workboard.Proofs.Lock.Sound

/-!
# The history of a lock

Any owners take, renew, release, remove and look at the lock of one task, one after the
other, and the clock is set to any instant in between. Every record that is written is read
back, so at each moment the lock is free or names one owner. Main statement: who may take,
renew and release the lock at which instant, and for how long an owner keeps it.
-/
namespace Workboard

theorem Instant.IsPlain.isTime {t : Instant} (h : t.IsPlain) : t.IsTime := by
  refine ⟨lt_trans h (by norm_num), fun hleap => ?_⟩
  rw [h.isLeap_eq] at hleap
  cases hleap

namespace Locks

/-- The slot is empty, or holds a record that was written whole and shows no leap second. -/
def Slot.Regular (s : Slot) : Prop :=
  s = .missing ∨ ∃ r ms, s = .held r ∧ r.IsSound ms ∧ r.heartbeatAt.IsPlain

/-- The owner finds the lock free, its own, or stale. -/
def Slot.Yields (s : Slot) (owner : String) (now : Instant) : Prop :=
  s = .missing ∨ ∃ r, s = .held r ∧ (r.owner = owner ∨ r.timeout < now.since r.heartbeatAt)

section Alone
variable {w : World Files} {root : Path} {id : String}

/-- A lock file that was replaced holds the new text. -/
theorem slotAt_replaced (f : Files) (root : Path) (id token text : String) :
    slotAt (f.replaced (path root id) token text) (path root id) = .ofText text := by
  refine slotAt_of_text? ?_
  rw [Files.text?_replaced (isPublic_path root id), if_pos rfl]

end Alone

/-- The lock is recorded for the owner, with a sign of life at the instant and a timeout of so
many milliseconds. -/
def Slot.IsTaken (s : Slot) (owner : String) (now : Instant) (ms : ℕ) : Prop :=
  ∃ r, s = .held r ∧ r.owner = owner ∧ r.heartbeatAt = now ∧ r.timeout = .ofMillis ms

section Written
variable {f : Files} {root : Path} {id owner : String} {ms : ℕ} {r : LockRecord}

/-- A sound record is found as it was written, but for its number of hours. -/
theorem regular_ofText_render (h : r.IsSound ms) (hbeat : r.heartbeatAt.IsPlain) :
    (Slot.ofText r.render).Regular ∧
      ∃ current : LockRecord, Slot.ofText r.render = .held current ∧ current.owner = r.owner ∧
        current.acquiredAt = r.acquiredAt ∧ current.heartbeatAt = r.heartbeatAt ∧
        current.timeout = .ofMillis ms := by
  obtain ⟨hours, hstands, htext⟩ := h.ofText_render
  have hsound : LockRecord.IsSound { r with timeoutHours := hours } ms :=
    ⟨h.allowed, hstands, h.acquired, h.heartbeat, h.expires⟩
  exact ⟨.inr ⟨_, ms, htext, hsound, hbeat⟩, _, htext, rfl, rfl, rfl, hsound.timeout_eq⟩

end Written

/-- What is asked of a timeout and of the instant at which a lock is taken. -/
structure Reasonable (owner : String) (ms : ℕ) (now : Instant) : Prop where
  named : Text.isAllBlank owner = false
  allowed : AllowedMillis ms
  plain : now.IsPlain
  inRange : now.inRange = true
  expires : (now.add? (.ofMillis ms)).isSome = true

section Reasonable
variable {owner : String} {ms : ℕ} {now : Instant}

instance : Decidable (Reasonable owner ms now) :=
  decidable_of_iff (Text.isAllBlank owner = false ∧ (0 < ms ∧ ms ≤ 3600000 * maxTimeoutHours) ∧
      now.IsPlain ∧ now.inRange = true ∧ (now.add? (.ofMillis ms)).isSome = true)
    ⟨fun ⟨h₁, h₂, h₃, h₄, h₅⟩ => ⟨h₁, h₂, h₃, h₄, h₅⟩,
      fun ⟨h₁, h₂, h₃, h₄, h₅⟩ => ⟨h₁, h₂, h₃, h₄, h₅⟩⟩

theorem Reasonable.isSound (h : Reasonable owner ms now) (id : String) :
    (LockRecord.new id owner now (.ofMillis ms)).IsSound ms :=
  LockRecord.isSound_new h.allowed id owner h.plain.isTime h.inRange h.expires

end Reasonable

section Acquire
variable {w : World Files} {root : Path} {id owner : String} {ms : ℕ}

/-- The lock is taken over. -/
theorem runIn_takeOver (hopen : w.store.refusing = []) (h : Reasonable owner ms w.clock) :
    ∃ w', (takeOver (path root id) (.new id owner w.clock (.ofMillis ms))).run.runIn w = (.ok true, w') ∧
      w'.store.refusing = [] ∧ (slotAt w'.store (path root id)).Regular ∧
      (slotAt w'.store (path root id)).IsTaken owner w.clock ms := by
  obtain ⟨hreg, current, htext, howner, hacquired, hbeat, htimeout⟩ :=
    regular_ofText_render (h.isSound id) h.plain
  set record := LockRecord.new id owner w.clock (.ofMillis ms) with hrecord
  have hrun : (takeOver (path root id) record).run.runIn w = (.ok true, { w with
      store := w.store.replaced (path root id) (World.tokenText (w.tokens + 1)) record.render
      tokens := w.tokens + 1 }) := by
    unfold takeOver
    rw [Action.runIn_bind_ok (Action.runIn_replace hopen _ _), Action.runIn_bind_ok (runIn_slot _ _),
      slotAt_replaced, htext]
    simp only [howner, hacquired, decide_true, Bool.and_self]
    rfl
  refine ⟨_, hrun, hopen, ?_, ?_⟩
  · rw [slotAt_replaced]
    exact hreg
  · rw [slotAt_replaced]
    exact ⟨current, htext, howner, hbeat, htimeout⟩

theorem runIn_acquire_eq (hid : isValidId id = true) (h : Reasonable owner ms w.clock) :
    (acquire root id owner (.ofMillis ms)).run.runIn w =
      (tryTake (path root id) (.new id owner w.clock (.ofMillis ms)) w.clock 2).run.runIn w := by
  have hms : ms ≤ 3600000 * 8760 := h.allowed.2
  have hpos : 0 < ms := h.allowed.1
  have htimeout : ¬ (Duration.ofMillis ms ≤ .zero ∨ maxTimeout < .ofMillis ms) := by
    rw [Duration.le_def, Duration.lt_def]
    change ¬ ((ms : ℤ) * 1000000 ≤ 0 ∨ (8760 * 3600000 : ℤ) * 1000000 < (ms : ℤ) * 1000000)
    omega
  rw [acquire_eq, if_neg (by simp [hid]), if_neg (by simp [h.named]), if_neg htimeout,
    Action.runIn_bind_ok (Action.runIn_now w)]

/-- A free lock is taken. -/
theorem runIn_tryTake_missing (hopen : w.store.refusing = []) (h : Reasonable owner ms w.clock)
    (hmissing : slotAt w.store (path root id) = .missing) (n : ℕ) :
    ∃ w', (tryTake (path root id) (.new id owner w.clock (.ofMillis ms)) w.clock (n + 1)).run.runIn w =
        (.ok true, w') ∧
      w'.store.refusing = [] ∧ (slotAt w'.store (path root id)).Regular ∧
      (slotAt w'.store (path root id)).IsTaken owner w.clock ms := by
  obtain ⟨hreg, current, htext, howner, -, hbeat, htimeout⟩ := regular_ofText_render (h.isSound id) h.plain
  have hcreate := Action.runIn_createNew hopen (path root id) (LockRecord.new id owner w.clock (.ofMillis ms)).render
  rw [slotAt_eq_missing.mp hmissing] at hcreate
  have hslot := slotAt_put root id w.store (LockRecord.new id owner w.clock (.ofMillis ms)).render
  rw [tryTake, Action.runIn_bind_ok hcreate, if_pos rfl]
  exact ⟨_, rfl, hopen, hslot ▸ hreg, current, hslot.trans htext, howner, hbeat, htimeout⟩

section Held
variable {r : LockRecord} (hopen : w.store.refusing = []) (hheld : slotAt w.store (path root id) = .held r)
include hopen hheld

/-- A taken lock is looked at. -/
theorem runIn_tryTake_held (record : LockRecord) (now : Instant) (n : ℕ) :
    (tryTake (path root id) record now (n + 1)).run.runIn w =
      (if r.isStale now then takeOver (path root id) record
        else if r.owner = record.owner then do
          Action.replace (path root id) (LockRecord.render { record with acquiredAt := r.acquiredAt })
          pure true
        else pure false : Action Bool).run.runIn w := by
  have hcreate := Action.runIn_createNew hopen (path root id) record.render
  cases htext : w.store.text? (path root id).names with
  | none =>
    rw [slotAt_eq_missing.mpr htext] at hheld
    cases hheld
  | some text =>
    rw [htext] at hcreate
    rw [tryTake, Action.runIn_bind_ok hcreate, if_neg Bool.false_ne_true,
      Action.runIn_bind_ok (runIn_slot w _), hheld]

/-- A stale lock is taken over, and the own one is refreshed. -/
theorem runIn_tryTake_yields {ms' : ℕ} (h : Reasonable owner ms w.clock) (hsound : r.IsSound ms')
    (hyields : r.owner = owner ∨ r.isStale w.clock = true) (n : ℕ) :
    ∃ w', (tryTake (path root id) (.new id owner w.clock (.ofMillis ms)) w.clock (n + 1)).run.runIn w =
        (.ok true, w') ∧
      w'.store.refusing = [] ∧ (slotAt w'.store (path root id)).Regular ∧
      (slotAt w'.store (path root id)).IsTaken owner w.clock ms := by
  rw [runIn_tryTake_held hopen hheld]
  by_cases hstale : r.isStale w.clock = true
  · rw [if_pos hstale]
    exact runIn_takeOver hopen h
  · have hsound' : LockRecord.IsSound
        { LockRecord.new id owner w.clock (.ofMillis ms) with acquiredAt := r.acquiredAt } ms :=
      ⟨h.allowed, (h.isSound id).hours, hsound.acquired, (h.isSound id).heartbeat, h.expires⟩
    obtain ⟨hreg, current, htext, howner, -, hbeat, htimeout⟩ := regular_ofText_render hsound' h.plain
    have hown : r.owner = (LockRecord.new id owner w.clock (.ofMillis ms)).owner := hyields.resolve_right hstale
    rw [if_neg hstale, if_pos hown, Action.runIn_bind_ok (Action.runIn_replace hopen _ _)]
    refine ⟨_, rfl, hopen, ?_, ?_⟩
    · rw [slotAt_replaced]
      exact hreg
    · rw [slotAt_replaced]
      exact ⟨current, htext, howner, hbeat, htimeout⟩

/-- A lock that somebody else keeps alive is left as it is. -/
theorem runIn_tryTake_kept {record : LockRecord} {now : Instant} (hother : r.owner ≠ record.owner)
    (hfresh : ¬ r.isStale now = true) (n : ℕ) :
    (tryTake (path root id) record now (n + 1)).run.runIn w = (.ok false, w) := by
  rw [runIn_tryTake_held hopen hheld, if_neg hfresh, if_neg hother]
  rfl

end Held

/-- Who asks for the lock gets it exactly when the slot yields; otherwise nothing changes. -/
theorem runIn_acquire (hid : isValidId id = true) (hopen : w.store.refusing = [])
    (h : Reasonable owner ms w.clock) (hreg : (slotAt w.store (path root id)).Regular) :
    ∃ b w', (acquire root id owner (.ofMillis ms)).run.runIn w = (.ok b, w') ∧
      w'.store.refusing = [] ∧ (slotAt w'.store (path root id)).Regular ∧
      (b = true ↔ (slotAt w.store (path root id)).Yields owner w.clock) ∧
      (b = false → w' = w) ∧
      (b = true → (slotAt w'.store (path root id)).IsTaken owner w.clock ms) := by
  rw [runIn_acquire_eq hid h]
  have hcases := hreg
  obtain hmissing | ⟨r, ms', hheld, hsound, hplain⟩ := hcases
  · obtain ⟨w', hrun, hopen', hreg', htaken⟩ := runIn_tryTake_missing hopen h hmissing 1
    exact ⟨true, w', hrun, hopen', hreg', ⟨fun _ => .inl hmissing, fun _ => rfl⟩, Bool.noConfusion, fun _ => htaken⟩
  · have hyields : (slotAt w.store (path root id)).Yields owner w.clock ↔
        r.owner = owner ∨ r.isStale w.clock = true := by
      rw [hheld]
      simp [Slot.Yields, LockRecord.isStale]
    rw [hyields]
    by_cases hgives : r.owner = owner ∨ r.isStale w.clock = true
    · obtain ⟨w', hrun, hopen', hreg', htaken⟩ := runIn_tryTake_yields hopen hheld h hsound hgives 1
      exact ⟨true, w', hrun, hopen', hreg', ⟨fun _ => hgives, fun _ => rfl⟩, Bool.noConfusion, fun _ => htaken⟩
    · obtain ⟨hother, hfresh⟩ := not_or.mp hgives
      exact ⟨false, w, runIn_tryTake_kept hopen hheld hother hfresh 1, hopen, hreg,
        ⟨Bool.noConfusion, fun hyes => absurd hyes hgives⟩, fun _ => rfl, Bool.noConfusion⟩

end Acquire

section Others
variable {w : World Files} {root : Path} {id : String}

/-- The owner renews the lock, be it stale or not; for anybody else nothing changes. -/
theorem runIn_renew (hid : isValidId id = true) (hopen : w.store.refusing = []) (owner : String)
    (hplain : w.clock.IsPlain) (hrange : w.clock.inRange = true)
    (hreg : (slotAt w.store (path root id)).Regular)
    (hexpires : ∀ r, slotAt w.store (path root id) = .held r → (w.clock.add? r.timeout).isSome = true) :
    ∃ b w', (renew root id owner).run.runIn w = (.ok b, w') ∧
      w'.store.refusing = [] ∧ (slotAt w'.store (path root id)).Regular ∧
      (b = true ↔ (slotAt w.store (path root id)).owner? = some owner) ∧ (b = false → w' = w) ∧
      (slotAt w'.store (path root id)).owner? = (slotAt w.store (path root id)).owner? := by
  unfold renew
  rw [Action.runIn_bind_ok (runIn_checkId hid w), Action.runIn_bind_ok (runIn_slot w _)]
  obtain hmissing | ⟨r, ms, hheld, hsound, hbeat⟩ := hreg
  · rw [hmissing]
    refine ⟨false, w, rfl, hopen, .inl hmissing, ?_, fun _ => rfl, ?_⟩
    · simp [Slot.owner?]
    · rw [hmissing]
  · have hexpires' := hexpires r hheld
    rw [hsound.timeout_eq] at hexpires'
    rw [hheld]
    by_cases howner : r.owner = owner
    · simp only [if_pos howner]
      rw [Action.runIn_bind_ok (Action.runIn_now w),
        Action.runIn_bind_ok (Action.runIn_replace hopen _ _)]
      -- the later of two instants at which the lock could begin to expire
      have hlater : ∀ t, t = w.clock ∨ t = r.heartbeatAt →
          t.IsPlain ∧ t.inRange = true ∧ (t.add? (.ofMillis ms)).isSome = true := by
        rintro t (rfl | rfl)
        · exact ⟨hplain, hrange, hexpires'⟩
        · exact ⟨hbeat, hsound.heartbeat.2, hsound.expires⟩
      obtain ⟨hplain', hrange', hadd⟩ := hlater _ (Instant.max_eq_or w.clock r.heartbeatAt)
      have hsound' : LockRecord.IsSound { r with heartbeatAt := max w.clock r.heartbeatAt } ms :=
        ⟨hsound.allowed, hsound.hours, hsound.acquired, ⟨hplain'.isTime, hrange'⟩, hadd⟩
      obtain ⟨hreg', current, htext, howner', -⟩ := regular_ofText_render hsound' hplain'
      refine ⟨true, _, rfl, hopen, ?_, by simp [Slot.owner?, howner], Bool.noConfusion, ?_⟩
      · rw [slotAt_replaced]
        exact hreg'
      · rw [slotAt_replaced, htext, Slot.owner?, howner']
        rfl
    · simp only [if_neg howner]
      refine ⟨false, w, rfl, hopen, .inr ⟨r, ms, hheld, hsound, hbeat⟩, ?_, fun _ => rfl, ?_⟩
      · simp [Slot.owner?, howner]
      · rw [hheld]

/-- The owner releases the lock, be it stale or not; for anybody else nothing changes. -/
theorem runIn_release (hid : isValidId id = true) (hopen : w.store.refusing = []) (owner : String)
    (hreg : (slotAt w.store (path root id)).Regular) :
    ∃ b w', (release root id owner).run.runIn w = (.ok b, w') ∧
      w'.store.refusing = [] ∧ (slotAt w'.store (path root id)).Regular ∧
      (b = true ↔ (slotAt w.store (path root id)).owner? = some owner) ∧ (b = false → w' = w) ∧
      (b = true → slotAt w'.store (path root id) = .missing) := by
  unfold release
  rw [Action.runIn_bind_ok (runIn_checkId hid w), Action.runIn_bind_ok (runIn_slot w _)]
  obtain hmissing | ⟨r, ms, hheld, hsound, hbeat⟩ := hreg
  · rw [hmissing]
    refine ⟨false, w, rfl, hopen, .inl hmissing, ?_, fun _ => rfl, Bool.noConfusion⟩
    simp [Slot.owner?]
  · rw [hheld]
    by_cases howner : r.owner = owner
    · obtain ⟨text, htext⟩ := exists_text_of_held hheld
      have hgone := slotAt_erase root id w.store
      simp only [if_pos howner]
      rw [Action.runIn_remove htext]
      exact ⟨true, _, rfl, hopen, .inl hgone, by simp [Slot.owner?, howner], Bool.noConfusion,
        fun _ => hgone⟩
    · simp only [if_neg howner]
      refine ⟨false, w, rfl, hopen, .inr ⟨r, ms, hheld, hsound, hbeat⟩, ?_, fun _ => rfl,
        Bool.noConfusion⟩
      simp [Slot.owner?, howner]

/-- After a removal by force the slot is empty. -/
theorem runIn_forceRelease (hid : isValidId id = true) (hopen : w.store.refusing = [])
    (hreg : (slotAt w.store (path root id)).Regular) :
    ∃ previous w', (forceRelease root id).run.runIn w = (.ok previous, w') ∧
      w'.store.refusing = [] ∧ slotAt w'.store (path root id) = .missing := by
  unfold forceRelease
  rw [Action.runIn_bind_ok (runIn_checkId hid w), Action.runIn_bind_ok (runIn_slot w _)]
  obtain hmissing | ⟨r, ms, hheld, -⟩ := hreg
  · rw [hmissing]
    exact ⟨none, w, rfl, hopen, hmissing⟩
  · obtain ⟨text, htext⟩ := exists_text_of_held hheld
    rw [hheld]
    simp only []
    rw [Action.runIn_bind_ok (Action.runIn_remove htext)]
    exact ⟨some r, _, rfl, hopen, slotAt_erase root id w.store⟩

/-- The lock is seen as it is recorded. -/
theorem runIn_status (hid : isValidId id = true) (hreg : (slotAt w.store (path root id)).Regular) :
    ∃ info?, (status root id).run.runIn w = (.ok info?, w) ∧
      (info? = none ↔ slotAt w.store (path root id) = .missing) ∧
      ∀ info, info? = some info → ∃ r, slotAt w.store (path root id) = .held r ∧
        info = r.infoAt w.clock := by
  unfold status
  rw [Action.runIn_bind_ok (runIn_checkId hid w), Action.runIn_bind_ok (runIn_slot w _)]
  obtain hmissing | ⟨r, ms, hheld, -⟩ := hreg
  · rw [hmissing]
    exact ⟨none, rfl, by simp, by simp⟩
  · rw [hheld]
    simp only []
    rw [Action.runIn_bind_ok (Action.runIn_now w)]
    exact ⟨some (r.infoAt w.clock), rfl, by simp, by simp⟩

end Others

/-- A call that somebody makes on the lock of a task. -/
inductive Deed where
  | acquire (owner : String) (ms : ℕ)
  | renew (owner : String)
  | release (owner : String)
  | forceRelease
  | status

namespace Deed

/-- The world after a call. -/
def perform (root : Path) (id : String) (d : Deed) (w : World Files) : World Files :=
  match d with
  | acquire owner ms => ((Locks.acquire root id owner (.ofMillis ms)).run.runIn w).2
  | renew owner => ((Locks.renew root id owner).run.runIn w).2
  | release owner => ((Locks.release root id owner).run.runIn w).2
  | forceRelease => ((Locks.forceRelease root id).run.runIn w).2
  | status => ((Locks.status root id).run.runIn w).2

/-- Nothing is asked of the lock at this instant that could not be written down. -/
def Sensible (d : Deed) (s : Slot) (now : Instant) : Prop :=
  now.IsPlain ∧ now.inRange = true ∧ match d with
    | acquire owner ms => Reasonable owner ms now
    | renew _ => ∀ r, s = .held r → (now.add? r.timeout).isSome = true
    | _ => True

instance (d : Deed) (s : Slot) (now : Instant) : Decidable (d.Sensible s now) :=
  haveI : Decidable (match d with
      | acquire owner ms => Reasonable owner ms now
      | renew _ => ∀ r, s = .held r → (now.add? r.timeout).isSome = true
      | _ => True) :=
    match d, s with
    | acquire owner ms, _ => inferInstanceAs (Decidable (Reasonable owner ms now))
    | renew _, .held r => decidable_of_iff ((now.add? r.timeout).isSome = true) (by simp)
    | renew _, .missing => .isTrue (by simp)
    | renew _, .unreadable _ => .isTrue (by simp)
    | release _, _ => .isTrue trivial
    | forceRelease, _ => .isTrue trivial
    | status, _ => .isTrue trivial
  inferInstanceAs (Decidable (_ ∧ _ ∧ _))

/-- The call may end the time for which `owner` has had the lock: a release of its own, a
removal by force, or somebody else's attempt to take it when it is stale. -/
def MayEnd (owner : String) (s : Slot) (now : Instant) : Deed → Prop
  | acquire other _ => other ≠ owner ∧ ∃ r, s = .held r ∧ r.isStale now = true
  | renew _ => False
  | release other => other = owner
  | forceRelease => True
  | status => False

end Deed

section History
variable {root : Path} {id : String}

/-- The world after calls that were made one after the other, each at an instant of its own. -/
def after (root : Path) (id : String) : World Files → List (Instant × Deed) → World Files
  | w, [] => w
  | w, (now, d) :: calls => after root id (d.perform root id { w with clock := now }) calls

/-- All the calls are sensible when they are made. -/
def AllSensible (root : Path) (id : String) : World Files → List (Instant × Deed) → Prop
  | _, [] => True
  | w, (now, d) :: calls => d.Sensible (slotAt w.store (path root id)) now ∧
      AllSensible root id (d.perform root id { w with clock := now }) calls

instance (root : Path) (id : String) (w : World Files) (calls : List (Instant × Deed)) :
    Decidable (AllSensible root id w calls) :=
  match calls with
  | [] => .isTrue trivial
  | (now, d) :: calls =>
    haveI := instDecidableAllSensible root id (d.perform root id { w with clock := now }) calls
    inferInstanceAs (Decidable (_ ∧ _))

theorem after_append (w : World Files) (calls more : List (Instant × Deed)) :
    after root id w (calls ++ more) = after root id (after root id w calls) more := by
  induction calls generalizing w with
  | nil => rfl
  | cons call calls ih => exact ih _

theorem allSensible_append {w : World Files} {calls more : List (Instant × Deed)} :
    AllSensible root id w (calls ++ more) ↔
      AllSensible root id w calls ∧ AllSensible root id (after root id w calls) more := by
  induction calls generalizing w with
  | nil => simp [AllSensible, after]
  | cons call calls ih => simp [AllSensible, after, ih, and_assoc]

/-- All files can be written, and the lock is free or names an owner. -/
structure Fair (root : Path) (id : String) (w : World Files) : Prop where
  writable : w.store.refusing = []
  regular : (slotAt w.store (path root id)).Regular

variable (hid : isValidId id = true)
include hid

/-- A sensible call leaves the lock free or with an owner, and one that may not end the time of
its owner leaves it to that owner. -/
theorem Fair.perform {w : World Files} (h : Fair root id w) {d : Deed}
    (hd : d.Sensible (slotAt w.store (path root id)) w.clock) :
    Fair root id (d.perform root id w) ∧
      ∀ x, (slotAt w.store (path root id)).owner? = some x →
        ¬ d.MayEnd x (slotAt w.store (path root id)) w.clock →
        (slotAt (d.perform root id w).store (path root id)).owner? = some x := by
  obtain ⟨hplain, hrange, hd⟩ := hd
  cases d with
  | acquire owner ms =>
    obtain ⟨b, w', hrun, hopen, hreg, hyields, hsame, htaken⟩ :=
      runIn_acquire hid h.writable hd h.regular
    simp only [Deed.perform, hrun]
    refine ⟨⟨hopen, hreg⟩, fun x hx hend => ?_⟩
    cases b with
    | false => rw [hsame rfl, hx]
    | true =>
      obtain ⟨r, hr, rfl⟩ := Slot.owner?_eq_some.mp hx
      obtain ⟨r', hr', howner', -⟩ := htaken rfl
      obtain hmissing | ⟨r'', hr'', hown⟩ := hyields.mp rfl
      · rw [hr] at hmissing
        cases hmissing
      · obtain rfl : r = r'' := Slot.held.inj (hr.symm.trans hr'')
        have howner : r.owner = owner := by
          by_contra hne
          have hstale := hown.resolve_left hne
          exact hend ⟨fun heq => hne heq.symm, r, hr, by simpa [LockRecord.isStale] using hstale⟩
        rw [hr', Slot.owner?, howner', howner]
  | renew owner =>
    obtain ⟨b, w', hrun, hopen, hreg, -, -, howner⟩ :=
      runIn_renew hid h.writable owner hplain hrange h.regular hd
    simp only [Deed.perform, hrun]
    exact ⟨⟨hopen, hreg⟩, fun x hx _ => howner.trans hx⟩
  | release owner =>
    obtain ⟨b, w', hrun, hopen, hreg, hb, hsame, -⟩ := runIn_release hid h.writable owner h.regular
    simp only [Deed.perform, hrun]
    refine ⟨⟨hopen, hreg⟩, fun x hx hend => ?_⟩
    cases b with
    | false => rw [hsame rfl, hx]
    | true =>
      have hown := hb.mp rfl
      rw [hx] at hown
      exact absurd (Option.some.inj hown).symm hend
  | forceRelease =>
    obtain ⟨previous, w', hrun, hopen, hgone⟩ := runIn_forceRelease hid h.writable h.regular
    simp only [Deed.perform, hrun]
    exact ⟨⟨hopen, .inl hgone⟩, fun x _ hend => absurd trivial hend⟩
  | status =>
    obtain ⟨info?, hrun, -⟩ := runIn_status hid h.regular
    simp only [Deed.perform, hrun]
    exact ⟨h, fun x hx _ => hx⟩

theorem Fair.after {w : World Files} (h : Fair root id w) {calls : List (Instant × Deed)}
    (hcalls : AllSensible root id w calls) : Fair root id (Locks.after root id w calls) := by
  induction calls generalizing w with
  | nil => exact h
  | cons call calls ih =>
    have h' : Fair root id { w with clock := call.1 } := ⟨h.writable, h.regular⟩
    exact ih (h'.perform hid hcalls.1).1 hcalls.2

/-- The owner of the lock stays its owner as long as no call is made that may end that. -/
theorem Fair.owner?_after {w : World Files} (h : Fair root id w) {calls : List (Instant × Deed)}
    (hcalls : AllSensible root id w calls) {x : String}
    (hx : (slotAt w.store (path root id)).owner? = some x)
    (hends : ∀ before call more, calls = before ++ call :: more →
      ¬ call.2.MayEnd x (slotAt (Locks.after root id w before).store (path root id)) call.1) :
    (slotAt (Locks.after root id w calls).store (path root id)).owner? = some x := by
  induction calls generalizing w with
  | nil => exact hx
  | cons call calls ih =>
    have h' : Fair root id { w with clock := call.1 } := ⟨h.writable, h.regular⟩
    obtain ⟨hfair, hkeeps⟩ := h'.perform hid hcalls.1
    refine ih hfair hcalls.2 (hkeeps x hx (hends [] call calls rfl)) fun before call' more heq => ?_
    exact hends (call :: before) call' more (by rw [heq]; rfl)

end History

/-- What the calls on a lock do at an instant: the instant of the clock. -/
structure Answers (root : Path) (id : String) (w : World Files) : Prop where
  /-- The lock is given to whom the slot yields, and otherwise nothing changes. -/
  acquire : ∀ owner ms, Reasonable owner ms w.clock →
    ∃ b w', (acquire root id owner (.ofMillis ms)).run.runIn w = (.ok b, w') ∧
      (b = true ↔ slotAt w.store (path root id) = .missing ∨
        ∃ r, slotAt w.store (path root id) = .held r ∧
          (r.owner = owner ∨ r.timeout < w.clock.since r.heartbeatAt)) ∧
      (b = false → w' = w) ∧
      (b = true → (slotAt w'.store (path root id)).IsTaken owner w.clock ms)
  /-- A lock is seen as stale when another owner would be given it, which is after the instant
  at which it expires. -/
  status : ∃ info?, (status root id).run.runIn w = (.ok info?, w) ∧
    (info? = none ↔ slotAt w.store (path root id) = .missing) ∧
    ∀ info, info? = some info → slotAt w.store (path root id) = .held info.record ∧
      (info.status = .stale ↔ ∃ t, info.record.expiresAt? = some t ∧ t < w.clock) ∧
      ∀ other ms, other ≠ info.record.owner → Reasonable other ms w.clock →
        (info.status = .stale ↔
          ((Locks.acquire root id other (.ofMillis ms)).run.runIn w).1 = .ok true)
  /-- The lock is renewed for its owner, stale or not, and otherwise nothing changes. -/
  renew : ∀ owner,
    (∀ r, slotAt w.store (path root id) = .held r → (w.clock.add? r.timeout).isSome = true) →
    ∃ b w', (renew root id owner).run.runIn w = (.ok b, w') ∧
      (b = true ↔ (slotAt w.store (path root id)).owner? = some owner) ∧ (b = false → w' = w)
  /-- The lock is released for its owner, stale or not, and otherwise nothing changes. -/
  release : ∀ owner, ∃ b w', (release root id owner).run.runIn w = (.ok b, w') ∧
    (b = true ↔ (slotAt w.store (path root id)).owner? = some owner) ∧ (b = false → w' = w)

section Answers
variable {root : Path} {id : String} {w : World Files}

theorem Slot.Regular.isStale_iff {r : LockRecord} (h : (Slot.held r).Regular) {now : Instant}
    (hnow : now.IsPlain) : r.isStale now = true ↔ ∃ t, r.expiresAt? = some t ∧ t < now := by
  obtain hmissing | ⟨r', ms, hheld, hsound, hbeat⟩ := h
  · cases hmissing
  · cases hheld
    refine LockRecord.isStale_iff_expiresAt?_lt hnow hbeat ?_
    rw [LockRecord.expiresAt?, hsound.timeout_eq]
    exact hsound.expires

/-- The calls answer in this way wherever the lock is free or names an owner. -/
theorem Fair.answers (hid : isValidId id = true) (h : Fair root id w) (hplain : w.clock.IsPlain)
    (hrange : w.clock.inRange = true) : Answers root id w where
  acquire owner ms hms := by
    obtain ⟨b, w', hrun, -, -, hb, hsame, htaken⟩ := runIn_acquire hid h.writable hms h.regular
    exact ⟨b, w', hrun, hb, hsame, htaken⟩
  status := by
    obtain ⟨info?, hrun, hnone, hsome⟩ := runIn_status hid h.regular
    refine ⟨info?, hrun, hnone, fun info hinfo => ?_⟩
    obtain ⟨r, hr, rfl⟩ := hsome info hinfo
    have hstatus : (r.infoAt w.clock).status = .stale ↔ r.isStale w.clock = true := by
      simp [LockRecord.infoAt]
    refine ⟨hr, hstatus.trans ?_, fun other ms hother hms => hstatus.trans ?_⟩
    · exact Slot.Regular.isStale_iff (hr ▸ h.regular) hplain
    · obtain ⟨b, w', hacquire, -, -, hb, -⟩ := runIn_acquire hid h.writable hms h.regular
      have hne : r.owner ≠ other := fun heq => hother heq.symm
      rw [hr] at hb
      rw [hacquire]
      simp [hb, Slot.Yields, LockRecord.isStale, hne]
  renew owner hexpires := by
    obtain ⟨b, w', hrun, -, -, hb, hsame, -⟩ :=
      runIn_renew hid h.writable owner hplain hrange h.regular hexpires
    exact ⟨b, w', hrun, hb, hsame⟩
  release owner := by
    obtain ⟨b, w', hrun, -, -, hb, hsame, -⟩ := runIn_release hid h.writable owner h.regular
    exact ⟨b, w', hrun, hb, hsame⟩

end Answers

/-- After any calls on a lock that was free, the calls answer at each instant as the recorded
owner, sign of life and timeout demand; and an owner that was given the lock is its owner
until a release of its own, a removal by force, or another owner's taking it when it is stale. -/
theorem lock_kept {root : Path} {id : String} (hid : isValidId id = true) {w : World Files}
    (hopen : w.store.refusing = []) (hfree : w.store.text? (path root id).names = none)
    {calls : List (Instant × Deed)} (hcalls : AllSensible root id w calls) :
    (∀ now : Instant, now.IsPlain → now.inRange = true →
      Answers root id { after root id w calls with clock := now }) ∧
    ∀ before now x (ms : ℕ) more, calls = before ++ (now, .acquire x ms) :: more →
      ((acquire root id x (.ofMillis ms)).run.runIn
        { after root id w before with clock := now }).1 = .ok true →
      (∀ mid call rest, more = mid ++ call :: rest → ¬ call.2.MayEnd x
        (slotAt (after root id w (before ++ (now, .acquire x ms) :: mid)).store (path root id))
        call.1) →
      (slotAt (after root id w calls).store (path root id)).owner? = some x := by
  have hfair : Fair root id w := ⟨hopen, .inl (slotAt_eq_missing.mpr hfree)⟩
  constructor
  · intro now hplain hrange
    have hafter := hfair.after hid hcalls
    exact Fair.answers (w := { after root id w calls with clock := now }) hid
      ⟨hafter.writable, hafter.regular⟩ hplain hrange
  · rintro before now x ms more rfl htaken hends
    obtain ⟨hbefore, hcall, hmore⟩ := allSensible_append.mp hcalls
    have hnow : Fair root id { after root id w before with clock := now } :=
      ⟨(hfair.after hid hbefore).writable, (hfair.after hid hbefore).regular⟩
    obtain ⟨b, w', hrun, -, -, -, -, hheld⟩ := runIn_acquire hid hnow.writable hcall.2.2 hnow.regular
    rw [hrun] at htaken
    obtain rfl : b = true := Except.ok.inj htaken
    obtain ⟨r, hr, howner, -⟩ := hheld rfl
    have hstart : Deed.perform root id (.acquire x ms) { after root id w before with clock := now } = w' := by
      rw [Deed.perform, hrun]
    have hw' : Fair root id w' := hstart ▸ (hnow.perform hid hcall).1
    rw [hstart] at hmore
    have hcut : ∀ calls, after root id w (before ++ (now, .acquire x ms) :: calls) =
        after root id w' calls := by
      intro calls
      rw [after_append, after, hstart]
    rw [hcut]
    refine hw'.owner?_after hid hmore ?_ fun mid call rest heq => ?_
    · rw [hr, Slot.owner?, howner]
    · have h := hends mid call rest heq
      rwa [hcut] at h

/-- Around the exact end of a timeout, on a clock that was set back before. -/
theorem lock_kept_to_the_end :
    let root : Path := ⟨["/", "store"], "/store"⟩
    let begun : Instant := ⟨1740819600, 0⟩
    let w : World Files := ⟨{}, begun, 0, 4, 0⟩
    let calls : List (Instant × Deed) :=
      [(begun, .acquire "x" 1500), (⟨1740819590, 0⟩, .renew "x"), (⟨1740819601, 500000000⟩, .acquire "y" 7)]
    (slotAt (after root "a" w calls).store (path root "a")).owner? = some "x" ∧
      Answers root "a" { after root "a" w calls with clock := ⟨1740819601, 500000001⟩ } := by
  intro root begun w calls
  have hcalls : AllSensible root "a" w calls := by decide +kernel
  obtain ⟨hanswers, hkept⟩ := lock_kept (by decide) rfl rfl hcalls
  refine ⟨hkept [] begun "x" 1500 (calls.drop 1) rfl (by decide +kernel) ?_,
    hanswers _ (by decide) (by decide)⟩
  intro mid call rest heq
  rcases mid with _ | ⟨first, _ | ⟨second, mid⟩⟩
  · obtain ⟨rfl, -⟩ := List.cons.inj heq
    exact id
  · obtain ⟨rfl, hrest⟩ := List.cons.inj heq
    obtain ⟨rfl, -⟩ := List.cons.inj hrest
    rintro ⟨-, r, hr, hstale⟩
    have hfresh : (slotAt (after root "a" w
        [(begun, .acquire "x" 1500), (⟨1740819590, 0⟩, .renew "x")]).store (path root "a")).IsFresh
          { clock := some ⟨1740819601, 500000000⟩ } := by decide +kernel
    exact Bool.noConfusion ((hfresh r _ hr rfl).symm.trans hstale)
  · have hlen := congrArg List.length heq
    simp [calls] at hlen

end Locks

end Workboard
