import Workboard.Proofs.Board.Lone
import Workboard.Proofs.Board.Steps
import Workboard.Proofs.Interleaving.Stretches

/-!
# A claim and a cancellation of one task

A claim reads the record of its task again under the lock and then saves it; a cancellation
heeds no lock. So the claimer can have read the record before it is cancelled and save it
afterwards: the cancelled task is active again, and its lock is gone. This is the only way
in which the cancellation is lost. Main statement: when both have returned and the task was
cancelled, the record says so, unless the claimer saved it after the canceller; no lock
file that can be read is left in either case.
-/
namespace Workboard

section Order
variable {α : Type} {P Q : α → Prop} {l : List α} {x : α}

/-- Something like `Q` happened when something like `P` had happened before. -/
def After (P Q : α → Prop) (l : List α) : Prop :=
  ∃ before x later, l = before ++ x :: later ∧ (∃ y ∈ before, P y) ∧ Q x

theorem After.exists_first (h : After P Q l) : ∃ y ∈ l, P y := by
  obtain ⟨before, x, later, rfl, ⟨y, hy, hp⟩, -⟩ := h
  exact ⟨y, List.mem_append_left _ hy, hp⟩

theorem After.exists_second (h : After P Q l) : ∃ x ∈ l, Q x := by
  obtain ⟨before, x, later, rfl, -, hq⟩ := h
  exact ⟨x, by simp, hq⟩

/-- The last thing that happened comes after all others. -/
theorem after_concat : After P Q (l ++ [x]) ↔ After P Q l ∨ (∃ y ∈ l, P y) ∧ Q x := by
  constructor
  · rintro ⟨before, z, later, heq, hp, hq⟩
    rcases List.eq_nil_or_concat later with rfl | ⟨later, w, rfl⟩
    · obtain ⟨rfl, h⟩ := List.append_inj' heq rfl
      obtain rfl := List.singleton_inj.mp h
      exact .inr ⟨hp, hq⟩
    · rw [List.concat_eq_append, ← List.cons_append, ← List.append_assoc] at heq
      obtain ⟨rfl, -⟩ := List.append_inj' heq rfl
      exact .inl ⟨before, z, later, rfl, hp, hq⟩
  · rintro (⟨before, z, later, rfl, hp, hq⟩ | ⟨hp, hq⟩)
    · exact ⟨before, z, later ++ [x], by simp, hp, hq⟩
    · exact ⟨l, x, [], rfl, hp, hq⟩

end Order

namespace Board

inductive Side where
  | claimer
  | canceller
deriving DecidableEq

/-- One claim and one cancellation of a task. -/
def race (b : Board) (id owner : String) : Rules Side Unit (Except Error Task) where
  body
    | .claimer, _ => (b.claim id owner).run
    | .canceller, _ => (b.cancel id).run
  may _ past _ := past = []
  permit
    | .claimer, m, c, _ => Legible (Task.started · owner) m c
    | .canceller, m, c, _ => Legible Task.dropped m c

section Race
variable (b : Board) (id owner : String)

/-- The party puts a new record of the task in its place. -/
def Saves (side : Side) (x : Side × Call) : Prop :=
  x.1 = side ∧ ∃ source, x.2 = .rename source (Records.path b.root id)

/-- The claimer tries to create the lock of the task. -/
def TakesLock (x : Side × Call) : Prop :=
  x.1 = .claimer ∧ ∃ text, x.2 = .createNew (Locks.path b.root id) text

/-- The party has saved the task. -/
def Saved (side : Side) (calls : List (Side × Call)) : Prop := ∃ x ∈ calls, b.Saves id side x

/-- The claimer saved the task after the canceller did. -/
def Overtakes (calls : List (Side × Call)) : Prop :=
  After (b.Saves id .canceller) (b.Saves id .claimer) calls

/-- The lock was created after the canceller saved the task. -/
def LocksLate (calls : List (Side × Call)) : Prop :=
  After (b.Saves id .canceller) (b.TakesLock id) calls

/-- The text of a lock. -/
def lockTextAt (f : Files) : Option String := f.text? (Locks.path b.root id).names

/-- The record is as the last one left it who saved it, and a lock is the claimer's. -/
structure Coherent (v : Sight Side) : Prop where
  refusing : v.files.refusing = []
  lock : b.lockTextAt id v.files = none ∨
    ∃ r : LockRecord, r.owner = owner ∧ b.lockTextAt id v.files = some r.render
  started : b.Saved id .claimer v.calls →
    (b.Saved id .canceller v.calls → b.Overtakes id v.calls) →
    ∃ u, Records.loadAt v.files b.root id = .ok u ∧ u.state = .active ∧ u.assignedTo = some owner
  dropped : b.Saved id .canceller v.calls → ¬ b.Overtakes id v.calls →
    ∃ u, Records.loadAt v.files b.root id = .ok u ∧ u.state = .cancelled

/-- What the claimer relies on: the canceller does not save for it, and does nothing to the
lock but to remove it. -/
structure ClaimerLeft (v u : Sight Side) : Prop where
  saved : b.Saved id .claimer u.calls ↔ b.Saved id .claimer v.calls
  late : b.LocksLate id u.calls ↔ b.LocksLate id v.calls
  lock : b.lockTextAt id u.files = b.lockTextAt id v.files ∨ b.lockTextAt id u.files = none
  coherent : b.Coherent id owner v → b.Coherent id owner u

/-- What the canceller relies on: the claimer does not save for it, and a lock it creates
after the canceller saved is late. -/
structure CancellerLeft (v u : Sight Side) : Prop where
  saved : b.Saved id .canceller u.calls ↔ b.Saved id .canceller v.calls
  late : b.LocksLate id v.calls → b.LocksLate id u.calls
  lock : b.Saved id .canceller v.calls → b.lockTextAt id v.files = none →
    b.lockTextAt id u.files = none ∨ b.LocksLate id u.calls
  coherent : b.Coherent id owner v → b.Coherent id owner u

variable {b id owner} {v u : Sight Side} {side i : Side} {c : Call} {g : Files}

section Calls

@[simp] theorem saves_rename {source : Path} :
    b.Saves id side (i, .rename source (Records.path b.root id)) ↔ i = side := by
  simp [Saves]

theorem not_saves_of_shy {token : Option String} (h : c.Shy token) : ¬ b.Saves id side (i, c) := by
  rintro ⟨-, source, rfl⟩
  rcases h with h | ⟨t, p, -, -, ⟨s, h⟩ | h⟩
  · exact h
  · cases h
  · cases h

theorem not_takesLock_of_shy {token : Option String} (h : c.Shy token) :
    ¬ b.TakesLock id (i, c) := by
  rintro ⟨-, text, rfl⟩
  rcases h with h | ⟨t, p, -, -, ⟨s, h⟩ | h⟩
  · exact h
  · cases h
  · cases h

theorem saved_concat {calls : List (Side × Call)} {x : Side × Call} :
    b.Saved id side (calls ++ [x]) ↔ b.Saved id side calls ∨ b.Saves id side x := by
  simp [Saved, or_and_right, exists_or]

theorem overtakes_concat {calls : List (Side × Call)} {x : Side × Call} :
    b.Overtakes id (calls ++ [x]) ↔
      b.Overtakes id calls ∨ b.Saved id .canceller calls ∧ b.Saves id .claimer x := after_concat

theorem locksLate_concat {calls : List (Side × Call)} {x : Side × Call} :
    b.LocksLate id (calls ++ [x]) ↔
      b.LocksLate id calls ∨ b.Saved id .canceller calls ∧ b.TakesLock id x := after_concat

theorem Overtakes.saved_claimer {calls : List (Side × Call)} (h : b.Overtakes id calls) :
    b.Saved id .claimer calls := After.exists_second h

theorem Overtakes.saved_canceller {calls : List (Side × Call)} (h : b.Overtakes id calls) :
    b.Saved id .canceller calls := After.exists_first h

theorem LocksLate.saved_canceller {calls : List (Side × Call)} (h : b.LocksLate id calls) :
    b.Saved id .canceller calls := After.exists_first h

end Calls

section Calm
variable (b id)

/-- Nobody has saved the task or created its lock; the lock may be gone. -/
structure Calm (v u : Sight Side) : Prop where
  saved : ∀ side, b.Saved id side u.calls ↔ b.Saved id side v.calls
  overtakes : b.Overtakes id u.calls ↔ b.Overtakes id v.calls
  late : b.LocksLate id u.calls ↔ b.LocksLate id v.calls
  refusing : u.files.refusing = v.files.refusing
  lock : b.lockTextAt id u.files = b.lockTextAt id v.files ∨ b.lockTextAt id u.files = none
  record : b.recordAt u.files id = b.recordAt v.files id

variable {b id}

theorem calm_after (hsaves : ∀ side, ¬ b.Saves id side (i, c)) (htakes : ¬ b.TakesLock id (i, c))
    (hrefusing : g.refusing = v.files.refusing)
    (hlock : b.lockTextAt id g = b.lockTextAt id v.files ∨ b.lockTextAt id g = none)
    (hrecord : b.recordAt g id = b.recordAt v.files id) : b.Calm id v (v.after i c g) := by
  refine ⟨fun side => ?_, ?_, ?_, hrefusing, hlock, hrecord⟩
  · rw [Sight.calls_after, saved_concat, or_iff_left (hsaves side)]
  · rw [Sight.calls_after, overtakes_concat, or_iff_left fun h => hsaves .claimer h.2]
  · rw [Sight.calls_after, locksLate_concat, or_iff_left fun h => htakes h.2]

theorem calm_of_shy {token : Option String} (hshy : c.Shy token) (hsame : v.files.SamePublic g) :
    b.Calm id v (v.after i c g) :=
  calm_after (fun _ => not_saves_of_shy hshy) (not_takesLock_of_shy hshy) hsame.refusing
    (.inl (hsame.text _ (Locks.isPublic_path b.root id)))
    (hsame.text _ (Records.isPublic_path b.root id))

/-- Whoever removes the lock does nothing else. -/
theorem calm_unlocked : b.Calm id v (v.after i (.remove (Locks.path b.root id))
    (v.files.erase (Locks.path b.root id).names)) := by
  refine calm_after (fun side => ?_) ?_ rfl (.inr text?_lock_unlocked) (recordAt_unlocked id)
  · rintro ⟨-, source, h⟩
    cases h
  · rintro ⟨-, text, h⟩
    cases h

/-- To find no lock to remove changes nothing either. -/
theorem calm_remove : b.Calm id v (v.after i (.remove (Locks.path b.root id)) v.files) := by
  refine calm_after (fun side => ?_) ?_ rfl (.inl rfl) rfl
  · rintro ⟨-, source, h⟩
    cases h
  · rintro ⟨-, text, h⟩
    cases h

theorem Calm.coherent (h : b.Calm id v u) (hv : b.Coherent id owner v) : b.Coherent id owner u := by
  have hload := Records.loadAt_congr h.record
  refine ⟨h.refusing.trans hv.refusing, ?_, fun hk ho => ?_, fun hs ho => ?_⟩
  · rcases h.lock with hlock | hlock
    · rw [hlock]
      exact hv.lock
    · exact .inl hlock
  · rw [hload]
    rw [h.saved, h.overtakes] at ho
    exact hv.started ((h.saved _).mp hk) ho
  · rw [hload]
    exact hv.dropped ((h.saved _).mp hs) fun h' => ho (h.overtakes.mpr h')

theorem Calm.claimerLeft (h : b.Calm id v u) : b.ClaimerLeft id owner v u :=
  ⟨h.saved _, h.late, h.lock, h.coherent⟩

theorem Calm.cancellerLeft (h : b.Calm id v u) : b.CancellerLeft id owner v u := by
  refine ⟨h.saved _, h.late.mpr, fun _ hnone => .inl ?_, h.coherent⟩
  rcases h.lock with hlock | hlock
  · rw [hlock, hnone]
  · exact hlock

end Calm

section Steps
variable {r : LockRecord} {token : String} {t : Task}

/-- The claimer creates the lock. -/
theorem coherent_locked (hv : b.Coherent id owner v) (hr : r.owner = owner) :
    b.Coherent id owner (v.after .claimer (.createNew (Locks.path b.root id) r.render)
      (v.files.put (Locks.path b.root id).names r.render)) := by
  have hsaves : ∀ side, ¬ b.Saves id side (.claimer, .createNew (Locks.path b.root id) r.render) := by
    rintro side ⟨-, source, h⟩
    cases h
  have hload : Records.loadAt (v.files.put (Locks.path b.root id).names r.render) b.root id =
      Records.loadAt v.files b.root id := Records.loadAt_congr (recordAt_taken id)
  refine ⟨hv.refusing, .inr ⟨r, hr, ?_⟩, fun hk ho => ?_, fun hs ho => ?_⟩
  · rw [Sight.files_after, lockTextAt, Files.text?_put, if_pos rfl]
  · rw [Sight.calls_after, saved_concat, or_iff_left (hsaves _)] at hk ho
    rw [overtakes_concat, or_iff_left fun h => hsaves _ h.2] at ho
    rw [Sight.files_after, hload]
    exact hv.started hk ho
  · rw [Sight.calls_after, saved_concat, or_iff_left (hsaves _)] at hs
    rw [Sight.calls_after, overtakes_concat, or_iff_left fun h => hsaves _ h.2] at ho
    rw [Sight.files_after, hload]
    exact hv.dropped hs ho

/-- For the canceller that is early enough, or the lock is late. -/
theorem cancellerLeft_locked (hv : b.Coherent id owner v) (hr : r.owner = owner) :
    b.CancellerLeft id owner v (v.after .claimer (.createNew (Locks.path b.root id) r.render)
      (v.files.put (Locks.path b.root id).names r.render)) := by
  have htakes : b.TakesLock id (.claimer, .createNew (Locks.path b.root id) r.render) :=
    ⟨rfl, r.render, rfl⟩
  refine ⟨?_, fun h => locksLate_concat.mpr (.inl h),
    fun hs _ => .inr (locksLate_concat.mpr (.inr ⟨hs, htakes⟩)), fun _ => coherent_locked hv hr⟩
  rw [Sight.calls_after, saved_concat]
  refine or_iff_left ?_
  rintro ⟨h, -⟩
  cases h

/-- The record that somebody has saved is found. -/
theorem loadAt_saved (hid : isValidId id = true) (ht : t.id = id)
    (hparse : Record.parse (Record.render t) = .ok t) {f : Files} :
    Records.loadAt (Protocol.renamed f ((Records.path b.root id).staged token).names
      (Records.path b.root id).names (Record.render t)) b.root id = .ok t := by
  have hread := Records.read_render hparse
  rw [ht] at hread
  refine Records.loadAt_eq_ok.mpr ⟨hid, _, ?_, hread⟩
  exact recordAt_saved id |>.trans (if_pos rfl)

section Claimer
variable {now : Instant} (hid : isValidId id = true) (ht : t.id = id)
  (hparse : Record.parse (Record.render (t.started owner now)) = .ok (t.started owner now))
include hid ht hparse

/-- The claimer saves the task. -/
theorem coherent_started (hv : b.Coherent id owner v) :
    b.Coherent id owner (v.after .claimer (.rename ((Records.path b.root id).staged token)
        (Records.path b.root id))
      (Protocol.renamed v.files ((Records.path b.root id).staged token).names
        (Records.path b.root id).names (Record.render (t.started owner now)))) := by
  refine ⟨hv.refusing, ?_, fun _ _ => ?_, fun hs ho => ?_⟩
  · rw [Sight.files_after, lockTextAt, text?_lock_saved]
    exact hv.lock
  · exact ⟨_, loadAt_saved hid (by simpa using ht) hparse, rfl, rfl⟩
  · -- the canceller cannot have saved before
    rw [Sight.calls_after, saved_concat] at hs
    rw [Sight.calls_after, overtakes_concat] at ho
    refine absurd ?_ ho
    rcases hs with hs | ⟨h, -⟩
    · exact .inr ⟨hs, saves_rename.mpr rfl⟩
    · cases h

theorem cancellerLeft_started (hv : b.Coherent id owner v) :
    b.CancellerLeft id owner v (v.after .claimer (.rename ((Records.path b.root id).staged token)
        (Records.path b.root id))
      (Protocol.renamed v.files ((Records.path b.root id).staged token).names
        (Records.path b.root id).names (Record.render (t.started owner now)))) := by
  refine ⟨?_, fun h => locksLate_concat.mpr (.inl h), fun _ hnone => .inl ?_,
    fun _ => coherent_started hid ht hparse hv⟩
  · rw [Sight.calls_after, saved_concat, or_iff_left]
    exact fun h => nomatch saves_rename.mp h
  · rw [Sight.files_after, lockTextAt, text?_lock_saved]
    exact hnone

end Claimer

section Canceller
variable {now : Instant} (hid : isValidId id = true) (ht : t.id = id)
  (hparse : Record.parse (Record.render (t.dropped now)) = .ok (t.dropped now))
include hid ht hparse

/-- The canceller saves the task, for the first time. -/
theorem coherent_dropped (hv : b.Coherent id owner v) (hnew : ¬ b.Saved id .canceller v.calls) :
    b.Coherent id owner (v.after .canceller (.rename ((Records.path b.root id).staged token)
        (Records.path b.root id))
      (Protocol.renamed v.files ((Records.path b.root id).staged token).names
        (Records.path b.root id).names (Record.render (t.dropped now)))) := by
  refine ⟨hv.refusing, ?_, fun _ ho => ?_, fun _ _ => ?_⟩
  · rw [Sight.files_after, lockTextAt, text?_lock_saved]
    exact hv.lock
  · -- nothing the claimer did came after a save of the canceller
    rw [Sight.calls_after, saved_concat, overtakes_concat] at ho
    rcases ho (.inr (saves_rename.mpr rfl)) with ho | ⟨hs, -⟩
    · exact absurd ho.saved_canceller hnew
    · exact absurd hs hnew
  · exact ⟨_, loadAt_saved hid (by simpa using ht) hparse, rfl⟩

theorem claimerLeft_dropped (hv : b.Coherent id owner v) (hnew : ¬ b.Saved id .canceller v.calls) :
    b.ClaimerLeft id owner v (v.after .canceller (.rename ((Records.path b.root id).staged token)
        (Records.path b.root id))
      (Protocol.renamed v.files ((Records.path b.root id).staged token).names
        (Records.path b.root id).names (Record.render (t.dropped now)))) := by
  refine ⟨?_, ?_, .inl ?_, fun _ => coherent_dropped hid ht hparse hv hnew⟩
  · rw [Sight.calls_after, saved_concat, or_iff_left]
    exact fun h => nomatch saves_rename.mp h
  · rw [Sight.calls_after, locksLate_concat, or_iff_left]
    rintro ⟨-, h, -⟩
    cases h
  · rw [Sight.files_after, lockTextAt, text?_lock_saved]
    rfl

end Canceller

end Steps

section Protocol
variable (b id owner)

/-- The protocol of the two parties. -/
def racing : Protocol Side where
  rely
    | .claimer => b.ClaimerLeft id owner
    | .canceller => b.CancellerLeft id owner
  refl
    | .claimer, _ => ⟨.rfl, .rfl, .inl rfl, fun h => h⟩
    | .canceller, _ => ⟨.rfl, fun h => h, fun _ h => .inl h, fun h => h⟩
  trans := by
    rintro (_ | _) u v w huv hvw
    · refine ⟨hvw.saved.trans huv.saved, hvw.late.trans huv.late, ?_,
        fun h => hvw.coherent (huv.coherent h)⟩
      rcases hvw.lock with hlock | hlock
      · rw [hlock]
        exact huv.lock
      · exact .inr hlock
    · refine ⟨hvw.saved.trans huv.saved, fun h => hvw.late (huv.late h), fun hs hnone => ?_,
        fun h => hvw.coherent (huv.coherent h)⟩
      rcases huv.lock hs hnone with hnone | hlate
      · exact hvw.lock (huv.saved.mpr hs) hnone
      · exact .inr (hvw.late hlate)
  shy := by
    rintro i (_ | _) v c g token hshy hsame
    · exact (calm_of_shy hshy hsame).claimerLeft
    · exact (calm_of_shy hshy hsame).cancellerLeft

variable {b id owner}

theorem rely_of_cancellerLeft (h : b.CancellerLeft id owner v u) :
    ∀ j, j ≠ Side.claimer → (b.racing id owner).rely j v u := by
  intro j hj
  cases j with
  | claimer => exact absurd rfl hj
  | canceller => exact h

theorem rely_of_claimerLeft (h : b.ClaimerLeft id owner v u) :
    ∀ j, j ≠ Side.canceller → (b.racing id owner).rely j v u := by
  intro j hj
  cases j with
  | claimer => exact h
  | canceller => exact absurd rfl hj

end Protocol

section Claimer
variable (b id owner)

/-- What the claimer knows before it has the lock. -/
structure Waiting (v : Sight Side) : Prop where
  coherent : b.Coherent id owner v
  unsaved : ¬ b.Saved id .claimer v.calls
  unlocked : b.lockTextAt id v.files = none
  early : ¬ b.LocksLate id v.calls

/-- What it knows under the lock. -/
structure Locked (v : Sight Side) : Prop where
  coherent : b.Coherent id owner v
  unsaved : ¬ b.Saved id .claimer v.calls

/-- What it knows once it has found the task in todo under the lock. -/
structure Ready (v : Sight Side) : Prop extends b.Locked id owner v where
  early : ¬ b.LocksLate id v.calls

/-- What it knows after a claim that was successful. -/
structure Claimed (v : Sight Side) : Prop where
  coherent : b.Coherent id owner v
  saved : b.Saved id .claimer v.calls
  early : ¬ b.LocksLate id v.calls

/-- What it knows after a claim that was not. -/
structure Repelled (v : Sight Side) : Prop where
  coherent : b.Coherent id owner v
  unsaved : ¬ b.Saved id .claimer v.calls
  unlocked : ∀ text, b.lockTextAt id v.files = some text → ¬ Locks.Slot.IsReadable text

variable {b id owner} {m : Memo} {t : Task}

theorem stable_waiting : (b.racing id owner).Stable .claimer (b.Waiting id owner) := by
  intro v u hrely h
  refine ⟨hrely.coherent h.coherent, mt hrely.saved.mp h.unsaved, ?_, mt hrely.late.mp h.early⟩
  rcases hrely.lock with hlock | hlock
  · rw [hlock, h.unlocked]
  · exact hlock

theorem stable_locked : (b.racing id owner).Stable .claimer (b.Locked id owner) :=
  fun _ _ hrely h => ⟨hrely.coherent h.coherent, mt hrely.saved.mp h.unsaved⟩

theorem stable_ready : (b.racing id owner).Stable .claimer (b.Ready id owner) :=
  fun v u hrely h => ⟨stable_locked v u hrely h.toLocked, mt hrely.late.mp h.early⟩

theorem stable_claimed : (b.racing id owner).Stable .claimer (b.Claimed id owner) :=
  fun _ _ hrely h => ⟨hrely.coherent h.coherent, hrely.saved.mpr h.saved, mt hrely.late.mp h.early⟩

theorem stable_repelled : (b.racing id owner).Stable .claimer (b.Repelled id owner) := by
  intro v u hrely h
  refine ⟨hrely.coherent h.coherent, mt hrely.saved.mp h.unsaved, fun text htext => ?_⟩
  rcases hrely.lock with hlock | hlock
  · exact h.unlocked text (hlock ▸ htext)
  · rw [hlock] at htext
    cases htext

theorem Waiting.repelled (h : b.Waiting id owner v) : b.Repelled id owner v := by
  refine ⟨h.coherent, h.unsaved, fun text htext => ?_⟩
  rw [h.unlocked] at htext
  cases htext

/-- A task that is found in todo has not been cancelled yet, and the lock was not late. -/
theorem Locked.ready (h : b.Locked id owner v) (ht : Records.loadAt v.files b.root id = .ok t)
    (htodo : t.state = .todo) : b.Ready id owner v := by
  refine ⟨h, fun hlate => ?_⟩
  obtain ⟨u, hu, hcancelled⟩ :=
    h.coherent.dropped hlate.saved_canceller fun ho => h.unsaved ho.saved_claimer
  obtain rfl := Except.ok.inj (ht.symm.trans hu)
  rw [htodo] at hcancelled
  cases hcancelled

/-- The lock is free for the claimer. -/
theorem keeps_acquire_race {post : Except Error Bool → Memo → Sight Side → Prop} {timeout : Duration}
    (hv : b.Waiting id owner v) (htaken : ∀ m u, b.Locked id owner u → post (.ok true) m u)
    (herr : ∀ e m u, b.Waiting id owner u → post (.error e) m u) :
    (b.racing id owner).Keeps .claimer ((b.race id owner).permit .claimer) (fun _ => True) post
      (Locks.acquire b.root id owner timeout).run m v := by
  rw [Locks.acquire_eq]
  split
  · exact Protocol.keeps_throw (herr _ m v hv)
  split
  · exact Protocol.keeps_throw (herr _ m v hv)
  split
  · exact Protocol.keeps_throw (herr _ m v hv)
  refine Protocol.keeps_bind (Protocol.keeps_now stable_waiting (fun _ _ => trivial) hv
    fun now u hu => ?_)
  refine Protocol.keeps_bind (Protocol.keeps_createNew stable_waiting (fun _ _ => trivial)
    (Locks.isPublic_path b.root id) hu ?_ ?_ ?_)
  · intro u hu _ _
    refine ⟨rely_of_cancellerLeft (cancellerLeft_locked hu.coherent rfl),
      htaken _ _ ⟨coherent_locked hu.coherent rfl, ?_⟩⟩
    rw [Sight.calls_after, saved_concat]
    rintro (h | ⟨-, source, h⟩)
    · exact hu.unsaved h
    · cases h
  · intro u hu hsome
    have hnone := hu.unlocked
    rw [lockTextAt] at hnone
    rw [hnone] at hsome
    cases hsome
  · intro u hu href
    rw [hu.coherent.refusing] at href
    cases href

/-- Under the lock the claimer reads the task again and starts it, if it is in todo. -/
theorem keeps_start_race (hid : isValidId id = true) {post : Except Error Task → Memo → Sight Side → Prop}
    (hv : b.Locked id owner v) (hok : ∀ t m u, b.Claimed id owner u → post (.ok t) m u)
    (herr : ∀ e m u, b.Locked id owner u → post (.error e) m u) :
    (b.racing id owner).Keeps .claimer ((b.race id owner).permit .claimer) (fun _ => True) post
      (b.start id owner).run m v := by
  rw [start_eq]
  refine Protocol.keeps_bind (Records.keeps_load stable_locked (fun _ _ => trivial) hv
    fun m u hu _ hrecalls => ?_)
  cases ht : Records.loadAt u.files b.root id with
  | error e => exact herr e m u hu
  | ok t =>
    have hrecalled := hrecalls t ht
    obtain ⟨-, content, -, hread⟩ := Records.loadAt_eq_ok.mp ht
    have htid : t.id = id := Records.id_of_read hread
    by_cases htodo : t.state = .todo
    · have hready := hu.ready ht htodo
      refine Protocol.keeps_bind (Protocol.keeps_now stable_ready (fun _ _ => trivial) hready
        fun now w hw => ?_)
      refine Protocol.keeps_bind (Protocol.keeps_settle ?_)
      rw [Task.move_active now htodo]
      change (b.racing id owner).Keeps .claimer _ _ post
        (Records.save b.root (t.started owner now) >>= fun _ => pure (t.started owner now)).run _ w
      rw [Records.save, Task.id_started, htid]
      refine Protocol.keeps_bind (Protocol.keeps_bind (Locks.keeps_checkId (fun _ => ?_)
        fun h => absurd (hid.symm.trans h) Bool.noConfusion))
      refine Protocol.keeps_replace
        (W := Record.parse (Record.render (t.started owner now)) = .ok (t.started owner now))
        stable_ready (fun _ _ => trivial) (Records.isPublic_path _ _) hw ?_ ?_ ?_ ?_
      · exact fun token f hp => hp t now hrecalled rfl rfl
      · intro x token hx hparse _
        refine ⟨rely_of_cancellerLeft (cancellerLeft_started hid htid hparse hx.coherent),
          fun m => hok _ m _ ⟨coherent_started hid htid hparse hx.coherent, ?_, ?_⟩⟩
        · exact saved_concat.mpr (.inr (saves_rename.mpr rfl))
        · rw [Sight.calls_after, locksLate_concat]
          rintro (h | ⟨-, -, text, h⟩)
          · exact hx.early h
          · cases h
      · intro x token hx href
        rw [hx.coherent.refusing] at href
        cases href
      · exact fun x hx hne => absurd hx.coherent.refusing hne
    · refine Protocol.keeps_bind (Protocol.keeps_now stable_locked (fun _ _ => trivial) hu
        fun now w hw => ?_)
      refine Protocol.keeps_bind (Protocol.keeps_settle ?_)
      cases hmove : t.move .active { lockHeld := true } now with
      | ok moved => exact absurd (Task.eq_todo_of_move_active now hmove) htodo
      | error e => exact herr e _ w hw

/-- A claimer that could not start the task removes its lock, if it can be read. -/
theorem keeps_release_race (hid : isValidId id = true)
    {post : Except Error Bool → Memo → Sight Side → Prop} (hv : b.Locked id owner v)
    (hpost : ∀ r m u, b.Repelled id owner u → post r m u) :
    (b.racing id owner).Keeps .claimer ((b.race id owner).permit .claimer) (fun _ => True) post
      (Locks.release b.root id owner).run m v := by
  refine Protocol.keeps_bind (Locks.keeps_checkId (fun _ => ?_)
    fun h => absurd (hid.symm.trans h) Bool.noConfusion)
  refine Protocol.keeps_bind (Locks.keeps_slot stable_locked (fun _ _ => trivial) hv
    fun u hseen _ hu => ?_)
  cases hs : Locks.slotAt u.files (Locks.path b.root id) with
  | missing =>
    refine hpost _ _ _ ⟨hu.coherent, hu.unsaved, fun text htext => ?_⟩
    rw [lockTextAt, Sight.files_after, Locks.slotAt_eq_missing.mp hs] at htext
    cases htext
  | unreadable reason =>
    refine hpost _ _ _ ⟨hu.coherent, hu.unsaved, fun text htext => ?_⟩
    rw [Locks.slotAt_of_text? (f := u.files) htext] at hs
    rintro ⟨r, hr⟩
    rw [hr] at hs
    cases hs
  | held r =>
    have howner : r.owner = owner := by
      rcases hseen.coherent.lock with hnone | ⟨r', hr', htext⟩
      · rw [Locks.slotAt_eq_missing.mpr hnone] at hs
        cases hs
      · rw [Locks.slotAt_of_text? htext] at hs
        rw [(Locks.Slot.names_of_ofText_render hs).2, hr']
    simp only [Protocol.Then, if_pos howner]
    refine Protocol.keeps_remove stable_locked (fun _ _ => trivial) (Locks.isPublic_path b.root id)
      hu ?_ ?_
    · intro w hw _
      have hcalm : b.Calm id w (w.after .claimer _ _) := calm_unlocked
      refine ⟨rely_of_cancellerLeft hcalm.cancellerLeft, hpost _ _ _ ⟨hcalm.coherent hw.coherent,
        mt (hcalm.saved _).mp hw.unsaved, fun text htext => ?_⟩⟩
      rw [Sight.files_after, lockTextAt, text?_lock_unlocked] at htext
      cases htext
    · intro w hw hnone
      have hcalm : b.Calm id w (w.after .claimer _ _) := calm_remove
      refine ⟨rely_of_cancellerLeft hcalm.cancellerLeft, hpost _ _ _ ⟨hcalm.coherent hw.coherent,
        mt (hcalm.saved _).mp hw.unsaved, fun text htext => ?_⟩⟩
      rw [Sight.files_after, lockTextAt, hnone] at htext
      cases htext

/-- A claim that is not successful leaves no lock that can be read. -/
theorem keeps_claim_race {post : Except Error Task → Memo → Sight Side → Prop}
    (hv : b.Waiting id owner v) (hok : ∀ t m u, b.Claimed id owner u → post (.ok t) m u)
    (herr : ∀ e m u, b.Repelled id owner u → post (.error e) m u) :
    (b.racing id owner).Keeps .claimer ((b.race id owner).permit .claimer) (fun _ => True) post
      (b.claim id owner).run m v := by
  rw [claim_eq]
  refine Protocol.keeps_bind (Records.keeps_load stable_waiting (fun _ _ => trivial) hv
    fun m u hu _ _ => ?_)
  cases ht : Records.loadAt u.files b.root id with
  | error e => exact herr e m u hu.repelled
  | ok t =>
    have hid : isValidId id = true := (Records.loadAt_eq_ok.mp ht).1
    simp only [Protocol.Then]
    split
    · exact Protocol.keeps_throw (herr _ m u hu.repelled)
    refine Protocol.keeps_bind (Protocol.keeps_of_quiet (Records.quiet_scan b.root) stable_waiting
      (fun _ _ => trivial) hu fun r m w hw => ?_)
    rcases r with e | all
    · exact herr e m w hw.repelled
    simp only [Protocol.Then]
    split
    · exact Protocol.keeps_throw (herr _ m w hw.repelled)
    refine Protocol.keeps_bind (Locks.keeps_owns hid stable_waiting (fun _ _ => trivial) hw
      fun x m w hx hw => ?_)
    -- nobody has a lock, so the claimer has none either
    rw [Locks.slotAt_eq_missing.mpr hx.unlocked]
    refine Protocol.keeps_bind (keeps_acquire_race hw (fun m w hw => ?_) fun e m w hw =>
      herr e m w hw.repelled)
    refine Protocol.keeps_bind (Protocol.keeps_attempt (keeps_start_race hid hw
      (fun t m w hw => hok t m w hw) fun e m w hw => ?_))
    exact Protocol.keeps_bind (Protocol.keeps_attempt (keeps_release_race hid hw
      fun r m w hw => herr e m w hw))

end Claimer

section Canceller
variable (b id owner)

/-- What the canceller knows once it has saved the task. -/
structure Cancelled (v : Sight Side) : Prop where
  coherent : b.Coherent id owner v
  saved : b.Saved id .canceller v.calls

/-- What it knows in the end: there is no lock, or one that was created late. -/
structure Swept (v : Sight Side) : Prop extends b.Cancelled id owner v where
  unlocked : b.lockTextAt id v.files = none ∨ b.LocksLate id v.calls

variable {b id owner} {m : Memo}

theorem stable_uncancelled : (b.racing id owner).Stable .canceller
    fun v => b.Coherent id owner v ∧ ¬ b.Saved id .canceller v.calls :=
  fun _ _ hrely h => ⟨hrely.coherent h.1, mt hrely.saved.mp h.2⟩

theorem stable_cancelled : (b.racing id owner).Stable .canceller (b.Cancelled id owner) :=
  fun _ _ hrely h => ⟨hrely.coherent h.coherent, hrely.saved.mpr h.saved⟩

theorem stable_swept : (b.racing id owner).Stable .canceller (b.Swept id owner) := by
  intro v u hrely h
  refine ⟨stable_cancelled v u hrely h.toCancelled, ?_⟩
  rcases h.unlocked with hnone | hlate
  · exact hrely.lock h.saved hnone
  · exact .inr (hrely.late hlate)

/-- The lock that is there is removed, be it the claimer's or not. -/
theorem keeps_forceRelease_race (hid : isValidId id = true)
    {post : Except Error (Option LockRecord) → Memo → Sight Side → Prop}
    (hv : b.Cancelled id owner v) (hpost : ∀ r? m u, b.Swept id owner u → post (.ok r?) m u) :
    (b.racing id owner).Keeps .canceller ((b.race id owner).permit .canceller) (fun _ => True) post
      (Locks.forceRelease b.root id).run m v := by
  have hremove : ∀ {m u} (r? : Option LockRecord), b.Cancelled id owner u →
      (b.racing id owner).Keeps .canceller ((b.race id owner).permit .canceller) (fun _ => True) post
        (Action.orFail (Action.remove (Locks.path b.root id)) >>= fun _ => pure r?).run m u := by
    intro m u r? hu
    refine Protocol.keeps_bind (Protocol.keeps_remove stable_cancelled (fun _ _ => trivial)
      (Locks.isPublic_path b.root id) hu ?_ ?_)
    · intro w hw _
      have hcalm : b.Calm id w (w.after .canceller _ _) := calm_unlocked
      exact ⟨rely_of_claimerLeft hcalm.claimerLeft, hpost r? _ _ ⟨⟨hcalm.coherent hw.coherent,
        (hcalm.saved _).mpr hw.saved⟩, .inl text?_lock_unlocked⟩⟩
    · intro w hw hnone
      have hcalm : b.Calm id w (w.after .canceller _ _) := calm_remove
      exact ⟨rely_of_claimerLeft hcalm.claimerLeft, hpost r? _ _ ⟨⟨hcalm.coherent hw.coherent,
        (hcalm.saved _).mpr hw.saved⟩, .inl hnone⟩⟩
  refine Protocol.keeps_bind (Locks.keeps_checkId (fun _ => ?_)
    fun h => absurd (hid.symm.trans h) Bool.noConfusion)
  refine Protocol.keeps_bind (Locks.keeps_slot stable_cancelled (fun _ _ => trivial) hv
    fun u _ _ hu => ?_)
  cases hs : Locks.slotAt u.files (Locks.path b.root id) with
  | missing => exact hpost _ _ _ ⟨hu, .inl (Locks.slotAt_eq_missing.mp hs)⟩
  | held r => exact hremove _ hu
  | unreadable reason => exact hremove _ hu

/-- A cancellation saves the task and then removes the lock. -/
theorem keeps_cancel_race {post : Except Error Task → Memo → Sight Side → Prop}
    (hv : b.Coherent id owner v ∧ ¬ b.Saved id .canceller v.calls)
    (hok : ∀ t m u, b.Swept id owner u → post (.ok t) m u) (herr : ∀ e m u, post (.error e) m u) :
    (b.racing id owner).Keeps .canceller ((b.race id owner).permit .canceller) (fun _ => True) post
      (b.cancel id).run m v := by
  refine Protocol.keeps_bind (Records.keeps_load stable_uncancelled (fun _ _ => trivial) hv
    fun m u hu _ hrecalls => ?_)
  cases ht : Records.loadAt u.files b.root id with
  | error e => exact herr e m u
  | ok t =>
    have hrecalled := hrecalls t ht
    obtain ⟨hid, content, -, hread⟩ := Records.loadAt_eq_ok.mp ht
    have htid : t.id = id := Records.id_of_read hread
    refine Protocol.keeps_bind (Protocol.keeps_bind (Protocol.keeps_now stable_uncancelled
      (fun _ _ => trivial) hu fun now w hw => ?_))
    refine Protocol.keeps_bind (Protocol.keeps_settle ?_)
    cases hmove : t.move .cancelled {} now with
    | error e => exact herr e _ w
    | ok moved =>
      rw [Task.move_cancelled now (Task.isTerminal_of_move_cancelled now hmove)] at hmove
      obtain rfl := Except.ok.inj hmove
      change (b.racing id owner).Keeps .canceller _ _ _
        (Records.save b.root (t.dropped now) >>= fun _ => pure (t.dropped now)).run _ w
      rw [Records.save, Task.id_dropped, htid]
      refine Protocol.keeps_bind (Protocol.keeps_bind (Locks.keeps_checkId (fun _ => ?_)
        fun h => absurd (hid.symm.trans h) Bool.noConfusion))
      refine Protocol.keeps_replace
        (W := Record.parse (Record.render (t.dropped now)) = .ok (t.dropped now))
        stable_uncancelled (fun _ _ => trivial) (Records.isPublic_path _ _) hw ?_ ?_ ?_ ?_
      · exact fun token f hp => hp t now hrecalled rfl rfl
      · intro x token hx hparse _
        refine ⟨rely_of_claimerLeft (claimerLeft_dropped hid htid hparse hx.1 hx.2), fun m => ?_⟩
        refine Protocol.keeps_bind (keeps_forceRelease_race hid
          ⟨coherent_dropped hid htid hparse hx.1 hx.2, ?_⟩ fun r? m y hy => hok _ m y hy)
        exact saved_concat.mpr (.inr (saves_rename.mpr rfl))
      · intro x token hx href
        rw [hx.1.refusing] at href
        cases href
      · exact fun x hx hne => absurd hx.1.refusing hne

end Canceller

section Outcome
variable (b id owner)

/-- What the parties know before their operation and after it. -/
def Outcome : Side → List (Unit × Except Error Task) → Sight Side → Prop
  | .claimer, [], v => b.Waiting id owner v
  | .claimer, (_, .ok _) :: _, v => b.Claimed id owner v
  | .claimer, (_, .error _) :: _, v => b.Repelled id owner v
  | .canceller, [], v => b.Coherent id owner v ∧ ¬ b.Saved id .canceller v.calls
  | .canceller, (_, .ok _) :: _, v => b.Swept id owner v
  | .canceller, (_, .error _) :: _, _ => True

theorem stable_outcome (side : Side) (past : List (Unit × Except Error Task)) :
    (b.racing id owner).Stable side (b.Outcome id owner side past) := by
  match side, past with
  | .claimer, [] => exact stable_waiting
  | .claimer, (_, .ok _) :: _ => exact stable_claimed
  | .claimer, (_, .error _) :: _ => exact stable_repelled
  | .canceller, [] => exact stable_uncancelled
  | .canceller, (_, .ok _) :: _ => exact stable_swept
  | .canceller, (_, .error _) :: _ => exact fun _ _ _ _ => trivial

def raceContract : Contract (b.race id owner) (b.racing id owner) where
  idle := b.Outcome id owner
  mid _ _ _ _ := True
  stable := b.stable_outcome id owner
  begins := by
    rintro side past op v h rfl
    cases side with
    | claimer => exact keeps_claim_race h (fun _ _ _ hu => hu) fun _ _ _ hu => hu
    | canceller => exact keeps_cancel_race h (fun _ _ _ hu => hu) fun _ _ _ => trivial

variable {b id owner}

/-- When both have returned and the task was cancelled, its record says so unless the
claimer saved it after the canceller. Then the task is active, and the claimer was told
that it has it. No lock that can be read is left in either case. -/
theorem cancelled_iff_not_overtakes {w : World Files} (hrefusing : w.store.refusing = [])
    (hunlocked : w.store.text? (Locks.path b.root id).names = none) {ms : List (Move Side Unit)}
    (hrun : (b.race id owner).Follows (.start w) ms) :
    let s := (b.race id owner).run (.start w) ms
    ∀ r t, s.party .claimer = ⟨[((), r)], none⟩ → s.party .canceller = ⟨[((), .ok t)], none⟩ →
      ((∃ u, Records.loadAt s.world.store b.root id = .ok u ∧ u.state = .cancelled) ↔
        ¬ b.Overtakes id s.calls) ∧
      (b.Overtakes id s.calls → (∃ u, r = .ok u) ∧
        ∃ u, Records.loadAt s.world.store b.root id = .ok u ∧ u.state = .active ∧
          u.assignedTo = some owner) ∧
      ∀ text, b.lockTextAt id s.world.store = some text → ¬ Locks.Slot.IsReadable text := by
  intro s r t hclaimer hcanceller
  have hfresh : ∀ side, ¬ b.Saved id side [] := fun side ⟨x, hx, _⟩ => absurd hx List.not_mem_nil
  have hcoherent : b.Coherent id owner ⟨w.store, []⟩ :=
    ⟨hrefusing, .inl hunlocked, fun h => absurd h (hfresh _), fun h => absurd h (hfresh _)⟩
  have hstart : ∀ side, b.Outcome id owner side [] ⟨w.store, []⟩ := by
    intro side
    cases side with
    | claimer => exact ⟨hcoherent, hfresh _, hunlocked, fun h => hfresh _ h.saved_canceller⟩
    | canceller => exact ⟨hcoherent, hfresh _⟩
  have hend := (b.raceContract id owner).idle_or_mid hstart hrun
  have hswept : b.Swept id owner s.sight := by
    have h := hend .canceller
    rwa [hcanceller] at h
  have hclaim : b.Outcome id owner .claimer [((), r)] s.sight := by
    have h := hend .claimer
    rwa [hclaimer] at h
  have hactive : b.Overtakes id s.calls → ∃ u, Records.loadAt s.world.store b.root id = .ok u ∧
      u.state = .active ∧ u.assignedTo = some owner := fun ho =>
    hswept.coherent.started ho.saved_claimer fun _ => ho
  refine ⟨⟨?_, hswept.coherent.dropped hswept.saved⟩, fun ho => ⟨?_, hactive ho⟩, fun text htext => ?_⟩
  · rintro ⟨u, hu, hcancelled⟩ ho
    obtain ⟨u', hu', hstate, -⟩ := hactive ho
    obtain rfl := Except.ok.inj (hu.symm.trans hu')
    rw [hstate] at hcancelled
    cases hcancelled
  · cases r with
    | ok u => exact ⟨u, rfl⟩
    | error e => exact absurd ho.saved_claimer (Repelled.unsaved hclaim)
  · cases r with
    | ok u =>
      have hnone := hswept.unlocked.resolve_right (Claimed.early hclaim)
      have hsome : b.lockTextAt id s.sight.files = some text := htext
      rw [hnone] at hsome
      cases hsome
    | error e => exact Repelled.unlocked hclaim text htext

end Outcome

end Race

section Lone

instance (b : Board) (id owner : String) (side : Side) (m : Memo) (c : Call) (f : Files) :
    Decidable ((b.race id owner).permit side m c f) :=
  match side with
  | .claimer => inferInstanceAs (Decidable (Legible _ m c))
  | .canceller => inferInstanceAs (Decidable (Legible _ m c))

/-- The claimer stops before it saves the task, the canceller does all it has to do, and then
the claimer goes on: the results, and the world in the end. -/
def overtaking? (b : Board) (id owner : String) (w : World Files) :
    Option (Except Error Task × Except Error Task × World Files) := do
  let R := b.race id owner
  let (p, m, w) ← (R.body .claimer ()).advance (R.permit .claimer) 11 {} w
  let (cancelled, w) ← (R.body .canceller ()).finish? (R.permit .canceller) 10 {} w
  let (claimed, w) ← p.finish? (R.permit .claimer) 5 m w
  pure (claimed, cancelled, w)

theorem leads_of_overtaking {b : Board} {id owner : String} {w w' : World Files}
    {claimed cancelled : Except Error Task}
    (h : b.overtaking? id owner w = some (claimed, cancelled, w')) :
    (b.race id owner).Leads (.start w) w' fun
      | .claimer => ⟨[((), claimed)], none⟩
      | .canceller => ⟨[((), cancelled)], none⟩ := by
  obtain ⟨⟨p, m, w₁⟩, hstops, h⟩ := Option.bind_eq_some_iff.mp h
  obtain ⟨⟨r, w₂⟩, hcancels, h⟩ := Option.bind_eq_some_iff.mp h
  obtain ⟨⟨r', w₃⟩, hgoes, h⟩ := Option.bind_eq_some_iff.mp h
  cases h
  let R := b.race id owner
  have hbegins : R.Leads (.start w) w (Function.update (fun _ => {}) .claimer
      (Party.resume {} ⟨(), {}, R.body .claimer ()⟩)) := Rules.leads_of_begin rfl rfl
  refine hbegins.trans fun s₁ hworld₁ hparty₁ => ?_
  have hstretch : R.Leads s₁ w₁ (Function.update s₁.party .claimer (Party.resume {} ⟨(), m, p⟩)) :=
    Rules.leads_of_advance 11 (by rw [hparty₁, Function.update_self]) (by rw [hworld₁]; exact hstops)
  refine hstretch.trans fun s₂ hworld₂ hparty₂ => ?_
  have hother : s₂.party .canceller = {} := by
    rw [hparty₂, hparty₁]
    rfl
  have hsecond := Rules.leads_of_finish R s₂ .canceller () 10 (by rw [hother]) (by rw [hother]; rfl)
    (by rw [hworld₂]; exact hcancels)
  refine hsecond.trans fun s₃ hworld₃ hparty₃ => ?_
  have hstopped : s₃.party .claimer = Party.resume {} ⟨(), m, p⟩ := by
    rw [hparty₃, hparty₂]
    rfl
  have hlast : R.Leads s₃ w' (Function.update s₃.party .claimer ⟨[((), claimed)], none⟩) :=
    Rules.leads_of_remaining 5 hstopped (by rw [hworld₃]; exact hgoes)
  rw [hparty₃, hother] at hlast
  convert hlast using 1
  funext side
  cases side <;> rfl

/-- The world in which the claimer has overtaken the canceller: the task is active, and there
is no lock. -/
def overtaken : World Files :=
  ⟨⟨[(["/", "store", "tasks", "a.md"], Record.render (Lone.task.started "x" Lone.begun))], []⟩,
    Lone.begun, 0, 4, 2⟩

theorem overtaking?_lone : Lone.board.overtaking? "a" "x" Lone.world =
    some (.ok (Lone.task.started "x" Lone.begun), .ok (Lone.task.dropped Lone.begun), overtaken) := by
  decide +kernel

theorem loadAt_overtaken : Records.loadAt overtaken.store Lone.board.root "a" =
    .ok (Lone.task.started "x" Lone.begun) := by decide +kernel

/-- The run in which the claimer overtakes the canceller, and what is known of its end. -/
theorem overtakes_lone :
    ∃ ms, (Lone.board.race "a" "x").Follows (.start Lone.world) ms ∧
      let s := (Lone.board.race "a" "x").run (.start Lone.world) ms
      s.party .claimer = ⟨[((), .ok (Lone.task.started "x" Lone.begun))], none⟩ ∧
      s.party .canceller = ⟨[((), .ok (Lone.task.dropped Lone.begun))], none⟩ ∧
      Lone.board.Overtakes "a" s.calls ∧
      ∀ text, Lone.board.lockTextAt "a" s.world.store = some text → ¬ Locks.Slot.IsReadable text := by
  obtain ⟨ms, hrun, hworld, hparty⟩ := leads_of_overtaking overtaking?_lone
  have hclaimer := congrFun hparty .claimer
  have hcanceller := congrFun hparty .canceller
  obtain ⟨hcancelled, -, hlock⟩ := cancelled_iff_not_overtakes
    (rfl : Lone.world.store.refusing = []) (Lone.unlocked "a") hrun _ _ hclaimer hcanceller
  refine ⟨ms, hrun, hclaimer, hcanceller, ?_, hlock⟩
  by_contra ho
  obtain ⟨u, hu, hstate⟩ := hcancelled.mpr ho
  rw [hworld, loadAt_overtaken] at hu
  obtain rfl := Except.ok.inj hu
  cases hstate

/-- A claim and a cancellation of a task in todo that could be claimed, both successful, after
which the cancelled task is active. -/
theorem cancellation_lost :
    Lone.task ∈ Snapshot.claimable [Lone.task] ∧
    ((Records.loadAll Lone.board.root).run.runIn Lone.world).1 = .ok ⟨[Lone.task], []⟩ ∧
    Lone.world.store.refusing = [] ∧
    (∀ id, Lone.world.store.text? (Locks.path Lone.board.root id).names = none) ∧
    ∃ ms, (Lone.board.race "a" "x").Follows (.start Lone.world) ms ∧
      let s := (Lone.board.race "a" "x").run (.start Lone.world) ms
      s.party .claimer = ⟨[((), .ok (Lone.task.started "x" Lone.begun))], none⟩ ∧
      s.party .canceller = ⟨[((), .ok (Lone.task.dropped Lone.begun))], none⟩ ∧
      ¬ ∃ u, Records.loadAt s.world.store Lone.board.root "a" = .ok u ∧ u.state = .cancelled := by
  obtain ⟨ms, hrun, hworld, hparty⟩ := leads_of_overtaking overtaking?_lone
  refine ⟨Lone.mem_claimable, Lone.loadAll_world, rfl, Lone.unlocked, ms, hrun,
    congrFun hparty .claimer, congrFun hparty .canceller, ?_⟩
  rintro ⟨u, hu, hstate⟩
  rw [hworld, loadAt_overtaken] at hu
  obtain rfl := Except.ok.inj hu
  cases hstate

end Lone

end Board

end Workboard
