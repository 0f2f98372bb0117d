import Workboard.Board.Work
import Workboard.Proofs.Board.Reading

/-!
# The steps of a claim and of a cancellation

Where a board keeps the record and the lock of a task, and what becomes of either when one
of them is written; what a claim and a cancellation save, and in which order they read,
lock and save. The conditions under which such operations are run together stand here, too: no lock is seen
stale, a lock file that is written can be read, and a record that is saved reads back as
the task that was saved.
-/
namespace Workboard

namespace Task

/-- The task as its owner saves it at the start of the work. -/
def started (t : Task) (owner : String) (now : Instant) : Task :=
  { t.moved .active { lockHeld := true } now with assignedTo := some owner }

/-- The task as it is saved when it is cancelled. -/
def dropped (t : Task) (now : Instant) : Task := t.moved .cancelled {} now

variable (t : Task) (owner : String) (now : Instant)

@[simp] theorem id_moved (target : TaskState) (g : Guard) : (t.moved target g now).id = t.id := by
  unfold moved
  split <;> rfl

@[simp] theorem state_moved (target : TaskState) (g : Guard) : (t.moved target g now).state = target := rfl

@[simp] theorem requires_moved (target : TaskState) (g : Guard) :
    (t.moved target g now).requires = t.requires := by
  unfold moved
  split <;> rfl

@[simp] theorem id_started : (t.started owner now).id = t.id := id_moved t now .active { lockHeld := true }

@[simp] theorem state_started : (t.started owner now).state = .active := rfl

@[simp] theorem assignedTo_started : (t.started owner now).assignedTo = some owner := rfl

@[simp] theorem requires_started : (t.started owner now).requires = t.requires :=
  requires_moved t now .active { lockHeld := true }

@[simp] theorem id_dropped : (t.dropped now).id = t.id := t.id_moved now _ _

@[simp] theorem state_dropped : (t.dropped now).state = .cancelled := rfl

variable {t}

/-- Under its lock a task in todo may become active. -/
theorem move_active (h : t.state = .todo) :
    t.move .active { lockHeld := true } now = .ok (t.moved .active { lockHeld := true } now) := by
  unfold move checkMove
  rw [h]
  rfl

/-- A move to active that is allowed begins in todo. -/
theorem eq_todo_of_move_active {u : Task} (h : t.move .active { lockHeld := true } now = .ok u) :
    t.state = .todo := by
  unfold move checkMove at h
  revert h
  cases t.state <;> intro h <;> first | rfl | cases h

theorem move_cancelled (h : t.state.isTerminal = false) :
    t.move .cancelled {} now = .ok (t.dropped now) := by
  unfold move checkMove dropped
  revert h
  cases t.state <;> intro h <;> first | rfl | cases h

/-- A task that is done or cancelled is not cancelled. -/
theorem isTerminal_of_move_cancelled {u : Task} (h : t.move .cancelled {} now = .ok u) :
    t.state.isTerminal = false := by
  unfold move checkMove at h
  revert h
  cases t.state <;> intro h <;> first | rfl | cases h

end Task

namespace Records

/-- A record that was saved and reads back is found. -/
theorem read_render {t : Task} (h : Record.parse (Record.render t) = .ok t) :
    read t.id (Record.render t) = .ok t := by
  rw [read, h]
  simp

end Records

/-- A task that was read and is saved in a new version reads back as that version. -/
def Legible (version : Task → Instant → Task) (m : Memo) : Call → Prop
  | .write _ text => ∀ t now, Records.recalled? m = some t → m.clock = some now →
      text = Record.render (version t now) → Record.parse text = .ok (version t now)
  | _ => True

instance (version : Task → Instant → Task) (m : Memo) (c : Call) : Decidable (Legible version m c) :=
  match c with
  | .write _ text =>
    match hr : Records.recalled? m, hc : m.clock with
    | some t, some now =>
      decidable_of_iff (text = Record.render (version t now) →
        Record.parse text = .ok (version t now)) (by simp [Legible, hr, hc])
    | none, _ => .isTrue (by simp [Legible, hr])
    | some _, none => .isTrue (by simp [Legible, hc])
  | .now => .isTrue trivial
  | .freshId => .isTrue trivial
  | .token => .isTrue trivial
  | .read _ => .isTrue trivial
  | .createNew _ _ => .isTrue trivial
  | .rename _ _ => .isTrue trivial
  | .remove _ => .isTrue trivial
  | .present _ => .isTrue trivial
  | .list _ => .isTrue trivial

/-- In addition, every lock file that is created can be read, and no lock is read that is
stale at the last reading of the clock. -/
def Undistorted (version : Task → Instant → Task) (m : Memo) (c : Call) (f : Files) : Prop :=
  Legible version m c ∧ match c with
    | .createNew _ text => Locks.Slot.IsReadable text
    | .read p => (Locks.slotAt f p).IsFresh m
    | _ => True

instance (version : Task → Instant → Task) (m : Memo) (c : Call) (f : Files) :
    Decidable (Undistorted version m c f) :=
  haveI : Decidable (match c with
      | .createNew _ text => Locks.Slot.IsReadable text
      | .read p => (Locks.slotAt f p).IsFresh m
      | _ => True) := by
    cases c <;> infer_instance
  inferInstanceAs (Decidable (_ ∧ _))

namespace Board

section Places
variable (b : Board)

/-- The text of a record. -/
def recordAt (f : Files) (id : String) : Option String := f.text? (Records.path b.root id).names

/-- The owner of a lock. -/
def ownerAt (f : Files) (id : String) : Option String :=
  (Locks.slotAt f (Locks.path b.root id)).owner?

variable {b} {f g : Files}

theorem ownerAt_congr {id : String}
    (h : g.text? (Locks.path b.root id).names = f.text? (Locks.path b.root id).names) :
    b.ownerAt g id = b.ownerAt f id := by
  rw [ownerAt, ownerAt, Locks.slotAt_congr h]

theorem ownerAt_of_missing {id : String} (h : f.text? (Locks.path b.root id).names = none) :
    b.ownerAt f id = none := by
  rw [ownerAt, Locks.slotAt_eq_missing.mpr h]
  rfl

section Taken
variable {id text : String}

theorem recordAt_taken (other : String) :
    b.recordAt (f.put (Locks.path b.root id).names text) other = b.recordAt f other := by
  rw [recordAt, Files.text?_put, if_neg (Records.names_path_ne_lock b.root other id)]
  rfl

theorem text?_lock_taken {other : String} (h : other ≠ id) :
    (f.put (Locks.path b.root id).names text).text? (Locks.path b.root other).names =
      f.text? (Locks.path b.root other).names := by
  rw [Files.text?_put, if_neg fun heq => h (Records.eq_of_names_lock_path heq)]

theorem ownerAt_taken_self : b.ownerAt (f.put (Locks.path b.root id).names text) id =
    (Locks.Slot.ofText text).owner? := by
  have htext : (f.put (Locks.path b.root id).names text).text? (Locks.path b.root id).names =
      some text := by simp
  rw [ownerAt, Locks.slotAt_of_text? htext]

theorem ownerAt_taken {other : String} (h : other ≠ id) :
    b.ownerAt (f.put (Locks.path b.root id).names text) other = b.ownerAt f other :=
  ownerAt_congr (text?_lock_taken h)

end Taken

section Unlocked
variable {id : String}

theorem text?_lock_unlocked : (f.erase (Locks.path b.root id).names).text?
    (Locks.path b.root id).names = none := by
  rw [Files.text?_erase, if_pos rfl]

theorem recordAt_unlocked (other : String) :
    b.recordAt (f.erase (Locks.path b.root id).names) other = b.recordAt f other := by
  rw [recordAt, Files.text?_erase, if_neg (Records.names_path_ne_lock b.root other id)]
  rfl

end Unlocked

section Saved
variable {id token text : String}

theorem text?_lock_saved (other : String) :
    (Protocol.renamed f ((Records.path b.root id).staged token).names (Records.path b.root id).names
      text).text? (Locks.path b.root other).names = f.text? (Locks.path b.root other).names := by
  rw [Protocol.text?_renamed (Locks.isPublic_path b.root other),
    if_neg fun heq => Records.names_path_ne_lock b.root id other heq.symm]

theorem ownerAt_saved (other : String) :
    b.ownerAt (Protocol.renamed f ((Records.path b.root id).staged token).names
      (Records.path b.root id).names text) other = b.ownerAt f other :=
  ownerAt_congr (text?_lock_saved other)

theorem recordAt_saved (other : String) :
    b.recordAt (Protocol.renamed f ((Records.path b.root id).staged token).names
      (Records.path b.root id).names text) other =
      if other = id then some text else b.recordAt f other := by
  rw [recordAt, Protocol.text?_renamed (Records.isPublic_path b.root other)]
  by_cases h : other = id
  · rw [if_pos (by rw [h]), if_pos h]
  · rw [if_neg fun heq => h (Records.eq_of_names_path heq), if_neg h]
    rfl

end Saved

end Places

variable (b : Board) (id owner : String)

theorem start_eq : b.start id owner = (do
    let t ← Records.load b.root id
    let now ← Action.now
    let moved ← Action.settle (t.move .active { lockHeld := true } now)
    Records.save b.root { moved with assignedTo := some owner }
    pure { moved with assignedTo := some owner }) := rfl

/-- A claim loads the task, looks at all tasks, and then tries to take the lock. -/
theorem claim_eq : b.claim id owner = Records.load b.root id >>= fun t =>
    if t.state ≠ .todo then throw (.refused id (.notTodo t.state))
    else Records.scan b.root >>= fun all =>
      match all.claimObjection? t with
      | some why => throw (.refused id why)
      | none => Locks.owns b.root id owner >>= fun heldBefore =>
        Locks.acquire b.root id owner b.settings.lockTimeout >>= fun taken =>
          if taken then Action.attempt (b.start id owner) >>= fun r =>
            match r with
            | .ok t => pure t
            | .error e =>
              if heldBefore then throw e
              else Action.attempt (Locks.release b.root id owner) >>= fun _ => throw e
          else b.holderOf id >>= fun holder => throw (.alreadyLocked id holder) := by
  unfold claim
  refine congrArg _ (funext fun t => ?_)
  by_cases h : t.state ≠ .todo
  · simp [h]
  · exact (if_neg h).trans (if_neg h).symm

/-- Some owner is named for a lock that could not be taken. -/
theorem keeps_holderOf {ι : Type} {P : Protocol ι} {i : ι} {permit : Memo → Call → Files → Prop}
    {mid : Sight ι → Prop} {m : Memo} {v : Sight ι} {A : Sight ι → Prop} (hA : P.Stable i A)
    (hmid : ∀ v, A v → mid v) {post : Except Error String → Memo → Sight ι → Prop} (hv : A v)
    (hpost : ∀ y m u, A u → post (.ok y) m u) :
    P.Keeps i permit mid post (b.holderOf id).run m v := by
  refine Protocol.keeps_bind (Protocol.keeps_attempt (Protocol.keeps_of_quiet
    (Locks.quiet_status b.root id) hA hmid hv fun r m u hu => ?_))
  rcases r with e | info?
  · exact hpost _ m u hu
  · cases info? with
    | none => exact hpost _ m u hu
    | some info => exact hpost _ m u hu

end Board

end Workboard
