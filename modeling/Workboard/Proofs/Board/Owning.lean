import Workboard.Board.Work
import Workboard.Proofs.Board.Lone
import Workboard.Proofs.Lock.Alone

/-!
# The work of others

A lock is somebody else's if there is none, if it cannot be read, or if it names another
owner, be it stale or not. Whatever the files are then, the one who asks is turned away
before anything else is looked at: no state of the task matters, and no file changes.
Main statement: with a lock of somebody else the work on a task is refused as lost, and a
lock is neither renewed nor released.
-/
namespace Workboard

namespace Locks
open Workboard.Action
variable {w : World Files} {root : Path} {id owner : String}

theorem owner_ne_of_held {r : LockRecord} (hheld : slotAt w.store (path root id) = .held r)
    (hforeign : (slotAt w.store (path root id)).owner? ≠ some owner) : r.owner ≠ owner := by
  rintro rfl
  exact hforeign (by rw [hheld, Slot.owner?])

/-- What is done with the own lock only, whatever it is, is not done with the lock of another. -/
theorem runIn_own {onOwn : LockRecord → Action Bool} (hid : isValidId id = true)
    (hforeign : (slotAt w.store (path root id)).owner? ≠ some owner) :
    (do Records.checkId id
        match ← slot (path root id) with
        | .held r => if r.owner = owner then onOwn r else pure false
        | _ => pure false : Action Bool).run.runIn w = (.ok false, w) := by
  rw [runIn_bind_ok (runIn_checkId hid w), runIn_bind_ok (runIn_slot w _)]
  cases hslot : slotAt w.store (path root id) with
  | missing => rfl
  | unreadable reason => rfl
  | held r =>
    simp only [if_neg (owner_ne_of_held hslot hforeign)]
    rfl

/-- The lock of another is not the own one. One that cannot be read is nobody's. -/
theorem runIn_owns (hid : isValidId id = true)
    (hforeign : (slotAt w.store (path root id)).owner? ≠ some owner) :
    (owns root id owner).run.runIn w = (.ok false, w) := by
  have h : (owns root id owner).Ends w fun r w' => r = .ok false ∧ w' = w :=
    ends_owns (fun _ => ⟨by rw [decide_eq_false hforeign], rfl⟩) fun hinvalid => by
      rw [hid] at hinvalid
      cases hinvalid
  exact Prod.ext h.1 h.2

end Locks

namespace Board
open Workboard.Action
variable {w : World Files} {b : Board} {id owner : String}

/-- What only the owner does gives way to the refusal. -/
theorem runIn_owned {α : Type} {onOwn refusal : Action α} (hid : isValidId id = true)
    (hforeign : (Locks.slotAt w.store (Locks.path b.root id)).owner? ≠ some owner) :
    (Locks.owns b.root id owner >>= fun mine => if mine then onOwn else refusal).run.runIn w =
      refusal.run.runIn w :=
  runIn_bind_ok (Locks.runIn_owns hid hforeign)

/-- Who is not named by a lock that can be read has no part in the work on the task: the answer
is that the ownership is lost or that there was nothing to do, and the files stay as they are. -/
theorem foreign_refused (w : World Files) (b : Board) (id owner : String)
    (hid : isValidId id = true)
    (hforeign : (Locks.slotAt w.store (Locks.path b.root id)).owner? ≠ some owner) :
    (b.heartbeat id owner).run.runIn w = (.error (.lostOwnership id owner), w) ∧
    (∀ waitingFor,
      (b.block id owner waitingFor).run.runIn w = (.error (.lostOwnership id owner), w)) ∧
    (b.complete id owner).run.runIn w = (.error (.lostOwnership id owner), w) ∧
    (b.release id owner).run.runIn w = (.ok false, w) ∧
    (Locks.renew b.root id owner).run.runIn w = (.ok false, w) ∧
    (Locks.release b.root id owner).run.runIn w = (.ok false, w) := by
  have hrenew : (Locks.renew b.root id owner).run.runIn w = (.ok false, w) :=
    Locks.runIn_own hid hforeign
  refine ⟨?_, fun waitingFor => ?_, ?_, ?_, hrenew, Locks.runIn_own hid hforeign⟩
  · rw [heartbeat, runIn_bind_ok hrenew]
    rfl
  · exact runIn_owned hid hforeign
  · exact runIn_owned hid hforeign
  · exact runIn_owned hid hforeign

/-- The task that "x" works on is not completed by "y". -/
theorem foreign_refused_started :
    (Locks.slotAt Lone.started.store (Locks.path Lone.board.root "a")).owner? = some "x" ∧
    (Lone.board.complete "a" "y").run.runIn Lone.started =
      (.error (.lostOwnership "a" "y"), Lone.started) := by
  have howner : (Locks.slotAt Lone.started.store (Locks.path Lone.board.root "a")).owner? =
      some "x" := by decide +kernel
  refine ⟨howner, (foreign_refused Lone.started Lone.board "a" "y" (by decide) ?_).2.2.1⟩
  rw [howner]
  decide

end Board

end Workboard
