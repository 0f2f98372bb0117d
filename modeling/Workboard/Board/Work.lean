import Workboard.Board.Basic

/-!
# Working on tasks

A task is worked on under its lock: it is claimed, the lock is renewed as long as the
work goes on, and in the end the task is given back, parked or completed.
-/
namespace Workboard

/-- Why a task cannot be claimed in a snapshot, if it cannot. -/
def Snapshot.claimObjection? (all : Snapshot) (t : Task) : Option Refusal :=
  if !(all.unmet t).isEmpty then some (.unmetRequirements (all.unmet t))
  else if all.onCycle t.id then some .onCycle
  else none

namespace Board
open Workboard.Action

/-- Make the task active under its lock, from a new reading of its record. -/
def start (b : Board) (id owner : String) : Action Task := do
  let t ← Records.load b.root id
  let t ← settle (t.move .active { lockHeld := true } (← now))
  let t := { t with assignedTo := some owner }
  Records.save b.root t
  pure t

/-- The owner to name when a lock could not be taken. -/
def holderOf (b : Board) (id : String) : Action String := do
  match ← attempt (Locks.status b.root id) with
  | .ok (some info) => pure info.record.owner
  | _ => pure "another owner"

/-- Take the lock of a task in todo whose requirements are done, and start it. A lock that
was taken for nothing is released again, unless the owner had it before. -/
def claim (b : Board) (id owner : String) : Action Task := do
  let t ← Records.load b.root id
  if t.state ≠ .todo then throw (.refused id (.notTodo t.state))
  match (← Records.scan b.root).claimObjection? t with
  | some why => throw (.refused id why)
  | none =>
    let heldBefore ← Locks.owns b.root id owner
    if ← Locks.acquire b.root id owner b.settings.lockTimeout then
      match ← attempt (b.start id owner) with
      | .ok t => pure t
      | .error e =>
        if heldBefore then throw e
        else
          let _ ← attempt (Locks.release b.root id owner)
          throw e
    else throw (.alreadyLocked id (← b.holderOf id))

/-- Claim the first of the ids that can be claimed. -/
def claimFirst (b : Board) (owner : String) : List String → Action (Option Task)
  | [] => pure none
  | id :: ids => do
    match ← attempt (b.claim id owner) with
    | .ok t => pure (some t)
    | .error (.alreadyLocked _ _) => b.claimFirst owner ids
    | .error (.refused _ _) => b.claimFirst owner ids
    | .error e => throw e

/-- Claim the first claimable task, if any can be claimed. -/
def claimNext (b : Board) (owner : String) : Action (Option Task) := do
  b.claimFirst owner ((← Records.scan b.root).claimable.map Task.id)

/-- Renew the own lock. -/
def heartbeat (b : Board) (id owner : String) : Action Unit := do
  if ← Locks.renew b.root id owner then pure () else throw (.lostOwnership id owner)

/-- Give a task back with its lock; false if the lock is not the owner's. -/
def release (b : Board) (id owner : String) : Action Bool := do
  if ← Locks.owns b.root id owner then
    let t ← Records.load b.root id
    if t.state = .active then let _ ← b.advance t .todo {}
    Locks.release b.root id owner
  else pure false

/-- Park an active task until a condition holds, and release its lock. -/
def block (b : Board) (id owner waitingFor : String) : Action Task := do
  if ← Locks.owns b.root id owner then
    let t ← Records.load b.root id
    let t ← b.advance t .waiting { waitingFor := some (Text.trim waitingFor) }
    let _ ← Locks.release b.root id owner
    pure t
  else throw (.lostOwnership id owner)

/-- Let the tasks go on that waited for the completion of `id`; those that were saved. -/
def unblockDependents (b : Board) (id : String) : Action (List Task) := do
  let all ← Records.scan b.root
  b.saveEach (all.cascade id (← now))

/-- Complete an active task, release its lock, and let its dependents go on. -/
def complete (b : Board) (id owner : String) : Action (List Task) := do
  if ← Locks.owns b.root id owner then
    let t ← Records.load b.root id
    let _ ← b.advance t .done { lockHeld := true }
    let _ ← attempt (Locks.release b.root id owner)
    b.unblockDependents id
  else throw (.lostOwnership id owner)

/-- Cancel a task and remove its lock by force. -/
def cancel (b : Board) (id : String) : Action Task := do
  let t ← Records.load b.root id
  let t ← b.advance t .cancelled {}
  let _ ← Locks.forceRelease b.root id
  pure t

/-- Bring a task that was put aside back to todo. -/
def promote (b : Board) (id : String) : Action Task := do
  let t ← Records.load b.root id
  if t.state.isShelf then b.advance t .todo {}
  else throw (.refused id (.promoteOnlyShelved t.state))

/-- Put a task aside. -/
def defer (b : Board) (id : String) (target : TaskState) : Action Task := do
  if target.isShelf then
    let t ← Records.load b.root id
    b.advance t target {}
  else throw (.refused id (.deferTarget target))

end Board

end Workboard
