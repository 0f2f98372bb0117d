import Workboard.Board.Records
import Workboard.Lock.Record

/-!
# The locks of a board

The lock of a task is a file named for its id. It is taken by creating the file, and
a lock that is stale or cannot be read is taken over by replacing it. Only the owner
renews or releases a lock; anybody may remove it by force.
-/
namespace Workboard.Locks
open Workboard.Action

/-- The directory of the locks. -/
def dir (root : Path) : Path := root.child "locks"

/-- The file of a lock. -/
def path (root : Path) (id : String) : Path := (dir root).child (id ++ ".lock")

/-- What is found where a lock may be. -/
inductive Slot where
  | missing
  | held (record : LockRecord)
  | unreadable (reason : Corruption)

/-- What the text of a lock file stands for. -/
def Slot.ofText (content : String) : Slot :=
  match LockRecord.ofText? content with
  | none => .unreadable .unreadable
  | some record => match record.flaw? with
    | some reason => .unreadable reason
    | none => .held record

/-- Read a lock file. -/
def slot (p : Path) : Action Slot := do
  match ← Action.read p with
  | .ok content => pure (.ofText content)
  | .error failure => if failure.absent then pure .missing else throw (.storage failure.message)

/-- Put a record in place of the lock that is there. Whoever reads back the own record has
the lock. -/
def takeOver (p : Path) (record : LockRecord) : Action Bool := do
  replace p record.render
  match ← slot p with
  | .held current =>
    pure (current.owner = record.owner && current.acquiredAt = record.acquiredAt)
  | _ => pure false

/-- Try to take a lock in at most so many passes. A pass ends without an answer if the
lock that was in the way is gone when it is read. -/
def tryTake (p : Path) (record : LockRecord) (now : Instant) : Nat → Action Bool
  | 0 => pure false
  | passes + 1 => do
    if ← orFail (createNew p record.render) then pure true
    else match ← slot p with
      | .missing => tryTake p record now passes
      | .unreadable _ => takeOver p record
      | .held current =>
        if current.isStale now then takeOver p record
        else if current.owner = record.owner then
          replace p { record with acquiredAt := current.acquiredAt }.render
          pure true
        else pure false

/-- Take the lock of a task; false if somebody else holds it. -/
def acquire (root : Path) (id owner : String) (timeout : Duration) : Action Bool := do
  Records.checkId id
  if Text.isAllBlank owner then throw (.refused id .blankOwner)
  if timeout ≤ .zero ∨ maxTimeout < timeout then throw (.refused id .lockTimeout)
  let now ← Action.now
  tryTake (path root id) (.new id owner now timeout) now 2

/-- Give the own lock a new sign of life; false if it is not the own lock. -/
def renew (root : Path) (id owner : String) : Action Bool := do
  Records.checkId id
  match ← slot (path root id) with
  | .held record =>
    if record.owner = owner then
      let now ← Action.now
      replace (path root id) { record with heartbeatAt := max now record.heartbeatAt }.render
      pure true
    else pure false
  | _ => pure false

/-- Remove the own lock; false if it is not the own lock or gone. -/
def release (root : Path) (id owner : String) : Action Bool := do
  Records.checkId id
  match ← slot (path root id) with
  | .held record => if record.owner = owner then orFail (remove (path root id)) else pure false
  | _ => pure false

/-- Remove the lock of anybody; the answer is its record, if it had one. -/
def forceRelease (root : Path) (id : String) : Action (Option LockRecord) := do
  Records.checkId id
  match ← slot (path root id) with
  | .missing => pure none
  | .held record =>
    let _ ← orFail (remove (path root id))
    pure (some record)
  | .unreadable _ =>
    let _ ← orFail (remove (path root id))
    pure none

/-- The lock of a task as it is now, if there is one. -/
def status (root : Path) (id : String) : Action (Option LockInfo) := do
  Records.checkId id
  match ← slot (path root id) with
  | .missing => pure none
  | .held record => return some (record.infoAt (← Action.now))
  | .unreadable reason => throw (.corrupt id reason)

/-- Whether the lock names the owner, be it stale or not. -/
def isHeldBy (root : Path) (id owner : String) : Action Bool := do
  return (← status root id).any (·.record.owner = owner)

/-- Whether the lock names the owner; a lock that cannot be read belongs to nobody. -/
def owns (root : Path) (id owner : String) : Action Bool := do
  match ← attempt (isHeldBy root id owner) with
  | .ok b => pure b
  | .error (.corrupt _ _) => pure false
  | .error e => throw e

/-- The locks of the ids that can be read. -/
def readEach (root : Path) (now : Instant) : List String → Action (List LockInfo)
  | [] => pure []
  | id :: ids => do
    match ← slot (path root id) with
    | .held record => return record.infoAt now :: (← readEach root now ids)
    | _ => readEach root now ids

/-- All locks that can be read, in the order of the names of their files. -/
def all (root : Path) : Action (List LockInfo) := do
  if ← present (dir root) then
    let now ← Action.now
    readEach root now (Records.idsOfNames ".lock" (← orFail (list (dir root))))
  else return []

end Workboard.Locks
