import Workboard.Board.Edit
import Workboard.Board.Reconcile
import Workboard.Command.Arguments
import Workboard.Command.Words

/-!
# Running commands

A command is run on the board that its root names and prints what came of it. What was
printed before an error stays printed.
-/
namespace Workboard

/-- What a command printed, and the error it ended with, if it did. -/
structure Outcome where
  printed : String := ""
  error : Option Error := none

namespace Outcome

/-- The outcome of an action that comes to what is printed. -/
def ofAction (a : Action String) : Program Outcome := do
  match ← a.run with
  | .ok printed => return { printed }
  | .error e => return { error := some e }

/-- Go on after an outcome without an error. -/
def thenDo (first : Outcome) (next : Program Outcome) : Program Outcome :=
  match first.error with
  | some _ => pure first
  | none => do
    let o ← next
    return { o with printed := first.printed ++ o.printed }

end Outcome

namespace LockCommand

/-- The timeout that a command line gives, by the rule for settings. -/
def timeoutOfOption (hours : Binary64) : Except Error Duration :=
  ({ lockTimeoutHours := hours : Settings }.validate).map Settings.lockTimeout

def acquired (b : Board) (owner id : String) (hours : Option Binary64) : Action String := do
  let timeout ← match hours with
    | some h => Action.settle (timeoutOfOption h)
    | none => pure b.settings.lockTimeout
  if ← Locks.acquire b.root id owner timeout then return id ++ ": locked by " ++ owner ++ "\n"
  else
    let holder := match ← Locks.status b.root id with
      | some info => info.record.owner
      | none => "another owner"
    throw (.alreadyLocked id holder)

/-- Run a lock command for an owner. -/
def run (b : Board) (owner : String) : LockCommand → Action String
  | acquire id hours => acquired b owner id hours
  | renew id => do
    if ← Locks.renew b.root id owner then return id ++ ": lock renewed\n"
    else throw (.lostOwnership id owner)
  | release id => do
    if ← Locks.release b.root id owner then return id ++ ": lock released\n"
    else return id ++ ": not held by " ++ owner ++ ", nothing to release\n"
  | status id => do
    match ← Locks.status b.root id with
    | some info => return info.words ++ "\n"
    | none => return id ++ ": unlocked\n"
  | forceRelease id => do
    match ← Locks.forceRelease b.root id with
    | some record => return id ++ ": lock held by " ++ record.owner ++ " removed\n"
    | none => return id ++ ": no readable lock to remove\n"
  | list => do
    let locks ← Locks.all b.root
    return if locks.isEmpty then "No locks held.\n" else LockInfo.table locks

end LockCommand

namespace Command

/-- Set fields one after the other, and tell of each. -/
def editAll (b : Board) (id : String) : List (String × String) → Program Outcome
  | [] => pure {}
  | (field, value) :: more => do
    let first ← Outcome.ofAction do
      let t ← b.edit id field value
      return t.id ++ ": " ++ field ++ " updated\n"
    first.thenDo (editAll b id more)

/-- The lock of a task that is described; one that cannot be read is left out. -/
def describedLock (b : Board) (id : String) : Action (Option LockInfo) := do
  match ← Action.attempt (Locks.status b.root id) with
  | .ok found => pure found
  | .error (.corrupt _ _) => pure none
  | .error e => throw e

/-- All tasks with their locks, and the records that cannot be read. -/
def statusWords (report : Records.Report) (locks : List LockInfo) : String :=
  if report.tasks.isEmpty && report.corrupt.isEmpty then "No tasks found in store.\n"
  else
    Task.lockTable report.tasks locks ++
    String.join (report.corrupt.map fun (id, e) => "! " ++ id ++ ": " ++ e.message ++ "\n") ++
    "\n" ++ toString report.tasks.length ++ " task(s) total.\n"

/-- All cycles, and how many they are. -/
def cycleWords (cycles : List (List String)) : String :=
  if cycles.isEmpty then "No dependency cycles.\n"
  else
    String.join (cycles.map fun c => " <-> ".intercalate c ++ "\n") ++
    "\n" ++ toString cycles.length ++ " cycle(s) found.\n"

/-- A line for each task, with its id and its state. -/
def eachLine (label : String) (tasks : List Task) : String :=
  String.join (tasks.map fun t => label ++ " " ++ t.id ++ " (" ++ t.state.name ++ ")\n")

/-- Run a command on a board for an owner. -/
def run (b : Board) (owner : String) : Command → Program Outcome
  | edit id fields => editAll b id fields
  | new title id priority state requires body parent => Outcome.ofAction do
    let n : NewTask := { id, title, state, priority, requires, body }
    let t ← match parent with
      | some p => b.spawn p n
      | none => b.create n
    return t.id ++ "\n"
  | describe id => Outcome.ofAction do
    let t ← Records.load b.root id
    return t.words (← describedLock b id)
  | status => Outcome.ofAction do
    let report ← Records.loadAll b.root
    return statusWords report (← Locks.all b.root)
  | ready => Outcome.ofAction do
    let tasks ← b.ready
    return if tasks.isEmpty then "Nothing is ready.\n" else Task.table tasks
  | claim id => Outcome.ofAction do
    let claimed ← match id with
      | some id => some <$> b.claim id owner
      | none => b.claimNext owner
    match claimed with
    | some t => return t.id ++ " claimed by " ++ owner ++ ": " ++ t.title ++ "\n"
    | none => return "Nothing to claim.\n"
  | heartbeat id => Outcome.ofAction do
    b.heartbeat id owner
    return id ++ ": lock renewed\n"
  | release id => Outcome.ofAction do
    if ← b.release id owner then return id ++ ": released\n"
    else return id ++ ": not held by " ++ owner ++ ", nothing to release\n"
  | block id waitingFor => Outcome.ofAction do
    let t ← b.block id owner waitingFor
    return t.id ++ ": waiting for " ++ t.waitingFor.getD "" ++ "\n"
  | complete id => Outcome.ofAction do
    let unblocked ← b.complete id owner
    return id ++ ": done\n" ++ eachLine "  unblocked" unblocked
  | cancel id => Outcome.ofAction do
    let _ ← b.cancel id
    return id ++ ": cancelled\n"
  | promote id => Outcome.ofAction do
    let _ ← b.promote id
    return id ++ ": todo\n"
  | defer id target => Outcome.ofAction do
    let t ← b.defer id target
    return id ++ ": " ++ t.state.name ++ "\n"
  | cycles => Outcome.ofAction do return cycleWords (← b.cycles)
  | reconcile => Outcome.ofAction do
    let saved ← b.reconcile
    return if saved.isEmpty then "Store is consistent.\n" else eachLine "repaired" saved
  | lock action => Outcome.ofAction (action.run b owner)

/-- Run a command on the board at a root, with the settings kept there. -/
def runAt (root : Path) (owner : String) (c : Command) : Program Outcome := do
  match ← (Board.open root).run with
  | .ok b => run b owner c
  | .error e => return { error := some e }

end Command

/-- What the surroundings say about board and owner, and the number of the process. -/
structure Surroundings where
  dir : Option String := none
  owner : Option String := none
  process : String

namespace Invocation

/-- The board: the one named in the command line, else in the surroundings, else a hidden
directory. -/
def root (i : Invocation) (s : Surroundings) : Path :=
  .ofText ((i.dir.or s.dir).getD ".tasks")

/-- The owner: the one named in the command line, else in the surroundings if that is not
blank, else the process. -/
def ownerName (i : Invocation) (s : Surroundings) : String :=
  (i.owner.or (s.owner.filter fun o => !Text.isAllBlank o)).getD ("pid-" ++ s.process)

/-- Run the command. -/
def run (i : Invocation) (s : Surroundings) : Program Outcome :=
  i.command.runAt (i.root s) (i.ownerName s)

end Invocation

/-- The name of the program and its number. -/
def versionLine : String := "tasklock 0.1.0\n"

end Workboard
