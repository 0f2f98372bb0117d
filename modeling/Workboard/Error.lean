import Workboard.Number.Decimal
import Workboard.Task.State
import Workboard.Text.Quoted
import Workboard.Time.Printer

/-!
# Errors

Why an operation did not happen. Each cause is a constructor with the facts that its
message tells.
-/
namespace Workboard

/-- Why a record or a lock file cannot be used. -/
inductive Corruption where
  | missingFrontMatter
  | unterminatedFrontMatter
  | unreadable
  | declares (id : String)
  | timeoutOutOfRange (hours : Binary64)
  | heartbeatOutOfRange (heartbeat : Instant)
  deriving DecidableEq

/-- Why a state may not follow another one. -/
inductive Forbidden where
  | terminal
  | already
  | startOnlyTodo
  | completeOnlyActive
  | waitOnlyActive
  | noSuchMove
  | lockNotHeld
  | nothingToWaitFor
  deriving DecidableEq

/-- Why a task refuses an operation. -/
inductive Refusal where
  | move (source target : TaskState) (why : Forbidden)
  | notTodo (state : TaskState)
  | unmetRequirements (ids : List String)
  | onCycle
  | taken
  | blankTitle
  | initialState (state : TaskState)
  | requiresItself
  | wouldCycle (ids : List String)
  | readOnly (field : String)
  | unknownState (word : String)
  | unknownPriority (word : String)
  | promoteOnlyShelved (state : TaskState)
  | deferTarget (state : TaskState)
  | spawnFromTerminal (state : TaskState)
  | blankOwner
  | lockTimeout
  deriving DecidableEq

/-- What is wrong with the settings. -/
inductive Misconfiguration where
  | unreadable (path : String) (problem : String)
  | malformed (path : String)
  | lockTimeout (hours : Binary64)
  | defaultState (state : TaskState)
  deriving DecidableEq

inductive Error where
  | notFound (id : String)
  | corrupt (id : String) (reason : Corruption)
  | alreadyLocked (id owner : String)
  | refused (id : String) (reason : Refusal)
  | lostOwnership (id owner : String)
  | invalidId (id : String)
  | misconfigured (problem : Misconfiguration)
  | storage (problem : String)
  deriving DecidableEq

/-- The longest lock timeout in hours, one year. -/
def maxTimeoutHours : Nat := 8760

namespace Corruption

def message : Corruption → String
  | missingFrontMatter => "missing front matter"
  | unterminatedFrontMatter => "unterminated front matter"
  | unreadable => "<parse error>"
  | declares id => "record declares id " ++ id
  | timeoutOutOfRange hours =>
    "timeout_hours must be in (0, " ++ toString maxTimeoutHours ++ "], got " ++
      Binary64.Layout.message.render hours
  | heartbeatOutOfRange t => "heartbeat_at " ++ t.toSpacedText ++ " is out of range"

end Corruption

namespace Forbidden

def message : Forbidden → String
  | terminal => "terminal tasks cannot be reopened"
  | already => "task is already in that state"
  | startOnlyTodo => "only todo tasks can be started"
  | completeOnlyActive => "only active tasks can be completed"
  | waitOnlyActive => "only active tasks can start waiting"
  | noSuchMove => "no such transition"
  | lockNotHeld => "the task lock is not held"
  | nothingToWaitFor => "waiting_for must be set"

end Forbidden

namespace Refusal

def message : Refusal → String
  | move source target why =>
    source.name ++ " -> " ++ target.name ++ " is not allowed: " ++ why.message
  | notTodo state => "task is " ++ state.name ++ ", not todo"
  | unmetRequirements ids => "requirements not done: " ++ ", ".intercalate ids
  | onCycle => "task is on a dependency cycle"
  | taken => "a task with this id already exists"
  | blankTitle => "title must not be empty"
  | initialState state => "new tasks cannot start in " ++ state.name
  | requiresItself => "a task cannot require itself"
  | wouldCycle ids => "requirements would form a cycle: " ++ " -> ".intercalate ids
  | readOnly field => field ++ " is read-only"
  | unknownState word => "unknown task state: " ++ word
  | unknownPriority word => "unknown priority: " ++ word
  | promoteOnlyShelved state =>
    "only backlog or someday tasks can be promoted, task is " ++ state.name
  | deferTarget state => "cannot defer to " ++ state.name
  | spawnFromTerminal state => "cannot spawn from a " ++ state.name ++ " task"
  | blankOwner => "lock owner must not be empty"
  | lockTimeout =>
    "lock timeout must be positive and at most " ++ toString maxTimeoutHours ++ " hours"

end Refusal

namespace Misconfiguration

def message : Misconfiguration → String
  | unreadable path problem => "failed to read " ++ path ++ ": " ++ problem
  | malformed path => "failed to parse " ++ path ++ ": <parse error>"
  | lockTimeout hours =>
    "lock_timeout_hours must be positive and at most " ++ toString maxTimeoutHours ++ ", got " ++
      Binary64.Layout.message.render hours
  | defaultState state => "default_state must be backlog, todo or someday, got " ++ state.name

end Misconfiguration

namespace Error

/-- The text of an error. -/
def message : Error → String
  | notFound id => "task not found: " ++ id
  | corrupt id reason => "corrupt task record " ++ id ++ ": " ++ reason.message
  | alreadyLocked id owner => "task " ++ id ++ " is locked by " ++ owner
  | refused id reason => "precondition failed for " ++ id ++ ": " ++ reason.message
  | lostOwnership id owner => owner ++ " no longer holds the lock on " ++ id
  | invalidId id => "invalid task id " ++ Text.quoted id
  | misconfigured problem => "configuration error: " ++ problem.message
  | storage problem => "io error: " ++ problem

end Error

end Workboard
