import Workboard.Sorted
import Workboard.Task.State
import Workboard.Time.Instant
import Workboard.Yaml.Value

/-!
# Tasks

A task and its relations to other tasks. Fields that the board does not know are
kept as values under their names.
-/
namespace Workboard

structure Task where
  id : String
  title : String
  state : TaskState
  priority : Priority := .medium
  /-- The tasks that must be done before this one is ready. -/
  requires : TextSet := ∅
  /-- The tasks that require this one, as last written down. -/
  blocks : TextSet := ∅
  /-- What a waiting task waits for: a task id or free words. -/
  waitingFor : Option String := none
  assignedTo : Option String := none
  createdAt : Instant
  updatedAt : Instant
  /-- The task that this one was split off from. -/
  spawnedFrom : Option String := none
  /-- The tasks that were split off from this one, in that order. -/
  spawnedTasks : List String := []
  extra : TextMap Yaml.Value := ∅
  body : String := ""
  deriving DecidableEq, Inhabited

namespace Task

/-- Note a change at `now`; the time of the last change never moves back. -/
def touch (now : Instant) (t : Task) : Task :=
  { t with updatedAt := max (max now t.updatedAt) t.createdAt }

/-- The same task as stored: equal fields, and unknown fields with the same values. -/
def same (a b : Task) : Bool :=
  { a with extra := ∅ } = { b with extra := ∅ } &&
    a.extra.entries.length == b.extra.entries.length &&
    (a.extra.entries.zip b.extra.entries).all fun (x, y) => x.1 == y.1 && x.2.same y.2

end Task

/-- What a new task is made from. Absent choices are left to the settings. -/
structure NewTask where
  id : Option String := none
  title : String
  state : Option TaskState := none
  priority : Option Priority := none
  requires : List String := []
  body : String := ""

end Workboard
