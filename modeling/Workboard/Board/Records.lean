import Workboard.Graph
import Workboard.Storage.Staged
import Workboard.Task.Id
import Workboard.Task.Record

/-!
# The records of a board

Every task has a file of its own, named for its id. Nothing is kept between two
operations: each reads what it needs.
-/
namespace Workboard.Records
open Workboard.Action

/-- The directory of the records. -/
def dir (root : Path) : Path := root.child "tasks"

/-- The file of a record. -/
def path (root : Path) (id : String) : Path := (dir root).child (id ++ ".md")

/-- The id itself, if it can name a record. -/
def checkId (id : String) : Action Unit :=
  if isValidId id then pure () else throw (.invalidId id)

/-- The task in the text of a record, which has to name the id it is filed under. -/
def read (id content : String) : Except Error Task :=
  match Record.parse content with
  | .error reason => .error (.corrupt id reason)
  | .ok t => if t.id = id then .ok t else .error (.corrupt id (.declares t.id))

/-- The task of an id. -/
def load (root : Path) (id : String) : Action Task := do
  checkId id
  match ← Action.read (path root id) with
  | .ok content => settle (read id content)
  | .error failure => throw (if failure.absent then .notFound id else .storage failure.message)

/-- Write a task in place of its record. -/
def save (root : Path) (t : Task) : Action Unit := do
  checkId t.id
  replace (path root t.id) (Record.render t)

/-- Write the record of a new task; false if there is one already. -/
def create (root : Path) (t : Task) : Action Bool := do
  checkId t.id
  orFail (createNew (path root t.id) (Record.render t))

/-- Whether there is a record of the id. -/
def holds (root : Path) (id : String) : Action Bool :=
  if isValidId id then present (path root id) else pure false

/-- The ids that the names of files stand for. -/
def idsOfNames (ending : String) (names : List String) : List String :=
  (names.filterMap (Text.beforeEnd? ending)).filter isValidId

/-- The ids of all records, in the order of the names of their files. -/
def ids (root : Path) : Action (List String) := do
  if ← present (dir root) then
    return idsOfNames ".md" (← orFail (list (dir root)))
  else return []

/-- The tasks of those ids that can be read. -/
def loadReadable (root : Path) : List String → Action Snapshot
  | [] => pure []
  | id :: ids => do
    match ← attempt (load root id) with
    | .ok t => return t :: (← loadReadable root ids)
    | .error _ => loadReadable root ids

/-- All tasks that can be read. -/
def scan (root : Path) : Action Snapshot := do loadReadable root (← ids root)

/-- What a look at all records finds. -/
structure Report where
  tasks : List Task := []
  corrupt : List (String × Error) := []

/-- The tasks of the ids, and what is wrong with those that cannot be read. A record that
is gone counts for nothing. -/
def loadEach (root : Path) : List String → Action Report
  | [] => pure {}
  | id :: ids => do
    match ← attempt (load root id) with
    | .ok t =>
      let report ← loadEach root ids
      return { report with tasks := t :: report.tasks }
    | .error (.notFound _) => loadEach root ids
    | .error e =>
      let report ← loadEach root ids
      return { report with corrupt := (id, e) :: report.corrupt }

/-- All tasks, and the records that cannot be read. -/
def loadAll (root : Path) : Action Report := do loadEach root (← ids root)

end Workboard.Records
