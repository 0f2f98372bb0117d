import Workboard.Lock.Record
import Workboard.Task.Basic
import Workboard.Text.Table
import Workboard.Yaml.Printer

/-!
# What commands print

Tasks and locks in words, in lines and in tables.
-/
namespace Workboard

/-- A length of time in its two largest units; none is shorter than no time. -/
def Duration.brief (d : Duration) : String :=
  let s := d.seconds.toNat
  if s < 60 then toString s ++ "s"
  else if s < 3600 then toString (s / 60) ++ "m"
  else if s < 86400 then
    toString (s / 3600) ++ "h " ++ String.ofList (Text.padDigits 2 (s % 3600 / 60)) ++ "m"
  else toString (s / 86400) ++ "d " ++ toString (s % 86400 / 3600) ++ "h"

namespace LockInfo

/-- The lock in one line. -/
def words (i : LockInfo) : String :=
  let expires := match i.record.expiresAt? with
    | some t => t.toOffsetText
    | none => "never"
  i.record.taskId ++ ": " ++ i.status.name ++ " by " ++ i.record.owner ++ ", held " ++
    i.heldFor.brief ++ ", idle " ++ i.idleFor.brief ++ ", expires " ++ expires

/-- The locks as a table. -/
def table (locks : List LockInfo) : String :=
  Text.table ["TASK", "OWNER", "STATUS", "HELD", "IDLE"] <| locks.map fun i =>
    [i.record.taskId, i.record.owner, i.status.name, i.heldFor.brief, i.idleFor.brief]

end LockInfo

namespace Task

/-- A line for what is there. -/
def line (label : String) : Option String → String
  | some s => label ++ ": " ++ s ++ "\n"
  | none => ""

/-- A line for a list, unless it is empty. -/
def listLine (label : String) (xs : List String) : String :=
  if xs.isEmpty then "" else line label (", ".intercalate xs)

/-- The lock of a task in its description. -/
def lockLine (i : LockInfo) : String :=
  line "Lock" (i.record.owner ++ " (" ++ i.status.name ++ ", held " ++ i.heldFor.brief ++
    ", last heartbeat " ++ i.idleFor.brief ++ " ago)")

/-- The body in a description, behind an empty line and with a line end. -/
def bodyLines (body : String) : String :=
  if Text.isAllBlank body then ""
  else "\n" ++ body ++ (if body.toList.getLast? = some '\n' then "" else "\n")

/-- A task and its lock in lines. -/
def words (t : Task) (lock : Option LockInfo) : String :=
  line "Task" t.id ++ line "Title" t.title ++ line "State" t.state.name ++
  line "Priority" t.priority.name ++
  listLine "Requires" t.requires.toList ++ listLine "Blocks" t.blocks.toList ++
  line "Waiting for" t.waitingFor ++ line "Assigned to" t.assignedTo ++
  line "Spawned from" t.spawnedFrom ++ listLine "Spawned" t.spawnedTasks ++
  line "Created" t.createdAt.toOffsetText ++ line "Updated" t.updatedAt.toOffsetText ++
  (lock.map lockLine).getD "" ++
  String.join (t.extra.entries.map fun (name, v) => line name (Text.trimEnd v.render)) ++
  bodyLines t.body

/-- The tasks as a table. -/
def table (tasks : List Task) : String :=
  Text.table ["ID", "STATE", "PRIORITY", "TITLE"] <| tasks.map fun t =>
    [t.id, t.state.name, t.priority.name, t.title]

/-- The tasks as a table with the owners of their locks. -/
def lockTable (tasks : List Task) (locks : List LockInfo) : String :=
  Text.table ["ID", "STATE", "PRIORITY", "LOCK", "TITLE"] <| tasks.map fun t =>
    let lock := match locks.reverse.find? (·.record.taskId = t.id) with
      | some i => i.record.owner ++ " (" ++ i.status.name ++ ")"
      | none => "-"
    [t.id, t.state.name, t.priority.name, lock, t.title]

end Task

end Workboard
