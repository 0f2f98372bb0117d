import Workboard.Error
import Workboard.Json.Printer
import Workboard.Json.Reader
import Workboard.Time.Reader

/-!
# Lock records

Who holds a task, since when, the last sign of life, and after how many hours without
one the lock is stale. The hours are a binary number, so a timeout is rounded to whole
milliseconds each time it is used. A record is written as an object with one field a
line and read from an object with any further fields, or from the list of its fields.
-/
namespace Workboard

/-- The most hours a timeout may have, as a number. -/
def maxHours : Binary64 := .ofNat maxTimeoutHours

def millisPerHour : Binary64 := .ofNat 3600000

/-- The timeout of so many hours, in whole milliseconds. The hours must be a number above
zero and not above a year. -/
def timeoutOfHours? (hours : Binary64) : Option Duration :=
  if hours.isFinite && !hours.le (.zero false) && hours.le maxHours then
    some (.ofMillis (hours * millisPerHour).roundToInt)
  else none

/-- The hours of a timeout, its whole milliseconds divided by those of an hour. -/
def hoursOfTimeout (timeout : Duration) : Binary64 :=
  let ms := timeout.millis
  let n := Binary64.ofNat ms.natAbs / millisPerHour
  if ms < 0 then -n else n

/-- The longest timeout. -/
def maxTimeout : Duration := .ofHours maxTimeoutHours

structure LockRecord where
  taskId : String
  owner : String
  acquiredAt : Instant
  heartbeatAt : Instant
  timeoutHours : Binary64
  deriving DecidableEq

namespace LockRecord

/-- The record of a lock taken now. -/
def new (taskId owner : String) (now : Instant) (timeout : Duration) : LockRecord :=
  ⟨taskId, owner, now, now, hoursOfTimeout timeout⟩

/-- The timeout; zero if the hours are out of range. -/
def timeout (r : LockRecord) : Duration := (timeoutOfHours? r.timeoutHours).getD .zero

/-- The last instant at which the lock is not yet stale, if there is such an instant. -/
def expiresAt? (r : LockRecord) : Option Instant := r.heartbeatAt.add? r.timeout

/-- More time has gone by since the last sign of life than the timeout allows. -/
def isStale (r : LockRecord) (now : Instant) : Bool := r.timeout < now.since r.heartbeatAt

/-- What makes a record unusable, if anything does. -/
def flaw? (r : LockRecord) : Option Corruption :=
  if (timeoutOfHours? r.timeoutHours).isNone then some (.timeoutOutOfRange r.timeoutHours)
  else if r.expiresAt?.isNone then some (.heartbeatOutOfRange r.heartbeatAt)
  else none

/-- The text of a lock file. -/
def render (r : LockRecord) : String :=
  "\x7b\n  \"task_id\": " ++ Json.quote r.taskId ++
  ",\n  \"owner\": " ++ Json.quote r.owner ++
  ",\n  \"acquired_at\": " ++ Json.quote r.acquiredAt.toZuluText ++
  ",\n  \"heartbeat_at\": " ++ Json.quote r.heartbeatAt.toZuluText ++
  ",\n  \"timeout_hours\": " ++ Binary64.Layout.lockFile.render r.timeoutHours ++ "\n\x7d"

def timeOfJson? (j : Json) : Option Instant := j.text?.bind Instant.ofText?

def hoursOfJson? : Json → Option Binary64
  | .number n => n.toBinary64?
  | _ => none

/-- The names of the fields, in the order in which they are written. -/
def fieldNames : List String := ["task_id", "owner", "acquired_at", "heartbeat_at", "timeout_hours"]

/-- The record of five values in order. -/
def ofFields? : List Json → Option LockRecord
  | [taskId, owner, acquiredAt, heartbeatAt, timeoutHours] => do
    some ⟨← taskId.text?, ← owner.text?, ← timeOfJson? acquiredAt, ← timeOfJson? heartbeatAt,
      ← hoursOfJson? timeoutHours⟩
  | _ => none

/-- The only value of a name. -/
def onlyMember? (ms : List (Option String × Json)) (name : String) : Option Json :=
  match ms.filter (·.1 = some name) with
  | [m] => some m.2
  | _ => none

/-- The record that a value describes. Every field is there once; names have a text. -/
def ofJson? : Json → Option LockRecord
  | .array items => ofFields? items
  | .object ms =>
    if ms.any (·.1.isNone) then none else (fieldNames.mapM (onlyMember? ms)).bind ofFields?
  | _ => none

/-- The record in the text of a lock file. -/
def ofText? (s : String) : Option LockRecord := (Json.ofText? s).bind ofJson?

end LockRecord

inductive LockStatus where
  | active
  | stale
  deriving DecidableEq

def LockStatus.name : LockStatus → String
  | active => "active"
  | stale => "stale"

/-- A lock as seen at an instant. -/
structure LockInfo where
  record : LockRecord
  status : LockStatus
  heldFor : Duration
  idleFor : Duration
  deriving DecidableEq

namespace LockRecord

def infoAt (r : LockRecord) (now : Instant) : LockInfo :=
  ⟨r, if r.isStale now then .stale else .active, now.since r.acquiredAt, now.since r.heartbeatAt⟩

end LockRecord

end Workboard
