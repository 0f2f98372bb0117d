import Workboard.Lock.Record
import Workboard.Storage.Program
import Workboard.Yaml.Reading

/-!
# Settings

The timeout of locks and what new tasks get that do not say it themselves. They
are read from a file of the board; without the file, or for a key that is not in
it, the defaults count.
-/
namespace Workboard

structure Settings where
  lockTimeoutHours : Binary64 := .ofNat 4
  defaultPriority : Priority := .medium
  defaultState : TaskState := .todo
  deriving DecidableEq, Inhabited

namespace Settings

/-- The timeout of locks; zero if the hours are out of range. -/
def lockTimeout (s : Settings) : Duration := (timeoutOfHours? s.lockTimeoutHours).getD .zero

/-- What is wrong with the settings, if anything is. -/
def flaw? (s : Settings) : Option Misconfiguration :=
  if (timeoutOfHours? s.lockTimeoutHours).isNone then some (.lockTimeout s.lockTimeoutHours)
  else if s.defaultState.isInitial then none
  else some (.defaultState s.defaultState)

/-- The settings themselves, if nothing is wrong with them. -/
def validate (s : Settings) : Except Error Settings :=
  match s.flaw? with
  | some problem => .error (.misconfigured problem)
  | none => .ok s

/-- The keys of a settings file, as far as they were read. -/
structure Keys where
  lockTimeoutHours : Option Binary64 := none
  defaultPriority : Option Priority := none
  defaultState : Option TaskState := none

open Yaml Reading

namespace Keys

/-- Read one more key, each known one once only. Unknown keys count for nothing. -/
def read (k : Keys) (e : Node × Node) : Reading Keys := do
  match ← text e.1 with
  | "lock_timeout_hours" =>
    if k.lockTimeoutHours.isSome then refuse
    else pure { k with lockTimeoutHours := some (← fraction e.2) }
  | "default_priority" =>
    if k.defaultPriority.isSome then refuse
    else pure { k with defaultPriority := some (← word Priority.ofName? e.2) }
  | "default_state" =>
    if k.defaultState.isSome then refuse
    else pure { k with defaultState := some (← word TaskState.ofName? e.2) }
  | _ => pure k

/-- The settings of the keys, with the defaults for missing ones. -/
def settings (k : Keys) : Settings :=
  let usual : Settings := {}
  ⟨k.lockTimeoutHours.getD usual.lockTimeoutHours, k.defaultPriority.getD usual.defaultPriority,
    k.defaultState.getD usual.defaultState⟩

end Keys

/-- The settings in the text of a file. -/
def ofText? (s : String) : Option Settings := do
  let d ← Document.ofText? s
  let keys ← (do (← entries d.root).foldlM Keys.read {} : Reading Keys).run? d
  some keys.settings

/-- Where the settings of a board are. -/
def path (root : Path) : Path := root.child "config.yaml"

/-- The settings of the board at `root`. -/
def load (root : Path) : Action Settings := do
  let path := path root
  if ← Action.present path then
    match ← Action.read path with
    | .error failure => throw (.misconfigured (.unreadable path.shown failure.message))
    | .ok content => match ofText? content with
      | none => throw (.misconfigured (.malformed path.shown))
      | some settings => settings.validate
  else pure {}

end Settings

end Workboard
