import Workboard.Board.Creation
import Workboard.Board.Work

/-!
# Editing fields

One field of a task is set by its name and a text. The state goes through the rules
of moves without a lock. Unknown fields take any value that the text stands for, or
the text itself, and a blank text removes them.
-/
namespace Workboard

/-- The fields that nobody sets by hand. -/
def readOnlyFields : List String :=
  ["id", "blocks", "created_at", "updated_at", "spawned_from", "spawned_tasks"]

namespace Task

/-- No text for a blank one. -/
def nonBlank? (s : String) : Option String := if s.isEmpty then none else some s

/-- The task with one field set, for the fields other than state and requirements. -/
def setField (t : Task) (field value : String) : Except Error Task :=
  let trimmed := Text.trim value
  if field = "title" then
    if trimmed.isEmpty then .error (.refused t.id .blankTitle) else .ok { t with title := trimmed }
  else if field = "priority" then
    match Priority.ofText? trimmed with
    | some priority => .ok { t with priority }
    | none => .error (.refused t.id (.unknownPriority trimmed))
  else if field = "assigned_to" then .ok { t with assignedTo := nonBlank? trimmed }
  else if field = "waiting_for" then .ok { t with waitingFor := nonBlank? trimmed }
  else if field = "body" then .ok { t with body := value }
  else if trimmed.isEmpty then .ok { t with extra := t.extra.erase field }
  else
    .ok { t with extra := t.extra.insert field ((Yaml.Value.ofText? trimmed).getD (.str trimmed)) }

end Task

namespace Board
open Workboard.Action

/-- Set the state. The lock of a task that leaves active is removed by force, and the
dependents of a task that is done go on. -/
def editState (b : Board) (t : Task) (now : Instant) (word : String) : Action Task := do
  match TaskState.ofText? word with
  | none => throw (.refused t.id (.unknownState word))
  | some .cancelled => b.cancel t.id
  | some target =>
    let moved ← settle (t.move target { waitingFor := t.waitingFor } now)
    Records.save b.root moved
    if t.state = .active then let _ ← Locks.forceRelease b.root t.id
    if moved.state = .done then
      let all ← Records.scan b.root
      let _ ← b.saveEach (all.cascade t.id now)
    pure moved

/-- The ids in a text, between commas or blanks. -/
def idsOfText (s : String) : List String := (Text.split (fun c => c = ',' || c = ' ') s).map Text.trim

/-- Set the requirements, and tell the tasks that are required now or no longer are. -/
def editRequires (b : Board) (t : Task) (now : Instant) (text : String) : Action Task := do
  let requires ← settle (requirementsOf t.id (idsOfText text))
  match (← Records.scan b.root).cycleWith? t.id requires with
  | some cycle => throw (.refused t.id (.wouldCycle cycle))
  | none =>
    let edited := { t with requires }.touch now
    Records.save b.root edited
    b.link t.id (requires.diff t.requires) (t.requires.diff requires)
    pure edited

/-- Set one field of a task. -/
def edit (b : Board) (id field value : String) : Action Task := do
  let t ← Records.load b.root id
  let now ← now
  if field ∈ readOnlyFields then throw (.refused id (.readOnly field))
  else if field = "state" then b.editState t now (Text.trim value)
  else if field = "requires" then b.editRequires t now (Text.trim value)
  else
    let t ← settle (t.setField field value)
    let t := t.touch now
    Records.save b.root t
    pure t

end Board

end Workboard
