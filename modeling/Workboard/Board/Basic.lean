import Workboard.Board.Locks
import Workboard.Graph.Readiness
import Workboard.Settings

/-!
# Boards

A board is a directory that tasks and locks are kept in, and settings. What all of
its operations use stands here.
-/
namespace Workboard

structure Board where
  root : Path
  settings : Settings := {}

namespace Board
open Workboard.Action

/-- The board at a root with the settings that are kept there. -/
def «open» (root : Path) : Action Board := do return ⟨root, ← Settings.load root⟩

/-- Move a task now and save it. -/
def advance (b : Board) (t : Task) (target : TaskState) (g : Guard) : Action Task := do
  let t ← settle (t.move target g (← now))
  Records.save b.root t
  pure t

/-- Save the tasks one by one; those that could be saved. -/
def saveEach (b : Board) : List Task → Action (List Task)
  | [] => pure []
  | t :: ts => do
    match ← attempt (Records.save b.root t) with
    | .ok () => return t :: (← b.saveEach ts)
    | .error _ => b.saveEach ts

/-- Note in the record of `id` that `dependent` requires it, or no longer does. A record
that cannot be read or saved is left as it is. -/
def linkOne (b : Board) (now : Instant) (dependent id : String) (added : Bool) : Action Unit := do
  match ← attempt (Records.load b.root id) with
  | .error _ => pure ()
  | .ok t =>
    if added = (dependent ∈ t.blocks : Bool) then pure ()
    else
      let blocks := if added then t.blocks.insert dependent else t.blocks.erase dependent
      let _ ← attempt (Records.save b.root ({ t with blocks }.touch now))

def linkEach (b : Board) (now : Instant) (dependent : String) (added : Bool) :
    List String → Action Unit
  | [] => pure ()
  | id :: ids => do
    b.linkOne now dependent id added
    b.linkEach now dependent added ids

/-- Carry a change of the requirements of a task over to the tasks it requires now and
those it no longer requires. -/
def link (b : Board) (dependent : String) (added removed : TextSet) : Action Unit := do
  let now ← now
  b.linkEach now dependent true added.toList
  b.linkEach now dependent false removed.toList

/-- The tasks that are ready, in the order of claims. -/
def ready (b : Board) : Action (List Task) := do return (← Records.scan b.root).ready

/-- All cycles of requirements. -/
def cycles (b : Board) : Action (List (List String)) := do return (← Records.scan b.root).cycles

end Board

end Workboard
