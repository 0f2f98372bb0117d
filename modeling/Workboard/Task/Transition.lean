import Workboard.Error
import Workboard.Task.Basic

/-!
# Moving from state to state

Which moves are allowed, what a move asks of its caller, and what else it changes in
the task. A refused move changes nothing.
-/
namespace Workboard

/-- What the caller of a move vouches for. -/
structure Guard where
  lockHeld : Bool := false
  waitingFor : Option String := none
  deriving DecidableEq, Inhabited

/-- What a move asks for. -/
inductive Rule where
  | always
  | needsLock
  | needsCondition
  | never (why : Forbidden)
  deriving DecidableEq

namespace TaskState

/-- The rule of each move. -/
def rule (source target : TaskState) : Rule :=
  if source.isTerminal then .never .terminal
  else if source = target then .never .already
  else match source, target with
    | _, cancelled => .always
    | backlog, todo => .always
    | someday, todo => .always
    | todo, backlog => .always
    | todo, someday => .always
    | backlog, someday => .always
    | someday, backlog => .always
    | waiting, todo => .always
    | active, todo => .always
    | active, done => .always
    | todo, active => .needsLock
    | active, waiting => .needsCondition
    | _, active => .never .startOnlyTodo
    | _, done => .never .completeOnlyActive
    | _, waiting => .never .waitOnlyActive
    | _, _ => .never .noSuchMove

end TaskState

namespace Guard

/-- Why the guard does not meet a rule, if it does not. -/
def objection? (g : Guard) : Rule → Option Forbidden
  | .always => none
  | .needsLock => if g.lockHeld then none else some .lockNotHeld
  | .needsCondition =>
    match g.waitingFor with
    | some w => if Text.isAllBlank w then some .nothingToWaitFor else none
    | none => some .nothingToWaitFor
  | .never why => some why

end Guard

namespace Task

/-- Whether the task may move to the state under the guard. -/
def checkMove (t : Task) (target : TaskState) (g : Guard) : Except Error Unit :=
  match g.objection? (t.state.rule target) with
  | none => .ok ()
  | some why => .error (.refused t.id (.move t.state target why))

/-- The task after an allowed move: a task that begins to wait takes the condition from
the guard, one that ends waiting or is done forgets it, and one that goes back from
active to todo is assigned to nobody. -/
def moved (t : Task) (target : TaskState) (g : Guard) (now : Instant) : Task :=
  let t' := match t.state, target with
    | _, .waiting => { t with waitingFor := g.waitingFor }
    | .waiting, .todo => { t with waitingFor := none }
    | _, .done => { t with waitingFor := none }
    | .active, .todo => { t with assignedTo := none }
    | _, _ => t
  { t' with state := target }.touch now

/-- Move the task, if it may move. -/
def move (t : Task) (target : TaskState) (g : Guard) (now : Instant) : Except Error Task :=
  (t.checkMove target g).map fun _ => t.moved target g now

end Task

end Workboard
