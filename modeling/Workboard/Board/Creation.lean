import Workboard.Board.Basic

/-!
# New tasks

A new task is checked against the board before its record is created, and then the
tasks it requires are told of it. A task may be split off from another one, which
takes note of it.
-/
namespace Workboard

/-- The requirements that a list of ids states for a task. -/
def requirementsOf (task : String) : List String → Except Error TextSet
  | [] => .ok ∅
  | id :: ids =>
    if id.isEmpty then requirementsOf task ids
    else if !isValidId id then .error (.invalidId id)
    else if id = task then .error (.refused task .requiresItself)
    else (requirementsOf task ids).map (·.insert id)

namespace NewTask

/-- The title and the state of a new task, if both are allowed. -/
def check (n : NewTask) (id : String) (settings : Settings) : Except Error (String × TaskState) :=
  let title := Text.trim n.title
  let state := n.state.getD settings.defaultState
  if title.isEmpty then .error (.refused id .blankTitle)
  else if state.isInitial then .ok (title, state)
  else .error (.refused id (.initialState state))

end NewTask

namespace Board
open Workboard.Action

/-- Create a task, perhaps as one split off from `parent`. -/
def insert (b : Board) (n : NewTask) (parent : Option String) : Action Task := do
  let id ← match n.id with
    | some id => pure id
    | none => freshId
  Records.checkId id
  if ← Records.holds b.root id then throw (.refused id .taken)
  let (title, state) ← settle (n.check id b.settings)
  let requires ← settle (requirementsOf id n.requires)
  let all ← Records.scan b.root
  let now ← now
  let t : Task := {
    id, title, state, requires
    priority := n.priority.getD b.settings.defaultPriority
    blocks := all.requirers id
    createdAt := now
    updatedAt := now
    spawnedFrom := parent
    body := n.body }
  match Snapshot.cycleWith? (all ++ [t]) id requires with
  | some cycle => throw (.refused id (.wouldCycle cycle))
  | none =>
    if ← Records.create b.root t then
      b.link id requires ∅
      pure t
    else throw (.refused id .taken)

/-- Create a task. -/
def create (b : Board) (n : NewTask) : Action Task := b.insert n none

/-- Create a task that is split off from another one, and note it there. -/
def spawn (b : Board) (parent : String) (n : NewTask) : Action Task := do
  let p ← Records.load b.root parent
  if p.state.isTerminal then throw (.refused parent (.spawnFromTerminal p.state))
  let child ← b.insert n (some parent)
  let p := { p with spawnedTasks := p.spawnedTasks ++ [child.id] }
  Records.save b.root (p.touch (← now))
  pure child

end Board

end Workboard
