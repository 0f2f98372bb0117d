import Workboard.Text.Blank

/-!
# States and priorities

The states of a task's life and the four priorities, with the words that stand for
them. A word is read exactly in records, and in letters of either case between
blanks where a person writes it.
-/
namespace Workboard

/-- The word without blanks around it and in small letters. -/
def foldWord (s : String) : String := String.ofList ((Text.trim s).toList.map Char.toLower)

inductive TaskState where
  | backlog
  | todo
  | active
  | waiting
  | done
  | cancelled
  | someday
  deriving DecidableEq, Inhabited

namespace TaskState

def all : List TaskState := [backlog, todo, active, waiting, done, cancelled, someday]

/-- No task leaves this state. -/
def isTerminal (s : TaskState) : Bool := s = done || s = cancelled

/-- New tasks may begin in this state. -/
def isInitial (s : TaskState) : Bool := s = backlog || s = todo || s = someday

/-- A task is put aside in this state. -/
def isShelf (s : TaskState) : Bool := s = backlog || s = someday

def name : TaskState → String
  | backlog => "backlog"
  | todo => "todo"
  | active => "active"
  | waiting => "waiting"
  | done => "done"
  | cancelled => "cancelled"
  | someday => "someday"

/-- The state of exactly this word. -/
def ofName? (s : String) : Option TaskState := all.find? (·.name = s)

/-- The state of this word in any case, between blanks. -/
def ofText? (s : String) : Option TaskState := ofName? (foldWord s)

theorem mem_all (s : TaskState) : s ∈ all := by cases s <;> decide

@[simp] theorem ofName?_name (s : TaskState) : ofName? s.name = some s := by
  cases s <;> decide +kernel

theorem ofText?_trim_name (s : TaskState) : ofText? (Text.trim s.name) = some s := by
  cases s <;> decide +kernel

end TaskState

inductive Priority where
  | low
  | medium
  | high
  | urgent
  deriving DecidableEq, Inhabited

namespace Priority

def all : List Priority := [low, medium, high, urgent]

/-- The place of a priority, the least urgent first. -/
def rank : Priority → Nat
  | low => 0
  | medium => 1
  | high => 2
  | urgent => 3

def name : Priority → String
  | low => "low"
  | medium => "medium"
  | high => "high"
  | urgent => "urgent"

/-- The priority of exactly this word. -/
def ofName? (s : String) : Option Priority := all.find? (·.name = s)

/-- The priority of this word in any case, between blanks. -/
def ofText? (s : String) : Option Priority := ofName? (foldWord s)

@[simp] theorem ofName?_name (p : Priority) : ofName? p.name = some p := by
  cases p <;> decide +kernel

end Priority

end Workboard
