import Workboard.Error
import Workboard.Storage.Path

/-!
# Programs of calls

An operation asks its surroundings one thing at a time: the clock, a fresh id, or the
shared directory. It is either finished or waits for the answer to one call, so the
same operation can be run alone or interleaved with others. Main statement: running a
composed program runs its parts one after the other.
-/
namespace Workboard

/-- Why the shared directory did not do what it was asked. `absent` tells that there is
nothing at the path. -/
structure Failure where
  absent : Bool
  message : String
  deriving DecidableEq, Inhabited

inductive Call where
  | now
  | freshId
  /-- A name part that no other staged file has. -/
  | token
  | read (path : Path)
  /-- Put a text at the path, with the directories above it. -/
  | write (path : Path) (text : String)
  /-- Put a text at the path, unless something is there. -/
  | createNew (path : Path) (text : String)
  /-- Move a file in one step, in place of what is at the target. -/
  | rename (source target : Path)
  /-- Remove a file; false if there was none. -/
  | remove (path : Path)
  /-- Whether there is anything at the path. -/
  | present (path : Path)
  /-- The names in a directory, in ascending order. -/
  | list (path : Path)

/-- What a call is answered with. -/
def Call.Answer : Call → Type
  | .now => Instant
  | .freshId => String
  | .token => String
  | .read _ => Except Failure String
  | .write _ _ => Except Failure Unit
  | .createNew _ _ => Except Failure Bool
  | .rename _ _ => Except Failure Unit
  | .remove _ => Except Failure Bool
  | .present _ => Bool
  | .list _ => Except Failure (List String)

inductive Program (α : Type) where
  | done (a : α)
  | ask (c : Call) (next : c.Answer → Program α)

namespace Program
variable {α β γ : Type}

def bind : Program α → (α → Program β) → Program β
  | done a, f => f a
  | ask c next, f => ask c fun r => (next r).bind f

instance : Monad Program where
  pure := done
  bind := bind

@[simp] theorem pure_bind' (a : α) (f : α → Program β) : (done a).bind f = f a := rfl

@[simp] theorem bind_done (p : Program α) : p.bind done = p := by
  induction p with
  | done a => rfl
  | ask c next ih => simp [bind, ih]

theorem bind_assoc' (p : Program α) (f : α → Program β) (g : β → Program γ) :
    (p.bind f).bind g = p.bind fun a => (f a).bind g := by
  induction p with
  | done a => rfl
  | ask c next ih => simp [bind, ih]

instance : LawfulMonad Program := .mk' _ bind_done (fun _ _ => rfl) bind_assoc'

/-- One call and its answer. -/
def call (c : Call) : Program c.Answer := ask c done

/-- Run a program with a way to answer each call. -/
def run {m : Type → Type} [Monad m] (answer : (c : Call) → m c.Answer) : Program α → m α
  | done a => pure a
  | ask c next => do run answer (next (← answer c))

@[simp] theorem run_pure {m : Type → Type} [Monad m] (answer : (c : Call) → m c.Answer) (a : α) :
    run answer (pure a : Program α) = pure a := rfl

@[simp] theorem run_bind {m : Type → Type} [Monad m] [LawfulMonad m]
    (answer : (c : Call) → m c.Answer) (p : Program α) (f : α → Program β) :
    run answer (p >>= f) = run answer p >>= fun a => run answer (f a) := by
  change run answer (p.bind f) = _
  induction p with
  | done a => simp [bind, run]
  | ask c next ih => simp [bind, run, ih]

end Program

/-- A program that may end with an error. -/
abbrev Action := ExceptT Error Program

namespace Action

/-- Ask, where no failure is possible. -/
def ask (c : Call) : Action c.Answer := ExceptT.lift (Program.call c)

def now : Action Instant := ask .now

def freshId : Action String := ask .freshId

def token : Action String := ask .token

def present (p : Path) : Action Bool := ask (.present p)

def read (p : Path) : Action (Except Failure String) := ask (.read p)

def write (p : Path) (s : String) : Action (Except Failure Unit) := ask (.write p s)

def createNew (p : Path) (s : String) : Action (Except Failure Bool) := ask (.createNew p s)

def rename (p q : Path) : Action (Except Failure Unit) := ask (.rename p q)

def remove (p : Path) : Action (Except Failure Bool) := ask (.remove p)

def list (p : Path) : Action (Except Failure (List String)) := ask (.list p)

/-- What the shared directory answered, with a failure as an error. -/
def orFail {α : Type} (a : Action (Except Failure α)) : Action α := do
  match ← a with
  | .ok x => pure x
  | .error failure => throw (.storage failure.message)

/-- A result that needs no calls. -/
def settle {α : Type} (r : Except Error α) : Action α := ExceptT.mk (pure r)

/-- Go on with what an action came to, error or not. -/
def attempt {α : Type} (a : Action α) : Action (Except Error α) := ExceptT.lift a.run

end Action

end Workboard
