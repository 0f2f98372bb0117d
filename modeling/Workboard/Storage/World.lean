import Workboard.Storage.Program

/-!
# Worlds

What programs run in: a file store, a clock, and counters for fresh ids and tokens.
Main statement: a composed program leaves the world that its second part leaves, begun
in the world that its first part left.
-/
namespace Workboard

/-- A shared directory by what it answers and what it becomes. -/
class FileStore (σ : Type) where
  read : Path → σ → Except Failure String × σ
  write : Path → String → σ → Except Failure Unit × σ
  createNew : Path → String → σ → Except Failure Bool × σ
  rename : Path → Path → σ → Except Failure Unit × σ
  remove : Path → σ → Except Failure Bool × σ
  present : Path → σ → Bool × σ
  list : Path → σ → Except Failure (List String) × σ

structure World (σ : Type) where
  store : σ
  clock : Instant
  ids : Nat := 0
  /-- The digits of an id, at least. -/
  idDigits : Nat := 4
  tokens : Nat := 0

namespace World
variable {σ : Type}

/-- The id of a count. -/
def idText (digits n : Nat) : String := "t-" ++ String.ofList (Text.padDigits digits n)

/-- The token of a count, of 32 digits. -/
def tokenText (n : Nat) : String := String.ofList (Text.padDigits 32 n)

/-- Replace the store by what it became. -/
def withStore {α : Type} (w : World σ) (r : α × σ) : α × World σ := (r.1, { w with store := r.2 })

/-- The answer to a call and the world after it. -/
def answer [FileStore σ] (c : Call) (w : World σ) : c.Answer × World σ :=
  match c with
  | .now => (w.clock, w)
  | .freshId => (idText w.idDigits (w.ids + 1), { w with ids := w.ids + 1 })
  | .token => (tokenText (w.tokens + 1), { w with tokens := w.tokens + 1 })
  | .read p => w.withStore (FileStore.read p w.store)
  | .write p s => w.withStore (FileStore.write p s w.store)
  | .createNew p s => w.withStore (FileStore.createNew p s w.store)
  | .rename p q => w.withStore (FileStore.rename p q w.store)
  | .remove p => w.withStore (FileStore.remove p w.store)
  | .present p => w.withStore (FileStore.present p w.store)
  | .list p => w.withStore (FileStore.list p w.store)

end World

namespace Program
variable {σ α β : Type} [FileStore σ]

/-- Run a program to its end in a world. -/
def runIn : Program α → World σ → α × World σ
  | done a, w => (a, w)
  | ask c next, w =>
    let (r, w) := w.answer c
    (next r).runIn w

@[simp] theorem runIn_pure (a : α) (w : World σ) : (pure a : Program α).runIn w = (a, w) := rfl

@[simp] theorem runIn_bind (p : Program α) (f : α → Program β) (w : World σ) :
    (p >>= f).runIn w = (f (p.runIn w).1).runIn (p.runIn w).2 := by
  change (p.bind f).runIn w = _
  induction p generalizing w with
  | done a => rfl
  | ask c next ih => simp [bind, runIn, ih]

@[simp] theorem runIn_call (c : Call) (w : World σ) : (call c).runIn w = w.answer c := rfl

end Program

end Workboard
