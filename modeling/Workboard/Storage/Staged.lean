import Workboard.Storage.Program

/-!
# Replacing a file in one step

A text is written to a hidden file beside its place and then renamed onto it, so
a reader finds the old text or the new one. If the rename fails, the hidden file is
removed again.
-/
namespace Workboard

/-- The hidden file beside a path. -/
def Path.staged (p : Path) (token : String) : Path :=
  p.sibling ("." ++ p.name ++ "." ++ token ++ ".tmp")

/-- Put a text at a path, in place of what is there. -/
def Action.replace (p : Path) (s : String) : Action Unit := do
  let staged := p.staged (← token)
  orFail (write staged s)
  match ← rename staged p with
  | .ok () => pure ()
  | .error failure =>
    let _ ← remove staged
    throw (.storage failure.message)

end Workboard
