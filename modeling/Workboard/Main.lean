import Std.Time.DateTime.Timestamp
import Workboard.Command.Run
import Workboard.Storage.Tree

/-!
# The program

The command line on the files of the system. Each call of a command is carried out
when it is asked, and nothing else happens here.
-/
namespace Workboard.Live

-- Powers are those of the core library, whatever else is in scope.
attribute [local instance (high)] instPowNat

/-- The number of an error, which the system may give with its sign changed. -/
def errorNumber (code : UInt32) : Nat :=
  if code.toNat < 2 ^ (31 : Nat) then code.toNat else 2 ^ (32 : Nat) - code.toNat

/-- An error of the system in the words for its number. -/
def failureOf (code : UInt32) (details : String) : Failure :=
  let known := [(2, Tree.noEntry), (17, Tree.taken), (20, Tree.notDir), (21, Tree.isDir),
    (22, Tree.invalid), (36, Tree.nameTooLong), (39, Tree.notEmpty)]
  (known.lookup (errorNumber code)).getD (Tree.failure details (errorNumber code))

def failureOfError : IO.Error → Failure
  | .alreadyExists _ code details => failureOf code details
  | .noFileOrDirectory _ code details => failureOf code details
  | .inappropriateType _ code details => failureOf code details
  | .permissionDenied _ code details => failureOf code details
  | .resourceExhausted _ code details => failureOf code details
  | .invalidArgument _ code details => failureOf code details
  | .unsatisfiedConstraints code details => failureOf code details
  | .otherError code details => failureOf code details
  | e => ⟨false, toString e⟩

/-- What the system is asked for may fail. -/
abbrev Attempt (α : Type) := ExceptT Failure IO α

/-- The answer of the system, an error as a failure. -/
def attempt {α : Type} (a : IO α) : Attempt α := ExceptT.mk do
  try
    return .ok (← a)
  catch e => return .error (failureOfError e)

/-- So many random bytes in hexadecimal digits. -/
def randomDigits (bytes : USize) : IO String := do
  let bs ← IO.getRandomBytes bytes
  return String.ofList (bs.toList.flatMap fun b => [Nat.digitChar (b.toNat / 16), Nat.digitChar (b.toNat % 16)])

/-- Whether a path leads to a directory. -/
def leadsToDir (p : Path) : IO Bool := do
  try
    let found ← IO.FS.realPath p.shown
    found.isDir
  catch _ => return false

/-- Make a directory; one that is there already will do. -/
def makeDir (p : Path) : Attempt Unit := do
  try
    attempt (IO.FS.createDir p.shown)
  catch f =>
    if f.absent then throw f
    else if ← leadsToDir p then pure ()
    else throw f

/-- Make a directory and, where they are missing, those above it, so many at most. -/
def makeDirs (p : Path) : Nat → Attempt Unit
  | 0 => makeDir p
  | above + 1 => do
    try
      makeDir p
    catch f =>
      if f.absent then
        makeDirs p.parent above
        makeDir p
      else throw f

/-- Make the directories above a path. -/
def makeParent (p : Path) : Attempt Unit :=
  if p.parent.names.isEmpty then pure () else makeDirs p.parent p.parent.names.length

def read (p : Path) : Attempt String := do
  match String.fromUTF8? (← attempt (IO.FS.readBinFile p.shown)) with
  | some s => pure s
  | none => throw Tree.notText

def write (p : Path) (s : String) : Attempt Unit := do
  makeParent p
  attempt (IO.FS.writeFile p.shown s)

/-- Whether the step was taken, where something may be in its way already. -/
def unlessTaken (step : Attempt Unit) : Attempt Bool := do
  try
    step
    pure true
  catch f => if f = Tree.taken then pure false else throw f

/-- Write a file that is not there yet. -/
def writeNew (p : Path) (s : String) : IO Unit := do
  let file ← IO.FS.Handle.mk p.shown .writeNew
  file.putStr s

/-- Remove a file if that can be done. -/
def discardFile (p : Path) : IO Unit := do
  try
    IO.FS.removeFile p.shown
  catch _ => pure ()

/-- Put a file at a path by linking it there, which fails if anything is there. Where files
cannot be linked, the file is written in place. -/
def createNew (p : Path) (s : String) : Attempt Bool := do
  makeParent p
  let aside := p.staged (← randomDigits 16)
  attempt (IO.FS.writeFile aside.shown s)
  try
    unlessTaken (attempt (IO.FS.hardLink aside.shown p.shown))
  catch _ => unlessTaken (attempt (writeNew p s))
  finally discardFile aside

def rename (p q : Path) : Attempt Unit := do
  makeParent q
  attempt (IO.FS.rename p.shown q.shown)

def remove (p : Path) : Attempt Bool := do
  try
    attempt (IO.FS.removeFile p.shown)
    pure true
  catch f => if f.absent then pure false else throw f

def present (p : Path) : IO Bool := do
  try
    let found ← IO.FS.realPath p.shown
    found.pathExists
  catch _ => return false

def list (p : Path) : Attempt (List String) := attempt do
  let found ← IO.FS.realPath p.shown
  let entries ← found.readDir
  return sortBy (· ≤ ·) (entries.toList.map fun e => e.fileName)

def now : IO Instant := do
  let t ← Std.Time.Timestamp.now
  return ⟨t.val.second.val, t.val.nano.val.toNat⟩

/-- Carry out one call. -/
def answer : (c : Call) → IO c.Answer
  | .now => now
  | .freshId => return "t-" ++ (← randomDigits 5)
  | .token => randomDigits 16
  | .read p => (read p).run
  | .write p s => (write p s).run
  | .createNew p s => (createNew p s).run
  | .rename p q => (rename p q).run
  | .remove p => (remove p).run
  | .present p => present p
  | .list p => (list p).run

/-- The number of this process. -/
def processNumber : IO String := do
  let s ← IO.FS.readFile "/proc/self/stat"
  return String.ofList (s.toList.takeWhile (· ≠ ' '))

/-- What is said to a command line that does not come to a command. -/
def stopText : Stop → String
  | .usage => "error: the command line cannot be understood\n"
  | .help => "Usage: tasklock [--dir PATH] [--owner ID] COMMAND\nCommands: " ++
      ", ".intercalate Command.names ++ "\n"
  | .version => versionLine

end Workboard.Live

open Workboard in
def main (args : List String) : IO UInt32 := do
  match Invocation.ofArguments args with
  | .error stop =>
    IO.eprint (Live.stopText stop)
    return 1
  | .ok i =>
    let around : Surroundings := {
      dir := ← IO.getEnv "TASKLOCK_DIR"
      owner := ← IO.getEnv "TASKLOCK_OWNER"
      process := ← Live.processNumber }
    let outcome ← Program.run Live.answer (i.run around)
    IO.print outcome.printed
    match outcome.error with
    | none => return 0
    | some e =>
      IO.eprintln e.message
      return 1
