import Workboard.Sorted
import Workboard.Storage.World

/-!
# Directory trees

Files and directories as a system of files keeps them, with its messages. Places are
lists of names from the root on. A relative path begins in the working directory.
Writing a file makes the directories above it first.
-/
namespace Workboard

/-- What is at a place. The text of a file is missing if its bytes are no text. -/
inductive Entry where
  | dir
  | file (text : Option String)
  deriving DecidableEq, Inhabited

structure Tree where
  entries : List (List String × Entry) := []
  /-- The working directory. -/
  here : List String := []
  deriving Inhabited

namespace Tree

/-- A place in a tree. -/
abbrev Place := List String

def failure (message : String) (code : Nat) : Failure :=
  ⟨false, message ++ " (os error " ++ toString code ++ ")"⟩

def noEntry : Failure := { failure "No such file or directory" 2 with absent := true }
def taken : Failure := failure "File exists" 17
def notDir : Failure := failure "Not a directory" 20
def isDir : Failure := failure "Is a directory" 21
def invalid : Failure := failure "Invalid argument" 22
def nameTooLong : Failure := failure "File name too long" 36
def notEmpty : Failure := failure "Directory not empty" 39
def notText : Failure := ⟨false, "stream did not contain valid UTF-8"⟩

/-- The most bytes of a name. -/
def nameLimit : Nat := 255

/-- What is at a place. There is always a root. -/
def entry? (t : Tree) (place : Place) : Option Entry :=
  if place.isEmpty then some .dir else t.entries.lookup place

def erase (place : Place) (t : Tree) : Tree :=
  { t with entries := t.entries.filter (·.1 ≠ place) }

def put (place : Place) (e : Entry) (t : Tree) : Tree :=
  { t with entries := (t.erase place).entries ++ [(place, e)] }

/-- One name on from a directory. -/
def step (dir : Place) (name : String) : Place :=
  if name = "/" then []
  else if name = "." then dir
  else if name = ".." then dir.dropLast
  else dir ++ [name]

/-- The place that names lead to. All places on the way are directories. -/
def locate (t : Tree) (dir : Place) : List String → Except Failure Place
  | [] => .ok dir
  | name :: names =>
    match t.entry? dir with
    | none => .error noEntry
    | some (.file _) => .error notDir
    | some .dir =>
      if nameLimit < name.utf8ByteSize then .error nameTooLong
      else t.locate (step dir name) names

/-- The place of a path. -/
def place (t : Tree) (p : Path) : Except Failure Place :=
  if p.names.isEmpty then .error noEntry else t.locate t.here p.names

/-- Make the directories that names lead through, as far as they are missing. -/
def makeAll (dir : Place) : List String → Tree → Except Failure Unit × Tree
  | [], t => (.ok (), t)
  | name :: names, t =>
    if nameLimit < name.utf8ByteSize then (.error nameTooLong, t)
    else
      let next := step dir name
      match t.entry? next with
      | some .dir => makeAll next names t
      | some (.file _) => (.error (if names.isEmpty then taken else notDir), t)
      | none => makeAll next names (t.put next .dir)

/-- Make a directory and those above it. -/
def makeDir (p : Path) (t : Tree) : Except Failure Unit × Tree := makeAll t.here p.names t

/-- Go on after the directories above a path are made. -/
def withParent {α : Type} (p : Path) (t : Tree) (next : Tree → Except Failure α × Tree) :
    Except Failure α × Tree :=
  match t.makeDir p.parent with
  | (.ok (), t) => next t
  | (.error f, t) => (.error f, t)

/-- Put a file at a path, its text missing if it is no text. -/
def writeEntry (p : Path) (text : Option String) (t : Tree) : Except Failure Unit × Tree :=
  t.withParent p fun t =>
    match t.place p with
    | .error f => (.error f, t)
    | .ok place => match t.entry? place with
      | some .dir => (.error isDir, t)
      | _ => (.ok (), t.put place (.file text))

def read (p : Path) (t : Tree) : Except Failure String := do
  match t.entry? (← t.place p) with
  | none => .error noEntry
  | some .dir => .error isDir
  | some (.file none) => .error notText
  | some (.file (some s)) => .ok s

/-- The text is written aside first, under a name that is longer by this. -/
def asideLength : Nat := 38

def createNew (p : Path) (s : String) (t : Tree) : Except Failure Bool × Tree :=
  t.withParent p fun t =>
    if nameLimit < p.name.utf8ByteSize + asideLength then (.error nameTooLong, t)
    else match t.place p with
      | .error f => (.error f, t)
      | .ok place => match t.entry? place with
        | some _ => (.ok false, t)
        | none => (.ok true, t.put place (.file (some s)))

/-- All below a place. -/
def below (place : Place) (t : Tree) : List (Place × Entry) :=
  t.entries.filter fun e => place.isPrefixOf e.1 && e.1 ≠ place

/-- Move what is at one place, and all below it, to another one. -/
def moveEntry (source target : Place) (t : Tree) : Tree :=
  let kept := t.entries.filter (·.1 ≠ target)
  { t with entries := kept.map fun (place, e) =>
      if source.isPrefixOf place then (target ++ place.drop source.length, e) else (place, e) }

/-- The objection to moving one entry in place of another one, if there is one. -/
def moveObjection? (t : Tree) (source target : Place) : Option Failure :=
  match t.entry? source, t.entry? target with
  | none, _ => some noEntry
  | some s, e =>
    if source ≠ target && source.isPrefixOf target then some invalid
    else if source ≠ target && target.isPrefixOf source then some notEmpty
    else match s, e with
      | .file _, some .dir => some isDir
      | .dir, some (.file _) => some notDir
      | .dir, some .dir =>
        if source ≠ target && !(t.below target).isEmpty then some notEmpty else none
      | _, _ => none

def rename (p q : Path) (t : Tree) : Except Failure Unit × Tree :=
  t.withParent q fun t =>
    match t.place p, t.place q with
    | .error f, _ => (.error f, t)
    | _, .error f => (.error f, t)
    | .ok source, .ok target =>
      match t.moveObjection? source target with
      | some f => (.error f, t)
      | none => (.ok (), if source = target then t else t.moveEntry source target)

def remove (p : Path) (t : Tree) : Except Failure Bool × Tree :=
  match t.place p with
  | .error f => (if f.absent then .ok false else .error f, t)
  | .ok place => match t.entry? place with
    | none => (.ok false, t)
    | some .dir => (.error isDir, t)
    | some (.file _) => (.ok true, t.erase place)

def present (p : Path) (t : Tree) : Bool :=
  match t.place p with
  | .ok place => (t.entry? place).isSome
  | .error _ => false

/-- The names directly in a directory. -/
def names (place : Place) (t : Tree) : List String :=
  sortBy (· ≤ ·) <|
    (t.entries.filter fun e => !e.1.isEmpty && e.1.dropLast = place).filterMap fun e => e.1.getLast?

def list (p : Path) (t : Tree) : Except Failure (List String) := do
  let place ← t.place p
  match t.entry? place with
  | none => .error noEntry
  | some (.file _) => .error notDir
  | some .dir => .ok (t.names place)

instance : FileStore Tree where
  read p t := (t.read p, t)
  write p s := writeEntry p (some s)
  createNew := createNew
  rename := rename
  remove := remove
  present p t := (t.present p, t)
  list p t := (t.list p, t)

end Tree

end Workboard
