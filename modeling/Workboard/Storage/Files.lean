import Workboard.Sorted
import Workboard.Storage.World

/-!
# Files in memory

A map from paths to texts. Directories are not kept: there is one wherever a file lies
below. Writes and renames onto some paths can be refused. Main statements: what each
change does to the text at each path.
-/
namespace Workboard

/-- The names of a path are compared one by one, each by its text. -/
instance lawfulNames : LawfulBEq (List String) := List.instLawfulBEq

structure Files where
  entries : List (List String × String) := []
  /-- The paths that refuse to be written. -/
  refusing : List (List String) := []
  deriving DecidableEq, Inhabited

namespace Files

/-- The text at a place. -/
def text? (f : Files) (names : List String) : Option String := f.entries.lookup names

def erase (names : List String) (f : Files) : Files :=
  { f with entries := f.entries.filter (·.1 ≠ names) }

def put (names : List String) (s : String) (f : Files) : Files :=
  { f with entries := (f.erase names).entries ++ [(names, s)] }

theorem lookup_filter_ne {names other : List String} {es : List (List String × String)} :
    (es.filter (·.1 ≠ names)).lookup other = if other = names then none else es.lookup other := by
  induction es with
  | nil => simp
  | cons e es ih =>
    obtain ⟨k, v⟩ := e
    by_cases hk : k = names
    · subst hk
      rw [List.filter_cons_of_neg (by simp), ih]
      by_cases ho : other = k
      · simp [ho]
      · simp [ho, List.lookup_cons, beq_false_of_ne ho]
    · rw [List.filter_cons_of_pos (by simpa using hk), List.lookup_cons, List.lookup_cons, ih]
      by_cases ho : other = k
      · simp [ho, hk]
      · simp [beq_false_of_ne ho]

@[simp] theorem text?_erase (f : Files) (names other : List String) :
    (f.erase names).text? other = if other = names then none else f.text? other :=
  lookup_filter_ne

@[simp] theorem text?_put (f : Files) (names other : List String) (s : String) :
    (f.put names s).text? other = if other = names then some s else f.text? other := by
  rw [text?, put, List.lookup_append]
  change Option.or ((f.erase names).text? other) _ = _
  rw [text?_erase]
  by_cases h : other = names
  · simp [h]
  · simp [h, List.lookup_cons, beq_false_of_ne h]

def absent (p : Path) : Failure := ⟨true, "file not found: " ++ p.shown⟩

def refused (p : Path) : Failure := ⟨false, "write refused: " ++ p.shown⟩

def read (p : Path) (f : Files) : Except Failure String :=
  match f.text? p.names with
  | some s => .ok s
  | none => .error (absent p)

def write (p : Path) (s : String) (f : Files) : Except Failure Unit × Files :=
  if p.names ∈ f.refusing then (.error (refused p), f) else (.ok (), f.put p.names s)

def createNew (p : Path) (s : String) (f : Files) : Except Failure Bool × Files :=
  if p.names ∈ f.refusing then (.error (refused p), f)
  else match f.text? p.names with
    | some _ => (.ok false, f)
    | none => (.ok true, f.put p.names s)

def rename (source target : Path) (f : Files) : Except Failure Unit × Files :=
  if target.names ∈ f.refusing then (.error (refused target), f)
  else match f.text? source.names with
    | some s => (.ok (), (f.erase source.names).put target.names s)
    | none => (.error (absent source), f)

def remove (p : Path) (f : Files) : Except Failure Bool × Files :=
  match f.text? p.names with
  | some _ => (.ok true, f.erase p.names)
  | none => (.ok false, f)

/-- There is a file at the path or below it. -/
def present (p : Path) (f : Files) : Bool := f.entries.any fun e => p.names.isPrefixOf e.1

/-- The names of the files that lie directly in a directory. -/
def list (p : Path) (f : Files) : List String :=
  let names := (f.entries.filter fun e => !e.1.isEmpty && e.1.dropLast = p.names).filterMap
    fun e => e.1.getLast?
  sortBy (· ≤ ·) (names.filter fun n => n ≠ ".." && n ≠ "/")

instance : FileStore Files where
  read p f := (f.read p, f)
  write := write
  createNew := createNew
  rename := rename
  remove := remove
  present p f := (f.present p, f)
  list p f := (.ok (f.list p), f)

end Files

end Workboard
