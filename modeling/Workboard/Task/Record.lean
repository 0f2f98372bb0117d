import Workboard.Error
import Workboard.Task.Basic
import Workboard.Time.Reader
import Workboard.Yaml.Printer
import Workboard.Yaml.Reading

/-!
# Task records

A record is a text with two lines of three hyphens: between them stands the front
matter, a mapping with the fields of the task, and after them the body as it is. A
delimiter line may end in blanks. Fields that have nothing to say are left out, and
unknown fields come last.
-/
namespace Workboard

namespace Record

/-- The lines of a text, each with its line feed. -/
def lines : List Char → List (List Char)
  | [] => []
  | c :: cs =>
    if c = '\n' then ['\n'] :: lines cs
    else match lines cs with
      | [] => [[c]]
      | l :: ls => (c :: l) :: ls

@[simp] theorem flatten_lines (cs : List Char) : (lines cs).flatten = cs := by
  induction cs with
  | nil => rfl
  | cons c cs ih =>
    simp only [lines]
    split
    · simp_all
    · split <;> simp_all

/-- Three hyphens, and blanks after them. -/
def isDelimiter (line : List Char) : Bool := Text.dropBlankEnd line = ['-', '-', '-']

/-- The text in front of the first delimiter and the text after it. -/
def cut? : List (List Char) → Option (List Char × List Char)
  | [] => none
  | l :: ls =>
    if isDelimiter l then some ([], ls.flatten)
    else (cut? ls).map fun (front, body) => (l ++ front, body)

/-- A text without the mark of its byte order. -/
def dropByteOrderMark : List Char → List Char
  | '\uFEFF' :: cs => cs
  | cs => cs

/-- The front matter and the body of a record. -/
def split (cs : List Char) : Except Corruption (List Char × List Char) :=
  match lines (dropByteOrderMark cs) with
  | [] => .error .missingFrontMatter
  | first :: rest =>
    if isDelimiter first then
      match cut? rest with
      | some parts => .ok parts
      | none => .error .unterminatedFrontMatter
    else .error .missingFrontMatter

/-- The fields of a front matter, as far as they were read. -/
structure Fields where
  id : Option String := none
  title : Option String := none
  state : Option TaskState := none
  priority : Option Priority := none
  requires : Option (List String) := none
  blocks : Option (List String) := none
  waitingFor : Option (Option String) := none
  assignedTo : Option (Option String) := none
  createdAt : Option Instant := none
  updatedAt : Option Instant := none
  spawnedFrom : Option (Option String) := none
  spawnedTasks : Option (List String) := none
  extra : TextMap Yaml.Value := ∅

open Yaml Reading

/-- Read a field that may stand once only. -/
def once {α : Type} (old : Option α) (r : Reading α) : Reading (Option α) :=
  match old with
  | some _ => refuse
  | none => some <$> r

def instant (n : Node) : Reading Instant := do
  match Instant.ofText? (← text n) with
  | some t => pure t
  | none => refuse

namespace Fields

/-- Read one more field. Under an unknown name the last value counts. -/
def read (f : Fields) (e : Node × Node) : Reading Fields := do
  let n := e.2
  match ← text e.1 with
  | "id" => pure { f with id := ← once f.id (text n) }
  | "title" => pure { f with title := ← once f.title (text n) }
  | "state" => pure { f with state := ← once f.state (word TaskState.ofName? n) }
  | "priority" => pure { f with priority := ← once f.priority (word Priority.ofName? n) }
  | "requires" => pure { f with requires := ← once f.requires (texts n) }
  | "blocks" => pure { f with blocks := ← once f.blocks (texts n) }
  | "waiting_for" => pure { f with waitingFor := ← once f.waitingFor (optionalText n) }
  | "assigned_to" => pure { f with assignedTo := ← once f.assignedTo (optionalText n) }
  | "created_at" => pure { f with createdAt := ← once f.createdAt (instant n) }
  | "updated_at" => pure { f with updatedAt := ← once f.updatedAt (instant n) }
  | "spawned_from" => pure { f with spawnedFrom := ← once f.spawnedFrom (optionalText n) }
  | "spawned_tasks" => pure { f with spawnedTasks := ← once f.spawnedTasks (texts n) }
  | name => pure { f with extra := f.extra.insert name (← value false (depthLimit - 1) n) }

/-- The task of the fields, if it has an id, a state and both times. -/
def task? (f : Fields) (body : String) : Option Task := do
  some {
    id := ← f.id
    title := f.title.getD ""
    state := ← f.state
    priority := f.priority.getD .medium
    requires := .ofList (f.requires.getD [])
    blocks := .ofList (f.blocks.getD [])
    waitingFor := f.waitingFor.getD none
    assignedTo := f.assignedTo.getD none
    createdAt := ← f.createdAt
    updatedAt := ← f.updatedAt
    spawnedFrom := f.spawnedFrom.getD none
    spawnedTasks := f.spawnedTasks.getD []
    extra := f.extra
    body }

/-- The fields of a front matter. -/
def ofText? (front : String) : Option Fields := do
  let d ← Document.ofText? front
  (do (← entries d.root).foldlM read {} : Reading Fields).run? d

end Fields

/-- The task in the text of a record. -/
def parse (content : String) : Except Corruption Task := do
  let (front, body) ← split (Text.chars content)
  match (Fields.ofText? (String.ofList front)).bind (·.task? (String.ofList body)) with
  | some t => .ok t
  | none => .error .unreadable

/-- A field whose value is a list of texts, unless that is empty. -/
def textsField (name : String) (xs : List String) : List (Value × Value) :=
  if xs.isEmpty then [] else [(.str name, .seq (xs.map .str))]

/-- A field whose value is a text, if there is one. -/
def textField (name : String) : Option String → List (Value × Value)
  | some s => [(.str name, .str s)]
  | none => []

/-- The fields of a task in the order in which they are written. -/
def frontMatter (t : Task) : Value := .map <|
  textField "id" t.id ++
  textField "title" t.title ++
  textField "state" t.state.name ++
  textField "priority" t.priority.name ++
  textsField "requires" t.requires.toList ++
  textsField "blocks" t.blocks.toList ++
  textField "waiting_for" t.waitingFor ++
  textField "assigned_to" t.assignedTo ++
  textField "created_at" t.createdAt.toZuluText ++
  textField "updated_at" t.updatedAt.toZuluText ++
  textField "spawned_from" t.spawnedFrom ++
  textsField "spawned_tasks" t.spawnedTasks ++
  t.extra.entries.map fun (name, v) => (.str name, v)

/-- The lines of the front matter. A last line with another end than a line feed takes one. -/
def frontLines (t : Task) : List Char :=
  let cs := Printer.node none .root (frontMatter t)
  if cs.getLast? = some '\n' then cs else cs ++ ['\n']

/-- The text of a record. -/
def render (t : Task) : String :=
  "---\n" ++ String.ofList (frontLines t) ++ "---\n" ++ t.body

end Record

end Workboard
