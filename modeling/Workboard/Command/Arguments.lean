import Workboard.Number.Reader
import Workboard.Task.State
import Workboard.Text.Cut

/-!
# Command lines

What the words of a command line ask for. Options may stand among the other words, an
option is followed by its values, and two hyphens alone end the options. The board and
the owner may be named at every level, and the innermost naming counts.
-/
namespace Workboard

inductive LockCommand where
  | acquire (id : String) (timeoutHours : Option Binary64)
  | renew (id : String)
  | release (id : String)
  | status (id : String)
  | forceRelease (id : String)
  | list
  deriving DecidableEq

inductive Command where
  | new (title : String) (id : Option String) (priority : Option Priority)
      (state : Option TaskState) (requires : List String) (body : String) (parent : Option String)
  | describe (id : String)
  | status
  | ready
  /-- Without an id, the next task is claimed. -/
  | claim (id : Option String)
  | heartbeat (id : String)
  | release (id : String)
  | block (id waitingFor : String)
  | complete (id : String)
  | cancel (id : String)
  | promote (id : String)
  | defer (id : String) (target : TaskState)
  /-- Names of fields with their new values. -/
  | edit (id : String) (fields : List (String × String))
  | cycles
  | reconcile
  | lock (action : LockCommand)
  deriving DecidableEq

/-- A command with the board and the owner that the command line names. -/
structure Invocation where
  dir : Option String
  owner : Option String
  command : Command
  deriving DecidableEq

/-- Why a command line does not come to a command. -/
inductive Stop where
  | usage
  | help
  | version
  deriving DecidableEq

/-- An option by its name: how many values it takes, whether it may stand more than once,
and which values it takes. -/
structure OptionRule where
  name : String
  values : Nat := 1
  repeats : Bool := false
  accepts : String → Bool := fun _ => true

/-- What may stand at one level of a command line. -/
structure Level where
  commands : List String := []
  words : Nat := 0
  options : List OptionRule := []
  hasVersion : Bool := false

/-- What stands at one level. An option waits until its values are there and the next word
shows that it is over. -/
structure Scan where
  options : List (String × List String) := []
  words : List String := []
  pending : Option (OptionRule × List String) := none
  onlyWords : Bool := false

namespace Scan

def values? (s : Scan) (name : String) : Option (List String) := s.options.lookup name

/-- The value of an option that takes one. -/
def value? (s : Scan) (name : String) : Option String := (s.values? name).bind List.head?

/-- All values of an option that may stand more than once. -/
def allValues (s : Scan) (name : String) : List String :=
  (s.options.filter (·.1 = name)).flatMap Prod.snd

/-- All pairs of values of an option that takes two. -/
def pairs (s : Scan) (name : String) : List (String × String) :=
  s.options.filterMap fun
    | (n, [a, b]) => if n = name then some (a, b) else none
    | _ => none

/-- Nothing stands at the level. -/
def isEmpty (s : Scan) : Bool := s.options.isEmpty && s.words.isEmpty

/-- Values are missing. -/
def waits (s : Scan) : Bool := s.pending.any fun (rule, vs) => vs.length < rule.values

/-- Note an option with its values, if they are all there and allowed. -/
def note (s : Scan) (rule : OptionRule) (vs : List String) : Except Stop Scan :=
  if vs.length = rule.values && vs.all rule.accepts &&
      (rule.repeats || (s.values? rule.name).isNone) then
    .ok { s with options := s.options ++ [(rule.name, vs)], pending := none }
  else .error .usage

/-- Note the option that waits. -/
def settle (s : Scan) : Except Stop Scan :=
  match s.pending with
  | some (rule, vs) => s.note rule vs
  | none => .ok s

/-- Note a word that is no option and no value. -/
def word (l : Level) (s : Scan) (w : String) : Except Stop Scan := do
  let s ← s.settle
  if s.words.length < l.words then .ok { s with words := s.words ++ [w] } else .error .usage

/-- An option by its name, perhaps with a value after an equals sign. -/
def longOption (l : Level) (s : Scan) (name : String) (value : Option String) :
    Except Stop Scan := do
  if name = "help" || (name = "version" && l.hasVersion) then
    let _ ← s.settle
    .error (if value.isSome then .usage else if name = "help" then .help else .version)
  else match l.options.find? (·.name = name) with
    | none => .error .usage
    | some rule =>
      let s ← s.settle
      match value with
      | some v => s.note rule [v]
      | none => if rule.values = 0 then s.note rule [] else .ok { s with pending := some (rule, []) }

/-- An option of one letter. -/
def shortOption (l : Level) (s : Scan) (letter : Char) : Except Stop Scan := do
  let _ ← s.settle
  if letter = 'h' then .error .help
  else if letter = 'V' && l.hasVersion then .error .version
  else .error .usage

/-- The text in front of the first equals sign and the text after it. -/
def cutAtEquals (cs : List Char) : String × Option String :=
  match cs.dropWhile (· ≠ '=') with
  | [] => (String.ofList cs, none)
  | _ :: value => (String.ofList (cs.takeWhile (· ≠ '=')), some (String.ofList value))

/-- Take one more argument. -/
def take (l : Level) (s : Scan) (arg : String) : Except Stop Scan :=
  if s.onlyWords then s.word l arg
  else match arg.toList with
    | ['-', '-'] => .ok { s with onlyWords := true }
    | '-' :: '-' :: cs =>
      let (name, value) := cutAtEquals cs
      s.longOption l name value
    | '-' :: c :: _ => s.shortOption l c
    | _ =>
      if s.waits then
        .ok { s with pending := s.pending.map fun (rule, vs) => (rule, vs ++ [arg]) }
      else s.word l arg

/-- Take arguments up to the name of a command of the level, and what stands after it. -/
def run (l : Level) (s : Scan) : List String → Except Stop (Scan × Option (String × List String))
  | [] => s.settle.map fun s => (s, none)
  | arg :: args =>
    if !s.onlyWords && !s.waits && l.commands.contains arg then .ok (s, some (arg, args))
    else match s.take l arg with
      | .ok s => run l s args
      | .error stop => .error stop

end Scan

namespace Command

/-- The board and the owner may be named at every level. -/
def everywhere : List OptionRule :=
  [{ name := "dir", accepts := fun s => !s.isEmpty }, { name := "owner" }]

def names : List String :=
  ["new", "show", "status", "ready", "claim", "heartbeat", "release", "block", "complete", "cancel",
    "promote", "defer", "edit", "cycles", "reconcile", "lock", "help"]

def lockNames : List String :=
  ["acquire", "renew", "release", "status", "force-release", "list", "help"]

def topLevel : Level := { commands := names, options := everywhere, hasVersion := true }

def lockLevel : Level := { commands := lockNames, options := everywhere }

/-- What may stand after the name of a command. -/
def level (name : String) : Level :=
  match name with
  | "new" => {
      words := 1
      options := everywhere ++
        [{ name := "id" },
          { name := "priority", accepts := fun s => (Priority.ofText? s).isSome },
          { name := "state", accepts := fun s => (TaskState.ofText? s).isSome },
          { name := "requires", repeats := true },
          { name := "body" },
          { name := "parent" }] }
  | "block" => { words := 2, options := everywhere }
  | "claim" => { words := 1, options := { name := "next", values := 0 } :: everywhere }
  | "defer" => {
      words := 1
      options := { name := "to", accepts := fun s => (TaskState.ofText? s).isSome } :: everywhere }
  | "edit" => {
      words := 1
      options := { name := "set", values := 2, repeats := true } :: everywhere }
  | "status" | "ready" | "cycles" | "reconcile" => { options := everywhere }
  | _ => { words := 1, options := everywhere }

/-- What may stand after the name of a lock command. -/
def levelOfLock (name : String) : Level :=
  match name with
  | "acquire" => {
      words := 1
      options :=
        { name := "timeout-hours", accepts := fun s => (Binary64.read? s.toList).isSome } :: everywhere }
  | "list" => { options := everywhere }
  | _ => { words := 1, options := everywhere }

/-- The command of what stands after its name. -/
def ofScan? (name : String) (s : Scan) : Option Command :=
  match name, s.words with
  | "new", [title] => some <|
      .new title (s.value? "id") ((s.value? "priority").bind Priority.ofText?)
        ((s.value? "state").bind TaskState.ofText?)
        ((s.allValues "requires").flatMap (Text.split (· = ','))) ((s.value? "body").getD "")
        (s.value? "parent")
  | "show", [id] => some (.describe id)
  | "status", [] => some .status
  | "ready", [] => some .ready
  | "claim", [id] => if (s.values? "next").isSome then none else some (.claim (some id))
  | "claim", [] => if (s.values? "next").isSome then some (.claim none) else none
  | "heartbeat", [id] => some (.heartbeat id)
  | "release", [id] => some (.release id)
  | "block", [id, waitingFor] => some (.block id waitingFor)
  | "complete", [id] => some (.complete id)
  | "cancel", [id] => some (.cancel id)
  | "promote", [id] => some (.promote id)
  | "defer", [id] => some (.defer id (((s.value? "to").bind TaskState.ofText?).getD .backlog))
  | "edit", [id] =>
    let fields := s.pairs "set"
    if fields.isEmpty then none else some (.edit id fields)
  | "cycles", [] => some .cycles
  | "reconcile", [] => some .reconcile
  | _, _ => none

/-- The lock command of what stands after its name. -/
def lockOfScan? (name : String) (s : Scan) : Option LockCommand :=
  match name, s.words with
  | "acquire", [id] =>
    some (.acquire id ((s.value? "timeout-hours").bind fun h => Binary64.read? h.toList))
  | "renew", [id] => some (.renew id)
  | "release", [id] => some (.release id)
  | "status", [id] => some (.status id)
  | "force-release", [id] => some (.forceRelease id)
  | "list", [] => some .list
  | _, _ => none

/-- Help is given on a command that exists. -/
def helpOn : List String → List String → Stop
  | _, [] => .help
  | known, name :: more =>
    if known.contains name then helpOn (if name = "lock" then lockNames else []) more else .usage

/-- Go on with the command that a level names. A level with nothing in it gives help. -/
def inner {α : Type} (r : Scan × Option (String × List String))
    (go : String → List String → Except Stop α) : Except Stop (Scan × α) :=
  match r with
  | (s, none) => .error (if s.isEmpty then .help else .usage)
  | (s, some (name, args)) => do
    let a ← go name args
    return (← s.settle, a)

/-- A command that has no commands of its own. -/
def leaf {α : Type} (l : Level) (args : List String) (read? : Scan → Option α) :
    Except Stop (Scan × α) := do
  let (s, _) ← Scan.run l {} args
  match read? s with
  | some a => .ok (s, a)
  | none => .error .usage

end Command

namespace Invocation
open Command

/-- What the levels of a command line name, the innermost first. -/
def ofLevels (levels : List Scan) (command : Command) : Invocation :=
  ⟨levels.findSome? (·.value? "dir"), levels.findSome? (·.value? "owner"), command⟩

/-- What a command line asks for. -/
def ofArguments (args : List String) : Except Stop Invocation := do
  let (top, found) ← inner (← Scan.run topLevel {} args) fun name args =>
    if name = "help" then .error (helpOn names args)
    else if name = "lock" then do
      let (middle, found) ← inner (← Scan.run lockLevel {} args) fun name args =>
        if name = "help" then .error (helpOn lockNames args)
        else leaf (levelOfLock name) args (lockOfScan? name)
      return ([found.1, middle], .lock found.2)
    else do
      let (s, c) ← leaf (level name) args (ofScan? name)
      return ([s], c)
  return ofLevels (found.1 ++ [top]) found.2

end Invocation

end Workboard
