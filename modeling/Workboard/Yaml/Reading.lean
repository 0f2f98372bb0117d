import Workboard.Yaml.Node
import Workboard.Yaml.Scalar

/-!
# Reading nodes

How the node of a field becomes a text, an optional text, a list of texts, one of
several words, a fraction or a value of any kind. Following an alias costs a jump,
and a document of `n` events pays for a hundred jumps an event. Collections may be
nested 128 deep.
-/
namespace Workboard.Yaml

/-- A reading has the document at hand and counts its jumps. -/
abbrev Reading (α : Type) := ReaderT Document (StateT Nat Option) α

namespace Reading

/-- The reading that finds nothing right. -/
def refuse {α : Type} : Reading α := fun _ _ => none

/-- The result of a reading from its first jump on. -/
def run? {α : Type} (r : Reading α) (d : Document) : Option α := (r d 0).map Prod.fst

/-- The node itself, or the one that an alias means. -/
def follow (n : Node) : Reading Node := fun d jumps =>
  match n with
  | .alias a =>
    if d.events * 100 < jumps + 1 then none
    else (d.target? a).map fun n => (n, jumps + 1)
  | n => some (n, jumps)

/-- The source text of any scalar. -/
def text (n : Node) : Reading String := do
  match ← follow n with
  | .scalar _ s _ => pure s
  | _ => refuse

/-- The tag that stands for nothing. -/
def nullTag : String := "tag:yaml.org,2002:null"

/-- The name that a tag gives to its value, if the tag is one of the document's own. A
mark without a name names itself. -/
def tagName? (tag : Option String) : Option String :=
  match tag with
  | none => none
  | some t => match t.toList with
    | ['!'] => some "!"
    | '!' :: name => some (String.ofList name)
    | _ => none

/-- A plain scalar that is empty or one of the words for nothing. -/
def isNothing (s : String) : Bool := s.isEmpty || isNullWord s

/-- A text that may be absent: nothing for a plain scalar that stands for nothing. -/
def optionalText (n : Node) : Reading (Option String) := do
  match ← follow n with
  | .scalar tag s plain =>
    if !plain then pure (some s)
    else match tag with
      | some t =>
        if t = nullTag then (if isNullWord s then pure none else refuse) else pure (some s)
      | none => pure (if isNothing s then none else some s)
  | _ => refuse

/-- A list of texts. An empty plain scalar is an empty list. -/
def texts (n : Node) : Reading (List String) := do
  match ← follow n with
  | .seq _ items => items.mapM text
  | .scalar _ s plain => if s.isEmpty && plain then pure [] else refuse
  | _ => refuse

/-- The entries of a mapping. An empty plain scalar and an empty document have none. -/
def entries (n : Option Node) : Reading (List (Node × Node)) := do
  match n with
  | none => pure []
  | some n =>
    match ← follow n with
    | .map _ es => pure es
    | .scalar _ s plain => if s.isEmpty && plain then pure [] else refuse
    | _ => refuse

/-- One of several words, as the text of a scalar or as the tag of a scalar that stands
for nothing. -/
def word {α : Type} (named? : String → Option α) (n : Node) : Reading α := do
  match ← follow n with
  | .scalar tag s plain =>
    match tagName? tag with
    | none => match named? s with
      | some a => pure a
      | none => refuse
    | some name => match named? name with
      | some a => if plain && isNothing s then pure a else refuse
      | none => refuse
  | _ => refuse

/-- A fraction written as a plain scalar. -/
def fraction (n : Node) : Reading Binary64 := do
  match ← follow n with
  | .scalar _ s plain => match floatOfWord? s.toList with
    | some x => if plain then pure x else refuse
    | none => refuse
  | _ => refuse

/-- The value of an untagged plain scalar, unless it is too large a number. -/
def plainValue? (s : String) : Option Value :=
  match Plain.ofText s with
  | .null => some .null
  | .bool b => some (.bool b)
  | .int n => if fitsWord n then some (.int n) else none
  | .float x => some (.float x)
  | .text => some (.str s)

/-- The value of a scalar under one of the standard tags. -/
def standardValue? (tag s : String) : Option Value :=
  if tag = "tag:yaml.org,2002:bool" then (boolOfWord? s).map .bool
  else if tag = "tag:yaml.org,2002:int" then
    ((intOfWord? s.toList).filter fitsWord).map .int
  else if tag = "tag:yaml.org,2002:float" then (floatOfWord? s.toList).map .float
  else if tag = nullTag then (if isNullWord s then some .null else none)
  else some (.str s)

/-- The value of a scalar whose tag, if it has one, names nothing. -/
def scalarValue? (tag : Option String) (s : String) (plain : Bool) : Option Value :=
  match tag with
  | some t => standardValue? t s
  | none => if plain then plainValue? s else some (.str s)

/-- A value under the name of its tag, where such values are allowed. -/
def underTag (tagged : Bool) (tag : Option String) (v : Value) : Reading Value :=
  match tagName? tag with
  | none => pure v
  | some name => if tagged then pure (.tagged name v) else refuse

/-- Any value; `depth` more collections may be nested. Tags of the document's own are
kept where `tagged` allows them and refused otherwise. A key may stand once only. -/
def value (tagged : Bool) (depth : Nat) (n : Node) : Reading Value :=
  match depth with
  | 0 => do
    match ← follow n with
    | .scalar tag s plain => scalar tag s plain
    | _ => refuse
  | depth + 1 => do
    match ← follow n with
    | .scalar tag s plain => scalar tag s plain
    | .seq tag items =>
      let vs ← items.mapM (value tagged depth)
      underTag tagged tag (.seq vs)
    | .map tag es =>
      let vs ← es.mapM fun (k, v) => do pure (← value tagged depth k, ← value tagged depth v)
      if Value.hasRepeatedKey vs then refuse else underTag tagged tag (.map vs)
    | .alias _ => refuse
where
  /-- A scalar under its tag, read as a plain one if the tag is the document's own. -/
  scalar (tag : Option String) (s : String) (plain : Bool) : Reading Value :=
    let bare := if (tagName? tag).isSome then none else tag
    match scalarValue? bare s plain with
    | some v => underTag tagged tag v
    | none => refuse

/-- How deep collections may be nested. -/
def depthLimit : Nat := 128

end Reading

/-- The value of the only document of a text; an empty text stands for nothing. -/
def Value.ofText? (s : String) : Option Value :=
  (Document.ofText? s).bind fun d =>
    match d.root with
    | none => some .null
    | some n => (Reading.value true Reading.depthLimit n).run? d

end Workboard.Yaml
