import Workboard.Text.Bytes
import Workboard.Yaml.Lexer

/-!
# Nodes and documents

A document is one node, with a table of the nodes that have an anchor. An anchor is
numbered by how many different names came before it, so a name that is used again
takes the next number without moving the count, and the node that began last under a
number is the one that aliases mean.
-/
namespace Workboard.Yaml

inductive Node where
  | alias (anchor : Nat)
  | scalar (tag : Option String) (text : String) (plain : Bool)
  | seq (tag : Option String) (items : List Node)
  | map (tag : Option String) (entries : List (Node × Node))
  deriving Inhabited

/-- The empty plain scalar that stands where nothing is written. -/
def Node.missing : Node := .scalar none "" true

/-- A node with an anchor: the number of the anchor and the moment it began. -/
structure Anchored where
  anchor : Nat
  moment : Nat
  node : Node

/-- The node of a document with its anchored nodes and the number of its events, where
a collection has one event at either end. An empty text has no node. -/
structure Document where
  root : Option Node
  anchored : List Anchored
  events : Nat

namespace Document

/-- The later beginning of two anchored nodes. -/
def laterOf (a : Anchored) (b : Option Anchored) : Option Anchored :=
  match b with
  | none => some a
  | some b => if b.moment < a.moment then some a else some b

/-- The node that an alias of this anchor means. -/
def target? (d : Document) (anchor : Nat) : Option Node :=
  ((d.anchored.filter (·.anchor = anchor)).foldr laterOf none).map Anchored.node

end Document

/-- What is known while nodes are formed. -/
structure Compose where
  handles : List (String × String)
  names : List (String × Nat) := []
  moments : Nat := 0
  anchored : List Anchored := []
  events : Nat := 0

namespace Compose

def count (n : Nat) (c : Compose) : Compose := { c with events := c.events + n }

/-- Give a name its number, before the node that it names. -/
def name (n : String) (c : Compose) : Nat × Nat × Compose :=
  let number := c.names.length
  let names := (n, number) :: c.names.filter (·.1 ≠ n)
  (number, c.moments, { c with names, moments := c.moments + 1 })

/-- Form a node under an anchor, if it has one. -/
def under (anchor : Option String) (c : Compose)
    (form : Compose → Option (Node × List Token × Compose)) : Option (Node × List Token × Compose) :=
  match anchor with
  | none => form c
  | some n =>
    let (number, moment, c) := c.name n
    (form c).map fun (node, ts, c) =>
      (node, ts, { c with anchored := ⟨number, moment, node⟩ :: c.anchored })

/-- The anchor and the tag in front of a node, in either order. -/
def properties : List Token → Option String × Option (String × String) × List Token
  | .anchor a :: .tag h x :: ts => (some a, some (h, x), ts)
  | .tag h x :: .anchor a :: ts => (some a, some (h, x), ts)
  | .anchor a :: ts => (some a, none, ts)
  | .tag h x :: ts => (none, some (h, x), ts)
  | ts => (none, none, ts)

/-- A tag with its handle replaced by what the handle stands for. -/
def resolveTag (c : Compose) : Option (String × String) → Option (Option String)
  | none => some none
  | some (h, x) =>
    if h = "" then some (some x)
    else (c.handles.lookup h).map fun front => some (front ++ x)

/-- The tokens that may not begin an entry of a block mapping. -/
def endsEntry : List Token → Bool
  | .key :: _ => true
  | .value :: _ => true
  | .blockEnd :: _ => true
  | _ => false

abbrev Result := Option (Node × List Token × Compose)

mutual

/-- A node. Block collections are refused inside flow collections, and a list of block
entries without an indentation of its own is only allowed as a value in a mapping. -/
def node (fuel : Nat) (block indentless : Bool) (ts : List Token) (c : Compose) : Result :=
  match fuel with
  | 0 => none
  | fuel + 1 =>
    match ts with
    | .alias n :: ts => (c.names.lookup n).map fun a => (.alias a, ts, c.count 1)
    | ts =>
      let (anchor, written, ts) := properties ts
      match c.resolveTag written with
      | none => none
      | some tag =>
        c.under anchor fun c =>
          match ts with
          | .scalar text plain :: ts =>
            some (.scalar tag text plain, ts, c.count 1)
          | .flowSequenceStart :: ts => flowItems fuel true ts (c.count 2) tag []
          | .flowMappingStart :: ts => flowEntries fuel true ts (c.count 2) tag []
          | .blockEntry :: _ =>
            if indentless then bareItems fuel ts (c.count 2) tag []
            else if anchor.isSome || tag.isSome then some (.scalar tag "" true, ts, c.count 1)
            else none
          | .blockSequenceStart :: more =>
            if block then blockItems fuel more (c.count 2) tag []
            else if anchor.isSome || tag.isSome then some (.scalar tag "" true, ts, c.count 1)
            else none
          | .blockMappingStart :: more =>
            if block then blockEntries fuel more (c.count 2) tag []
            else if anchor.isSome || tag.isSome then some (.scalar tag "" true, ts, c.count 1)
            else none
          | _ =>
            if anchor.isSome || tag.isSome then some (.scalar tag "" true, ts, c.count 1) else none

/-- The items of a block sequence up to its end. -/
def blockItems (fuel : Nat) (ts : List Token) (c : Compose) (tag : Option String)
    (acc : List Node) : Result :=
  match fuel with
  | 0 => none
  | fuel + 1 =>
    match ts with
    | .blockEnd :: ts => some (.seq tag acc.reverse, ts, c)
    | .blockEntry :: .blockEntry :: ts =>
      blockItems fuel (.blockEntry :: ts) (c.count 1) tag (.missing :: acc)
    | .blockEntry :: .blockEnd :: ts =>
      blockItems fuel (.blockEnd :: ts) (c.count 1) tag (.missing :: acc)
    | .blockEntry :: ts =>
      match node fuel true false ts c with
      | some (n, ts, c) => blockItems fuel ts c tag (n :: acc)
      | none => none
    | _ => none

/-- Block entries at the column of the mapping they are a value in. -/
def bareItems (fuel : Nat) (ts : List Token) (c : Compose) (tag : Option String)
    (acc : List Node) : Result :=
  match fuel with
  | 0 => none
  | fuel + 1 =>
    match ts with
    | .blockEntry :: .blockEntry :: ts =>
      bareItems fuel (.blockEntry :: ts) (c.count 1) tag (.missing :: acc)
    | .blockEntry :: ts =>
      if endsEntry ts then bareItems fuel ts (c.count 1) tag (.missing :: acc)
      else match node fuel true false ts c with
        | some (n, ts, c) => bareItems fuel ts c tag (n :: acc)
        | none => none
    | ts => some (.seq tag acc.reverse, ts, c)

/-- The entries of a block mapping up to its end. -/
def blockEntries (fuel : Nat) (ts : List Token) (c : Compose) (tag : Option String)
    (acc : List (Node × Node)) : Result :=
  match fuel with
  | 0 => none
  | fuel + 1 =>
    match ts with
    | .blockEnd :: ts => some (.map tag acc.reverse, ts, c)
    | .key :: ts =>
      if endsEntry ts then blockValue fuel ts (c.count 1) tag acc .missing
      else match node fuel true true ts c with
        | some (k, ts, c) => blockValue fuel ts c tag acc k
        | none => none
    | _ => none

/-- The value of a block mapping entry, and the entries after it. -/
def blockValue (fuel : Nat) (ts : List Token) (c : Compose) (tag : Option String)
    (acc : List (Node × Node)) (k : Node) : Result :=
  match fuel with
  | 0 => none
  | fuel + 1 =>
    match ts with
    | .value :: ts =>
      if endsEntry ts then blockEntries fuel ts (c.count 1) tag ((k, .missing) :: acc)
      else match node fuel true true ts c with
        | some (v, ts, c) => blockEntries fuel ts c tag ((k, v) :: acc)
        | none => none
    | ts => blockEntries fuel ts (c.count 1) tag ((k, .missing) :: acc)

/-- The items of a flow sequence. An item with a key is a mapping of one entry. -/
def flowItems (fuel : Nat) (first : Bool) (ts : List Token) (c : Compose) (tag : Option String)
    (acc : List Node) : Result :=
  match fuel with
  | 0 => none
  | fuel + 1 =>
    match ts with
    | .flowSequenceEnd :: ts => some (.seq tag acc.reverse, ts, c)
    | ts =>
      let after? := if first then some ts else match ts with
        | .flowEntry :: ts => some ts
        | _ => none
      match after? with
      | none => none
      | some (.flowSequenceEnd :: ts) => some (.seq tag acc.reverse, ts, c)
      | some (.key :: ts) =>
        match flowPair fuel ts (c.count 2) with
        | some (n, ts, c) => flowItems fuel false ts c tag (n :: acc)
        | none => none
      | some ts =>
        match node fuel false false ts c with
        | some (n, ts, c) => flowItems fuel false ts c tag (n :: acc)
        | none => none

/-- The one entry of a mapping inside a flow sequence. A key that is left out takes the
token after it along. -/
def flowPair (fuel : Nat) (ts : List Token) (c : Compose) : Result :=
  match fuel with
  | 0 => none
  | fuel + 1 =>
    let key? : Result := match ts with
      | .value :: ts => some (.missing, ts, c.count 1)
      | .flowEntry :: ts => some (.missing, ts, c.count 1)
      | .flowSequenceEnd :: ts => some (.missing, ts, c.count 1)
      | ts => node fuel false false ts c
    match key? with
    | none => none
    | some (k, ts, c) =>
      let value? : Result := match ts with
        | .value :: .flowEntry :: ts => some (.missing, .flowEntry :: ts, c.count 1)
        | .value :: .flowSequenceEnd :: ts => some (.missing, .flowSequenceEnd :: ts, c.count 1)
        | .value :: ts => node fuel false false ts c
        | ts => some (.missing, ts, c.count 1)
      value?.map fun (v, ts, c) => (.map none [(k, v)], ts, c)

/-- The entries of a flow mapping. -/
def flowEntries (fuel : Nat) (first : Bool) (ts : List Token) (c : Compose) (tag : Option String)
    (acc : List (Node × Node)) : Result :=
  match fuel with
  | 0 => none
  | fuel + 1 =>
    match ts with
    | .flowMappingEnd :: ts => some (.map tag acc.reverse, ts, c)
    | ts =>
      let after? := if first then some ts else match ts with
        | .flowEntry :: ts => some ts
        | _ => none
      match after? with
      | none => none
      | some (.flowMappingEnd :: ts) => some (.map tag acc.reverse, ts, c)
      | some (.key :: ts) =>
        let key? : Result := match ts with
          | .value :: _ => some (.missing, ts, c.count 1)
          | .flowEntry :: _ => some (.missing, ts, c.count 1)
          | .flowMappingEnd :: _ => some (.missing, ts, c.count 1)
          | _ => node fuel false false ts c
        match key? with
        | none => none
        | some (k, ts, c) =>
          let value? : Result := match ts with
            | .value :: .flowEntry :: ts => some (.missing, .flowEntry :: ts, c.count 1)
            | .value :: .flowMappingEnd :: ts => some (.missing, .flowMappingEnd :: ts, c.count 1)
            | .value :: ts => node fuel false false ts c
            | ts => some (.missing, ts, c.count 1)
          match value? with
          | some (v, ts, c) => flowEntries fuel false ts c tag ((k, v) :: acc)
          | none => none
      | some ts =>
        match node fuel false false ts c with
        | some (k, ts, c) => flowEntries fuel false ts (c.count 1) tag ((k, .missing) :: acc)
        | none => none

end

/-- The handles that stand for something without a directive. -/
def usualHandles : List (String × String) := [("!", "!"), ("!!", "tag:yaml.org,2002:")]

/-- The directives in front of a document: at most one version, and each handle once. -/
def directives (versions : Nat) (handles : List (String × String)) :
    List Token → Option (List (String × String) × Bool × List Token)
  | .versionDirective major minor :: ts =>
    if versions = 0 && major = 1 && (minor = 1 || minor = 2) then
      (directives 1 handles ts).map fun (hs, _, ts) => (hs, true, ts)
    else none
  | .tagDirective h front :: ts =>
    if (handles.lookup h).isSome then none
    else (directives versions ((h, front) :: handles) ts).map fun (hs, _, ts) => (hs, true, ts)
  | ts => some (handles, false, ts)

/-- The end marks after a document, and then the end of the text. -/
def onlyEnds : List Token → Bool
  | .documentEnd :: ts => onlyEnds ts
  | [.streamEnd] => true
  | _ => false

/-- Nothing follows the start of a document. -/
def isEmptyContent : List Token → Bool
  | .versionDirective .. :: _ => true
  | .tagDirective .. :: _ => true
  | .documentStart :: _ => true
  | .documentEnd :: _ => true
  | .streamEnd :: _ => true
  | _ => false

end Compose

namespace Document

/-- The only document of a list of tokens. -/
def ofTokens? (ts : List Token) : Option Document := do
  if ts = [.streamEnd] then some ⟨none, [], 1⟩
  else
    let (handles, directed, rest) ← Compose.directives 0 [] ts
    let c : Compose := { handles := handles ++ Compose.usualHandles }
    let (explicit, rest) ← match rest with
      | .documentStart :: rest => some (true, rest)
      | rest => if directed then none else some (false, rest)
    let (root, rest, c) ←
      if explicit && Compose.isEmptyContent rest then some (Node.missing, rest, c.count 1)
      else Compose.node (2 * ts.length + 2) true false rest c
    if Compose.onlyEnds rest then some ⟨some root, c.anchored, c.events⟩ else none

/-- The only document of a text. -/
def ofText? (s : String) : Option Document := (tokens? (Text.chars s)).bind ofTokens?

end Document

end Workboard.Yaml
