import Workboard.Yaml.Lexer.Tag

/-!
# From characters to tokens

Tokens are read one after another. A key of one line that needs no mark is noticed
only at its colon, so each place where such a key may have begun is remembered
together with the number of tokens before it, and the key token is put there later.
Columns decide where block collections begin and end.
-/
namespace Workboard.Yaml

/-- A place where a key without a mark may have begun. A required key must turn out
to be one. -/
structure KeyStart where
  required : Bool
  before : Nat
  index : Nat
  line : Nat
  column : Nat

/-- The tokens so far, last first, and what is open. There is one possible key for the
block level and one for each open flow collection, innermost first. -/
structure Lexer where
  spot : Spot
  tokens : List Token := []
  count : Nat := 0
  indent : Int := -1
  outer : List Int := []
  keys : List (Option KeyStart) := [none]
  keyAllowed : Bool := true

namespace Lexer

def inFlow (l : Lexer) : Bool := 1 < l.keys.length

def push (t : Token) (l : Lexer) : Lexer := { l with tokens := t :: l.tokens, count := l.count + 1 }

/-- Put tokens in place so that `before` tokens come before them. -/
def insert (before : Nat) (ts : List Token) (l : Lexer) : Lexer :=
  let later := l.tokens.take (l.count - before)
  { l with tokens := later ++ ts.reverse ++ l.tokens.drop (l.count - before), count := l.count + ts.length }

/-- Past blanks, comments and line ends. Tabs count as blanks where no line can begin
a block. -/
def skipToToken (fuel : Nat) (l : Lexer) : Lexer :=
  match fuel with
  | 0 => l
  | fuel + 1 =>
    let s := l.spot
    let s := if s.column = 0 && s.rest.head? = some '\ufeff' then s.skip else s
    let s := s.skipWhile fun c => c = ' ' || (c = '\t' && (l.inFlow || !l.keyAllowed))
    let s := if s.rest.head? = some '#' then s.skipToBreak else s
    match s.rest with
    | c :: _ =>
      if isBreak c then
        skipToToken fuel { l with spot := s.skipBreak, keyAllowed := l.keyAllowed || !l.inFlow }
      else { l with spot := s }
    | [] => { l with spot := s }

/-- Give up possible keys that would be longer than a line or than 1024 characters. -/
def dropStaleKeys (l : Lexer) : Option Lexer := do
  let keys ← l.keys.mapM fun k =>
    match k with
    | none => some none
    | some k =>
      if k.line < l.spot.line || k.index + 1024 < l.spot.index then
        (if k.required then none else some none)
      else some (some k)
  some { l with keys }

/-- Give up the innermost possible key. -/
def removeKey (l : Lexer) : Option Lexer :=
  match l.keys with
  | some k :: keys => if k.required then none else some { l with keys := none :: keys }
  | _ => some l

/-- Remember that a key may begin here. -/
def saveKey (l : Lexer) : Option Lexer :=
  if l.keyAllowed then do
    let s := l.spot
    let l ← l.removeKey
    let k : KeyStart := ⟨!l.inFlow && l.indent = s.column, l.count, s.index, s.line, s.column⟩
    some { l with keys := some k :: l.keys.drop 1 }
  else some l

/-- Close the block collections that begin right of the column. -/
def unroll (column : Int) (l : Lexer) : Lexer :=
  if l.inFlow then l
  else
    let closed := (l.indent :: l.outer).takeWhile (column < ·)
    match (l.indent :: l.outer).drop closed.length with
    | indent :: outer =>
      { l with
        tokens := List.replicate closed.length .blockEnd ++ l.tokens,
        count := l.count + closed.length, indent, outer }
    | [] => l

/-- Open a block collection at the column, unless one is open there or further right. -/
def roll (column : Nat) (before : Nat) (t : Token) (l : Lexer) : Lexer :=
  if l.inFlow || (column : Int) ≤ l.indent then l
  else { l.insert before [t] with indent := column, outer := l.indent :: l.outer }

/-- A token of so many characters that stands by itself. -/
def emit (t : Token) (length : Nat) (l : Lexer) : Lexer :=
  { l.push t with spot := l.spot.skipMany length }

def fetchEnd (l : Lexer) : Option Lexer := do
  let l ← (l.unroll (-1)).removeKey
  some (l.push .streamEnd)

def fetchDirective (l : Lexer) : Option Lexer := do
  let l ← (l.unroll (-1)).removeKey
  let (t, s) ← directive l.spot
  some { l.push t with spot := s, keyAllowed := false }

def fetchDocumentMark (t : Token) (l : Lexer) : Option Lexer := do
  let l ← (l.unroll (-1)).removeKey
  some { l.emit t 3 with keyAllowed := false }

def fetchFlowStart (t : Token) (l : Lexer) : Option Lexer := do
  let l ← l.saveKey
  some { l.emit t 1 with keys := none :: l.keys, keyAllowed := true }

def fetchFlowEnd (t : Token) (l : Lexer) : Option Lexer := do
  let l ← l.removeKey
  let keys := if l.inFlow then l.keys.drop 1 else l.keys
  some { l.emit t 1 with keys, keyAllowed := false }

def fetchFlowEntry (l : Lexer) : Option Lexer := do
  let l ← l.removeKey
  some { l.emit .flowEntry 1 with keyAllowed := true }

def fetchBlockEntry (l : Lexer) : Option Lexer :=
  if !l.inFlow && !l.keyAllowed then none
  else do
    let l ← (l.roll l.spot.column l.count .blockSequenceStart).removeKey
    some { l.emit .blockEntry 1 with keyAllowed := true }

def fetchKey (l : Lexer) : Option Lexer :=
  if !l.inFlow && !l.keyAllowed then none
  else do
    let l ← (l.roll l.spot.column l.count .blockMappingStart).removeKey
    some { l.emit .key 1 with keyAllowed := !l.inFlow }

def fetchValue (l : Lexer) : Option Lexer :=
  match l.keys with
  | some k :: keys =>
    let l := (l.insert k.before [.key]).roll k.column k.before .blockMappingStart
    some { l.emit .value 1 with keys := none :: keys, keyAllowed := false }
  | _ =>
    if !l.inFlow && !l.keyAllowed then none
    else
      let l := l.roll l.spot.column l.count .blockMappingStart
      some { l.emit .value 1 with keyAllowed := !l.inFlow }

def fetchAnchor (make : String → Token) (l : Lexer) : Option Lexer := do
  let l ← l.saveKey
  let (name, s) ← anchorName l.spot.skip
  some { l.push (make name) with spot := s, keyAllowed := false }

def fetchTag (l : Lexer) : Option Lexer := do
  let l ← l.saveKey
  let (t, s) ← tag l.inFlow l.spot
  some { l.push t with spot := s, keyAllowed := false }

def fetchBlockScalar (literal : Bool) (l : Lexer) : Option Lexer := do
  let l ← l.removeKey
  let (text, s) ← blockScalar literal l.indent l.spot.skip
  some { l.push (.scalar text false) with spot := s, keyAllowed := true }

def fetchQuoted (single : Bool) (l : Lexer) : Option Lexer := do
  let l ← l.saveKey
  let (text, s) ← quotedScalar single l.spot.skip
  some { l.push (.scalar text false) with spot := s, keyAllowed := false }

def fetchPlain (l : Lexer) : Option Lexer := do
  let l ← l.saveKey
  let (text, broken, s) ← plainScalar l.inFlow (l.indent + 1) l.spot
  some { l.push (.scalar text true) with spot := s, keyAllowed := broken }

/-- A plain scalar may begin with these characters. -/
def plainBegins (inFlow : Bool) : List Char → Bool
  | [] => false
  | c :: rest =>
    !(isSpace c || isBreak c || "-?:,[]\x7b\x7d#&*!|>'\"%@`".toList.contains c) ||
      (c = '-' && !(rest.head?.any isSpace)) ||
      (!inFlow && (c = '?' || c = ':') && !wordEnds rest)

/-- Read the next token. -/
def fetch (l : Lexer) : Option Lexer := do
  let l := l.skipToToken (l.spot.rest.length + 1)
  let l ← l.dropStaleKeys
  let s := l.spot
  let l := l.unroll s.column
  match s.rest with
  | [] => l.fetchEnd
  | c :: rest =>
    if s.column = 0 && c = '%' then l.fetchDirective
    else if s.atMark '-' then l.fetchDocumentMark .documentStart
    else if s.atMark '.' then l.fetchDocumentMark .documentEnd
    else if c = '[' then l.fetchFlowStart .flowSequenceStart
    else if c = '\x7b' then l.fetchFlowStart .flowMappingStart
    else if c = ']' then l.fetchFlowEnd .flowSequenceEnd
    else if c = '\x7d' then l.fetchFlowEnd .flowMappingEnd
    else if c = ',' then l.fetchFlowEntry
    else if c = '-' && wordEnds rest then l.fetchBlockEntry
    else if c = '?' && (l.inFlow || wordEnds rest) then l.fetchKey
    else if c = ':' && (l.inFlow || wordEnds rest) then l.fetchValue
    else if c = '*' then l.fetchAnchor .alias
    else if c = '&' then l.fetchAnchor .anchor
    else if c = '!' then l.fetchTag
    else if c = '|' && !l.inFlow then l.fetchBlockScalar true
    else if c = '>' && !l.inFlow then l.fetchBlockScalar false
    else if c = '\'' then l.fetchQuoted true
    else if c = '"' then l.fetchQuoted false
    else if plainBegins l.inFlow s.rest then l.fetchPlain
    else none

/-- Read tokens up to the end of the text. -/
def run (fuel : Nat) (l : Lexer) : Option (List Token) :=
  match fuel with
  | 0 => none
  | fuel + 1 =>
    match l.fetch with
    | none => none
    | some l => if l.tokens.head? = some .streamEnd then some l.tokens.reverse else run fuel l

end Lexer

/-- The tokens of a text, if it has only allowed characters and every token is well
formed. A byte order mark in front is skipped. -/
def tokens? (cs : List Char) : Option (List Token) :=
  if cs.all isAllowed then
    let cs := match cs with
      | '\ufeff' :: rest => rest
      | _ => cs
    Lexer.run (cs.length + 2) { spot := Spot.start cs }
  else none

end Workboard.Yaml
