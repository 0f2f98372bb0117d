import Workboard.Yaml.Lexer.Spot

/-!
# The texts of scalars

Plain scalars, scalars in single or double quotes, and block scalars. In the first
three the blanks at a line end are dropped, a single line end becomes a space and
further ones stay. Characters are collected last first.
-/
namespace Workboard.Yaml.Lexer

/-- The space between two words of a scalar: blanks, or line ends with the first apart. -/
structure Gap where
  blanks : List Char := []
  first : List Char := []
  more : List Char := []
  broken : Bool := false

namespace Gap

/-- What a gap contributes to the text, last character first. -/
def text (g : Gap) : List Char :=
  if g.broken then
    if g.first = ['\n'] then (if g.more.isEmpty then [' '] else g.more)
    else g.more ++ g.first
  else g.blanks

/-- Read blanks and line ends. After a line end a tab left of `margin` is refused. -/
def read (fuel : Nat) (margin : Int) (g : Gap) (s : Spot) : Option (Gap × Spot) :=
  match fuel, s.rest with
  | 0, _ => some (g, s)
  | _, [] => some (g, s)
  | fuel + 1, c :: _ =>
    if isSpace c then
      if g.broken && (s.column : Int) < margin && c = '\t' then none
      else read fuel margin (if g.broken then g else { g with blanks := c :: g.blanks }) s.skip
    else if isBreak c then
      let g :=
        if g.broken then { g with more := s.breakText ++ g.more }
        else { g with blanks := [], first := s.breakText, broken := true }
      read fuel margin g s.skipBreak
    else some (g, s)

end Gap

/-- The indicators of flow collections. -/
def isFlowMark (c : Char) : Bool := c = ',' || c = '[' || c = ']' || c = '\x7b' || c = '\x7d'

/-- A colon in a flow collection with an indicator behind it. -/
def badColon : List Char → Bool
  | ':' :: c :: _ => isFlowMark c || c = '?'
  | _ => false

/-- A plain scalar cannot go on with these characters. -/
def plainEnds (inFlow : Bool) : List Char → Bool
  | [] => true
  | c :: rest =>
    isSpace c || isBreak c || (c = ':' && wordEnds rest) || (inFlow && isFlowMark c)

/-- The characters of a plain scalar up to a blank, a line end or an indicator. -/
def plainWord (fuel : Nat) (inFlow : Bool) (acc : List Char) (s : Spot) :
    Option (List Char × Spot) :=
  match fuel with
  | 0 => some (acc, s)
  | fuel + 1 =>
    match s.rest with
    | [] => some (acc, s)
    | c :: _ =>
      if isSpace c || isBreak c then some (acc, s)
      else if inFlow && badColon s.rest then none
      else if plainEnds inFlow s.rest then some (acc, s)
      else plainWord fuel inFlow (c :: acc) s.skip

/-- The words of a plain scalar. The flag tells whether the last gap had a line end. -/
def plainWords (fuel : Nat) (inFlow : Bool) (margin : Int) (acc : List Char) (g : Gap) (s : Spot) :
    Option (List Char × Bool × Spot) :=
  match fuel with
  | 0 => none
  | fuel + 1 =>
    if s.atDocumentMark || s.rest.head? = some '#' then some (acc, g.broken, s)
    else
      match plainWord s.rest.length inFlow [] s with
      | none => none
      | some (word, t) =>
        let (acc, g) := if word.isEmpty then (acc, g) else (word ++ g.text ++ acc, {})
        match t.rest with
        | [] => some (acc, g.broken, t)
        | c :: _ =>
          if isSpace c || isBreak c then
            match Gap.read t.rest.length margin {} t with
            | none => none
            | some (g, t) =>
              if !inFlow && (t.column : Int) < margin then some (acc, g.broken, t)
              else plainWords fuel inFlow margin acc g t
          else some (acc, g.broken, t)

/-- A plain scalar whose lines after the first begin at `margin` or further right. -/
def plainScalar (inFlow : Bool) (margin : Int) (s : Spot) : Option (String × Bool × Spot) :=
  (plainWords (s.rest.length + 1) inFlow margin [] {} s).map fun (acc, broken, t) =>
    (String.ofList acc.reverse, broken, t)

/-- The value of a hexadecimal digit. -/
def hexDigit? (c : Char) : Option Nat :=
  if c.isDigit then some (c.toNat - 48)
  else if 'a' ≤ c && c ≤ 'f' then some (c.toNat - 87)
  else if 'A' ≤ c && c ≤ 'F' then some (c.toNat - 55)
  else none

/-- A number of exactly so many hexadecimal digits. -/
def hexNumber? (count : Nat) (cs : List Char) : Option Nat :=
  let ds := cs.take count
  if ds.length = count then ds.foldlM (fun n c => (hexDigit? c).map (16 * n + ·)) 0 else none

/-- The character with a code point, which is not half of a surrogate pair. -/
def charOfCode? (n : Nat) : Option Char := if n.isValidChar then some (Char.ofNat n) else none

/-- The character of an escape of one letter. -/
def escapeChar? (c : Char) : Option Char :=
  match c with
  | '0' => some '\x00'
  | 'a' => some '\x07'
  | 'b' => some '\x08'
  | 't' => some '\t'
  | '\t' => some '\t'
  | 'n' => some '\n'
  | 'v' => some '\x0b'
  | 'f' => some '\x0c'
  | 'r' => some '\r'
  | 'e' => some '\x1b'
  | ' ' => some ' '
  | '"' => some '"'
  | '/' => some '/'
  | '\\' => some '\\'
  | 'N' => some '\x85'
  | '_' => some '\xa0'
  | 'L' => some '\u2028'
  | 'P' => some '\u2029'
  | _ => none

/-- How many hexadecimal digits an escape letter takes. -/
def escapeDigits? (c : Char) : Option Nat :=
  match c with
  | 'x' => some 2
  | 'u' => some 4
  | 'U' => some 8
  | _ => none

/-- An escape after its backslash: the character and the length of the escape. -/
def escape? : List Char → Option (Char × Nat)
  | [] => none
  | c :: rest =>
    match escapeDigits? c with
    | some count => do
      let n ← hexNumber? count rest
      let d ← charOfCode? n
      some (d, count + 1)
    | none => (escapeChar? c).map (·, 1)

/-- The characters of a quoted scalar up to a blank, a line end, the closing quote or a
line end behind a backslash; the flag marks the last. -/
def quotedWord (fuel : Nat) (single : Bool) (acc : List Char) (s : Spot) :
    Option (List Char × Bool × Spot) :=
  match fuel with
  | 0 => some (acc, false, s)
  | fuel + 1 =>
    match s.rest with
    | [] => some (acc, false, s)
    | c :: rest =>
      if isSpace c || isBreak c then some (acc, false, s)
      else if single then
        if c = '\'' then
          if rest.head? = some '\'' then quotedWord fuel single ('\'' :: acc) (s.skipMany 2)
          else some (acc, false, s)
        else quotedWord fuel single (c :: acc) s.skip
      else if c = '"' then some (acc, false, s)
      else if c = '\\' then
        match rest with
        | d :: _ =>
          if isBreak d then some (acc, true, s.skip.skipBreak)
          else match escape? rest with
            | some (e, n) => quotedWord fuel single (e :: acc) (s.skipMany (n + 1))
            | none => none
        | [] => none
      else quotedWord fuel single (c :: acc) s.skip

/-- The words of a quoted scalar up to and past its closing quote. -/
def quotedWords (fuel : Nat) (single : Bool) (acc : List Char) (s : Spot) :
    Option (List Char × Spot) :=
  match fuel with
  | 0 => none
  | fuel + 1 =>
    if s.atDocumentMark || s.rest.isEmpty then none
    else
      match quotedWord s.rest.length single acc s with
      | none => none
      | some (acc, escaped, t) =>
        if t.rest.head? = some (if single then '\'' else '"') then some (acc, t.skip)
        else match Gap.read t.rest.length 0 { broken := escaped } t with
          | none => none
          | some (g, t) => quotedWords fuel single (g.text ++ acc) t

/-- A scalar after its opening quote. -/
def quotedScalar (single : Bool) (s : Spot) : Option (String × Spot) :=
  (quotedWords (s.rest.length + 1) single [] s).map fun (acc, t) => (String.ofList acc.reverse, t)

/-- What happens to the line ends at the end of a block scalar. -/
inductive Chomp where
  | strip
  | clip
  | keep
  deriving DecidableEq

def chomp? (c : Char) : Option Chomp :=
  if c = '+' then some .keep else if c = '-' then some .strip else none

/-- The header of a block scalar: how its end is treated and how far it is indented, in
either order. -/
def blockHeader (s : Spot) : Option (Chomp × Nat × Spot) :=
  let digit? (t : Spot) : Option Nat := match t.rest with
    | c :: _ => if c.isDigit then some (c.toNat - 48) else none
    | [] => none
  match s.rest.head?.bind chomp? with
  | some chomp =>
    match digit? s.skip with
    | some 0 => none
    | some n => some (chomp, n, s.skip.skip)
    | none => some (chomp, 0, s.skip)
  | none =>
    match digit? s with
    | some 0 => none
    | some n => match s.skip.rest.head?.bind chomp? with
      | some chomp => some (chomp, n, s.skip.skip)
      | none => some (.clip, n, s.skip)
    | none => some (.clip, 0, s)

/-- The empty lines before a line of a block scalar. The indentation is still open if it
is zero; the greatest column met is kept to settle it. -/
def blockBreaks (fuel : Nat) (indent widest : Nat) (acc : List Char) (s : Spot) :
    Option (List Char × Nat × Spot) :=
  match fuel with
  | 0 => none
  | fuel + 1 =>
    let blanks := (s.takeWhile (· = ' ')).length
    let t := s.skipMany (if indent = 0 then blanks else min blanks (indent - s.column))
    let widest := max widest t.column
    match t.rest with
    | c :: _ =>
      if (indent = 0 || t.column < indent) && c = '\t' then none
      else if isBreak c then blockBreaks fuel indent widest (t.breakText ++ acc) t.skipBreak
      else some (acc, widest, t)
    | [] => some (acc, widest, t)

/-- The lines of a block scalar, with the text so far, the line end that is not yet
written and the empty lines after it. -/
def blockLines (fuel : Nat) (literal : Bool) (indent : Nat) (acc first more : List Char)
    (leadingBlank : Bool) (s : Spot) : Option (List Char × List Char × List Char × Spot) :=
  match fuel with
  | 0 => none
  | fuel + 1 =>
    match s.rest with
    | [] => some (acc, first, more, s)
    | c :: _ =>
      if s.column ≠ indent then some (acc, first, more, s)
      else
        let joined :=
          if !literal && first = ['\n'] && !leadingBlank && !isSpace c then
            (if more.isEmpty then ' ' :: acc else more ++ acc)
          else more ++ first ++ acc
        let line := s.takeWhile fun c => !isBreak c
        let t := s.skipToBreak
        match blockBreaks (t.rest.length + 1) indent 0 [] t.skipBreak with
        | none => none
        | some (breaks, _, u) =>
          blockLines fuel literal indent (line.reverse ++ joined) t.breakText breaks (isSpace c) u

/-- A block scalar after its indicator, inside a collection indented by `outer`. -/
def blockScalar (literal : Bool) (outer : Int) (s : Spot) : Option (String × Spot) := do
  let (chomp, increment, s) ← blockHeader s
  let s := s.skipSpaces
  let s := if s.rest.head? = some '#' then s.skipToBreak else s
  if !lineEnds s.rest then none
  else
    let s := s.skipBreak
    let given : Nat := if increment = 0 then 0 else (max outer 0).toNat + increment
    let (breaks, widest, s) ← blockBreaks (s.rest.length + 1) given 0 [] s
    let indent := if given = 0 then max (max widest (outer + 1).toNat) 1 else given
    let (acc, first, more, s) ← blockLines (s.rest.length + 1) literal indent [] [] breaks false s
    let acc := if chomp = .strip then acc else first ++ acc
    let acc := if chomp = .keep then more ++ acc else acc
    some (String.ofList acc.reverse, s)

end Workboard.Yaml.Lexer
