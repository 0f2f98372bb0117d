import Workboard.Yaml.Lexer.Scalar

/-!
# Tags, anchors and directives

A tag is a handle and a suffix; a suffix may hold characters behind a percent sign
as the bytes of their encoding. A directive gives the version or the meaning of a
handle.
-/
namespace Workboard.Yaml.Lexer

/-- The characters of a tag's suffix; inside angle brackets three more. -/
def isTagChar (angled : Bool) (c : Char) : Bool :=
  isNameChar c || ";/?:@&=+$.%!~*'()".toList.contains c || (angled && ",[]".toList.contains c)

/-- A byte behind a percent sign. -/
def percentByte? : List Char → Option (Nat × List Char)
  | '%' :: a :: b :: rest => do
    let a ← hexDigit? a
    let b ← hexDigit? b
    some (16 * a + b, rest)
  | _ => none

/-- The bytes after the first of a character. -/
def percentTail? : Nat → Nat → List Char → Option (Nat × List Char)
  | 0, code, cs => some (code, cs)
  | count + 1, code, cs =>
    match percentByte? cs with
    | some (b, rest) => if b / 64 = 2 then percentTail? count (code * 64 + b % 64) rest else none
    | none => none

/-- A character written as the bytes of its encoding, and how many there are. -/
def percentChar? (cs : List Char) : Option (Char × Nat) := do
  let (b, rest) ← percentByte? cs
  let (count, code, least) ←
    if b < 0x80 then some (0, b, 0)
    else if b / 32 = 6 then some (1, b % 32, 0x80)
    else if b / 16 = 14 then some (2, b % 16, 0x800)
    else if b / 8 = 30 then some (3, b % 8, 0x10000)
    else none
  let (code, _) ← percentTail? count code rest
  let c ← charOfCode? code
  if least ≤ code then some (c, 3 * (count + 1)) else none

/-- The characters of a suffix, last first. -/
def suffixChars (fuel : Nat) (angled : Bool) (acc : List Char) (s : Spot) :
    Option (List Char × Spot) :=
  match fuel with
  | 0 => some (acc, s)
  | fuel + 1 =>
    match s.rest with
    | [] => some (acc, s)
    | c :: _ =>
      if c = '%' then
        match percentChar? s.rest with
        | some (d, n) => suffixChars fuel angled (d :: acc) (s.skipMany n)
        | none => none
      else if isTagChar angled c then suffixChars fuel angled (c :: acc) s.skip
      else some (acc, s)

/-- The suffix of a tag after characters that were already read; not both may be empty. -/
def suffix (angled : Bool) (before : List Char) (s : Spot) : Option (List Char × Spot) :=
  match suffixChars s.rest.length angled [] s with
  | none => none
  | some (acc, t) => if before.isEmpty && acc.isEmpty then none else some (before.drop 1 ++ acc.reverse, t)

/-- A handle: an exclamation mark, name characters and, if it is there, another mark. -/
def handle (s : Spot) : Option (List Char × Spot) :=
  match s.rest with
  | '!' :: _ =>
    let name := s.skip.takeWhile isNameChar
    let t := s.skip.skipMany name.length
    if t.rest.head? = some '!' then some ('!' :: name ++ ['!'], t.skip) else some ('!' :: name, t)
  | _ => none

/-- A handle that ends in a mark of its own. -/
def isFullHandle (h : List Char) : Bool := 1 < h.length && h.getLast? = some '!'

/-- A tag: in angle brackets, with a handle, or with a suffix only. -/
def tag (inFlow : Bool) (s : Spot) : Option (Token × Spot) := do
  let (h, x, t) ←
    if (s.rest.drop 1).head? = some '<' then
      match suffix true [] (s.skipMany 2) with
      | none => none
      | some (x, t) => if t.rest.head? = some '>' then some ([], x, t.skip) else none
    else do
      let (h, t) ← handle s
      if isFullHandle h then
        let (x, t) ← suffix false [] t
        some (h, x, t)
      else
        let (x, t) ← suffix false h t
        if x.isEmpty then some ([], ['!'], t) else some (['!'], x, t)
  if wordEnds t.rest || (inFlow && t.rest.head? = some ',') then
    some (.tag (String.ofList h) (String.ofList x), t)
  else none

/-- The name of an anchor or an alias after its mark. -/
def anchorName (s : Spot) : Option (String × Spot) :=
  let name := s.takeWhile isNameChar
  let t := s.skipMany name.length
  let ended := wordEnds t.rest || (match t.rest with
    | c :: _ => "?:,]\x7d%@`".toList.contains c
    | [] => false)
  if name.isEmpty || !ended then none else some (String.ofList name, t)

/-- A number of at most nine digits. -/
def versionNumber (s : Spot) : Option (Nat × Spot) :=
  let ds := s.takeWhile Char.isDigit
  if ds.isEmpty || 9 < ds.length then none
  else some (ds.foldl (fun n d => 10 * n + (d.toNat - 48)) 0, s.skipMany ds.length)

/-- The major and the minor number of a version. -/
def version (s : Spot) : Option (Token × Spot) := do
  let (major, s) ← versionNumber s.skipSpaces
  if s.rest.head? = some '.' then
    let (minor, s) ← versionNumber s.skip
    some (.versionDirective major minor, s)
  else none

/-- A handle and what it stands for. -/
def handleMeaning (s : Spot) : Option (Token × Spot) := do
  let (h, s) ← handle s.skipSpaces
  if !(isFullHandle h || h = ['!']) then none
  else if !(s.rest.head?.any isSpace) then none
  else
    let (x, s) ← suffix true [] s.skipSpaces
    if wordEnds s.rest then some (.tagDirective (String.ofList h) (String.ofList x), s) else none

/-- A directive, past the end of its line. -/
def directive (s : Spot) : Option (Token × Spot) := do
  let name := s.skip.takeWhile isNameChar
  let s := s.skip.skipMany name.length
  if !wordEnds s.rest then none
  else
    let (token, s) ←
      if name = "YAML".toList then version s
      else if name = "TAG".toList then handleMeaning s
      else none
    let s := s.skipSpaces
    let s := if s.rest.head? = some '#' then s.skipToBreak else s
    if lineEnds s.rest then some (token, s.skipBreak) else none

end Workboard.Yaml.Lexer
