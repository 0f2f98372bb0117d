import Workboard.Yaml.Style

/-!
# Values as text

A collection has an entry on each line, two columns further in for each level, and
an empty one is written in brackets. A list that is the value of a short key keeps
the column of the key. A key is short if it fits on one line with at most 128 bytes;
a longer one has a line of its own, behind a mark. Lines are never folded.
-/
namespace Workboard.Yaml.Printer

/-- Where a node begins: whether it belongs to a mapping, whether only marks stand in
front of it on its line, and whether it needs a blank in front. -/
structure Place where
  inMapping : Bool
  fresh : Bool
  spaced : Bool

namespace Place

/-- The whole text. -/
def root : Place := ⟨false, true, false⟩

/-- After the mark of an item. -/
def item : Place := ⟨false, true, true⟩

/-- After the mark of a long key or of its value. -/
def long : Place := ⟨true, true, true⟩

/-- After a short key. -/
def short : Place := ⟨true, false, true⟩

/-- Behind a tag. -/
def tagged (p : Place) : Place := ⟨p.inMapping, false, true⟩

def lead (p : Place) : List Char := if p.spaced then [' '] else []

end Place

def spaces (n : Nat) : List Char := List.replicate n ' '

/-- How far a text is indented that continues on further lines. -/
def textMargin : Option Nat → Nat
  | none => 2
  | some n => n + 2

/-- How far the entries of a collection are indented. -/
def entryMargin : Option Nat → Nat
  | none => 0
  | some n => n + 2

/-- A character inside double quotes. -/
def escape (c : Char) : List Char :=
  let hex (width : Nat) : List Char :=
    let ds := (Nat.toDigits 16 c.toNat).map Char.toUpper
    List.replicate (width - ds.length) '0' ++ ds
  if c = '"' || c = '\\' then ['\\', c]
  else if isPrinted c && !isBreak c then [c]
  else match c.toNat with
    | 0x00 => ['\\', '0']
    | 0x07 => ['\\', 'a']
    | 0x08 => ['\\', 'b']
    | 0x09 => ['\\', 't']
    | 0x0A => ['\\', 'n']
    | 0x0B => ['\\', 'v']
    | 0x0C => ['\\', 'f']
    | 0x0D => ['\\', 'r']
    | 0x1B => ['\\', 'e']
    | 0x85 => ['\\', 'N']
    | 0x2028 => ['\\', 'L']
    | 0x2029 => ['\\', 'P']
    | n => if n ≤ 0xFF then '\\' :: 'x' :: hex 2
      else if n ≤ 0xFFFF then '\\' :: 'u' :: hex 4
      else '\\' :: 'U' :: hex 8

def doubleText (cs : List Char) : List Char := '"' :: cs.flatMap escape ++ ['"']

/-- The inside of single quotes: a quote is written twice, and what follows a line end,
the last quote too, is indented. -/
def singleInside (margin : Nat) (atStart : Bool) : List Char → List Char
  | [] => if atStart then spaces margin else []
  | c :: cs =>
    if isBreak c then c :: singleInside margin true cs
    else (if atStart then spaces margin else []) ++
      (if c = '\'' then ['\'', '\''] else [c]) ++ singleInside margin false cs

def singleText (margin : Nat) (cs : List Char) : List Char :=
  '\'' :: singleInside margin false cs ++ ['\'']

/-- What stands behind the mark of a block: the margin where the text itself begins with
a blank, and how the line ends at the end of the text count. -/
def blockHints (cs : List Char) : List Char :=
  let margin := if cs.head?.any fun c => c = ' ' || isBreak c then ['2'] else []
  let ends := match cs.reverse with
    | a :: b :: _ => if !isBreak a then ['-'] else if isBreak b then ['+'] else []
    | [a] => if isBreak a then ['+'] else ['-']
    | [] => ['-']
  margin ++ ends

/-- The lines of a block, with a line end at the end. -/
def blockLines (margin : Nat) (atStart : Bool) : List Char → List Char
  | [] => if atStart then [] else ['\n']
  | c :: cs =>
    if isBreak c then c :: blockLines margin true cs
    else (if atStart then spaces margin else []) ++ c :: blockLines margin false cs

/-- A string up to the end of its last line. -/
def string (margin : Nat) (s : String) : List Char :=
  let cs := s.toList
  match Style.ofText s with
  | .plain => cs ++ ['\n']
  | .single => singleText margin cs ++ ['\n']
  | .double => doubleText cs ++ ['\n']
  | .block => '|' :: blockHints cs ++ '\n' :: blockLines margin true cs

/-- The text of a scalar that is no string. -/
def word? : Value → Option String
  | .null => some "null"
  | .bool b => some (if b then "true" else "false")
  | .int n => some (toString n)
  | .float x => some (Binary64.Layout.frontMatter.render x)
  | _ => none

/-- The full text of a tag. -/
def tagName (name : String) : String := if name.toList.head? = some '!' then name else "!" ++ name

/-- Letters, digits and some marks stand for themselves in a tag, other characters as the
percent codes of their bytes. -/
def tagChar (c : Char) : List Char :=
  if isNameChar c || ";/?:@&=+$,.~*'()[]".toList.contains c then [c]
  else (String.singleton c).toUTF8.toList.flatMap fun b =>
    let ds := (Nat.toDigits 16 b.toNat).map Char.toUpper
    '%' :: (List.replicate (2 - ds.length) '0' ++ ds)

/-- A tag as written: after its mark, or in angles if there is nothing after the mark. -/
def tagText (name : String) : List Char :=
  match (tagName name).toList with
  | '!' :: c :: cs => '!' :: (c :: cs).flatMap tagChar
  | cs => '!' :: '<' :: cs.flatMap tagChar ++ ['>']

/-- A value on one line, and the bytes of its text, if it has one line. -/
def line? : Value → Option (List Char × Nat)
  | .null => some ("null".toList, 4)
  | .str s =>
    let cs := s.toList
    if cs.any isBreak then none
    else
      let text := match Style.ofText s with
        | .plain => cs
        | .single => singleText 0 cs
        | _ => doubleText cs
      some (text, s.utf8ByteSize)
  | .seq [] => some (['[', ']'], 0)
  | .map [] => some (['\x7b', '\x7d'], 0)
  | .tagged t v =>
    (line? v).map fun (text, n) => (tagText t ++ ' ' :: text, (tagName t).utf8ByteSize + n)
  | v => (word? v).map fun s => (s.toList, s.utf8ByteSize)

/-- The most bytes of a short key. -/
def keyLimit : Nat := 128

/-- The text of a short key. -/
def shortKey? (k : Value) : Option (List Char) :=
  match line? k with
  | some (text, n) => if n ≤ keyLimit then some text else none
  | none => none

/-- The beginning of a collection whose entries are indented by `margin`. -/
def opening (place : Place) (margin : Nat) : List Char :=
  if place.fresh then place.lead else '\n' :: spaces margin

mutual

/-- A node up to the end of its last line. -/
def node (margin : Option Nat) (place : Place) : Value → List Char
  | .str s => place.lead ++ string (textMargin margin) s
  | .seq vs =>
    let inner := if place.inMapping && !place.fresh then margin.getD 0 else entryMargin margin
    if vs.isEmpty then place.lead ++ ['[', ']', '\n']
    else opening place inner ++ items inner 0 vs
  | .map es =>
    let inner := entryMargin margin
    if es.isEmpty then place.lead ++ ['\x7b', '\x7d', '\n']
    else opening place inner ++ entries inner 0 es
  | .tagged t v => place.lead ++ tagText t ++ node margin place.tagged v
  | v => place.lead ++ ((word? v).getD "").toList ++ ['\n']

/-- The items of a list, the first of them indented by `first`. -/
def items (margin first : Nat) : List Value → List Char
  | [] => []
  | v :: vs => spaces first ++ '-' :: node (some margin) .item v ++ items margin margin vs

/-- One entry of a mapping. -/
def entry (margin : Nat) : Value × Value → List Char
  | (k, v) =>
    match shortKey? k with
    | some text => text ++ ':' :: node (some margin) .short v
    | none =>
      '?' :: node (some margin) .long k ++ spaces margin ++ ':' :: node (some margin) .long v

/-- The entries of a mapping, the first of them indented by `first`. -/
def entries (margin first : Nat) : List (Value × Value) → List Char
  | [] => []
  | e :: es => spaces first ++ entry margin e ++ entries margin margin es

end

end Printer

/-- The text of a document that holds the value. -/
def Value.render (v : Value) : String := String.ofList (Printer.node none .root v)

end Workboard.Yaml
