import Workboard.Yaml.Token

/-!
# Places in a text

A place is the text from there on together with its line, its column and the
number of characters before it.
-/
namespace Workboard.Yaml

structure Spot where
  rest : List Char
  index : Nat
  line : Nat
  column : Nat

namespace Spot

/-- One character on, within the line. -/
def skip (s : Spot) : Spot :=
  { s with rest := s.rest.drop 1, index := s.index + 1, column := s.column + 1 }

/-- Several characters on, within the line. -/
def skipMany (n : Nat) (s : Spot) : Spot :=
  { s with rest := s.rest.drop n, index := s.index + n, column := s.column + n }

/-- Past the end of the line, if it is here. A carriage return and a line feed are one end. -/
def skipBreak (s : Spot) : Spot :=
  match s.rest with
  | '\r' :: '\n' :: rest => ⟨rest, s.index + 2, s.line + 1, 0⟩
  | c :: rest => if isBreak c then ⟨rest, s.index + 1, s.line + 1, 0⟩ else s
  | [] => s

/-- What the end of the line here contributes to a scalar: a line feed, but the two
Unicode separators stay what they are. -/
def breakText (s : Spot) : List Char :=
  match s.rest with
  | c :: _ =>
    if c = '\u2028' || c = '\u2029' then [c]
    else if isBreak c then ['\n']
    else []
  | [] => []

/-- Past all characters of a class. -/
def skipWhile (p : Char → Bool) (s : Spot) : Spot := s.skipMany (s.rest.takeWhile p).length

/-- The characters of a class from here on. -/
def takeWhile (p : Char → Bool) (s : Spot) : List Char := s.rest.takeWhile p

def skipSpaces (s : Spot) : Spot := s.skipWhile isSpace

def skipToBreak (s : Spot) : Spot := s.skipWhile fun c => !isBreak c

/-- Three of the given mark at the start of a line, with nothing else in the word. -/
def atMark (mark : Char) (s : Spot) : Bool :=
  s.column = 0 && s.rest.take 3 = [mark, mark, mark] && wordEnds (s.rest.drop 3)

/-- The start or the end of a document stands here. -/
def atDocumentMark (s : Spot) : Bool := s.atMark '-' || s.atMark '.'

def start (cs : List Char) : Spot := ⟨cs, 0, 0, 0⟩

end Spot

end Workboard.Yaml
