import Workboard.Yaml.Scalar
import Workboard.Yaml.Token

/-!
# Styles of strings

How a string is written: as it is, in quotes of either kind, or as a block of lines.
A string that would be read as something else as it is takes quotes, one with line
feeds becomes a block, and each falls back to the next style that can hold it.
-/
namespace Workboard.Yaml

inductive Style where
  | plain
  | single
  | double
  | block
  deriving DecidableEq

/-- The characters that may stand as themselves outside double quotes. -/
def isPrinted (c : Char) : Bool :=
  let n := c.toNat
  n = 0x0A || (0x20 ≤ n && n ≤ 0x7E) || (0xA0 ≤ n && n ≤ 0xD7FF) ||
    (0xE000 ≤ n && n ≤ 0xFFFD && n ≠ 0xFEFF) || 0x10000 ≤ n

/-- Two neighbours, the first of the one class and the second of the other. -/
def hasPair (p q : Char → Bool) : List Char → Bool
  | a :: b :: cs => p a && q b || hasPair p q (b :: cs)
  | _ => false

/-- The text begins with one of the characters that begin something else than plain text,
or with the mark of an item, of a key, of a value, or of a document. -/
def beginsMarked : List Char → Bool
  | [] => false
  | c :: cs =>
    "#,[]\x7b\x7d&*!|>'\"%@`".toList.contains c ||
      ((c = '-' || c = '?' || c = ':') && wordEnds cs) ||
      ['-', '-', '-'].isPrefixOf (c :: cs) || ['.', '.', '.'].isPrefixOf (c :: cs)

/-- The text holds the mark of a value or of a comment. -/
def holdsMark (cs : List Char) : Bool :=
  hasPair (· = ':') (fun c => isSpace c || isBreak c) cs || cs.getLast? = some ':' ||
    hasPair (fun c => isSpace c || isBreak c) (· = '#') cs

/-- A space or a line end stands first or last. -/
def hasLooseEnd (cs : List Char) : Bool :=
  let loose (c : Char) := c = ' ' || isBreak c
  cs.head?.any loose || cs.getLast?.any loose

/-- Only double quotes can hold the text. -/
def needsEscapes (cs : List Char) : Bool :=
  hasPair (· = ' ') isBreak cs || cs.any fun c => !isPrinted c

def fitsPlain (cs : List Char) : Bool :=
  !needsEscapes cs && !hasLooseEnd cs && !cs.any isBreak && !beginsMarked cs && !holdsMark cs

def fitsSingle (cs : List Char) : Bool := !needsEscapes cs && !hasPair isBreak (· = ' ') cs

def fitsBlock (cs : List Char) : Bool := !needsEscapes cs && cs.getLast? ≠ some ' '

/-- The plain text stands for something else than itself. -/
def readsOtherwise (s : String) : Bool :=
  match Plain.ofText s with
  | .text => isZeroLed s.toList
  | _ => true

/-- The style of a string. -/
def Style.ofText (s : String) : Style :=
  let cs := s.toList
  if cs.contains '\n' then if fitsBlock cs then .block else .double
  else if fitsPlain cs && !readsOtherwise s then .plain
  else if fitsSingle cs then .single
  else .double

end Workboard.Yaml
