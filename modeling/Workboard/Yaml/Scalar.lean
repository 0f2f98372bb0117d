import Workboard.Yaml.Value
import Workboard.Number.Reader

/-!
# Scalars

What the text of a plain scalar stands for: nothing, a truth value, a whole number
in one of four bases, a fraction, or the text itself. A whole number with a zero in
front of its digits is a text, and so is a fraction too large for the format.
-/
namespace Workboard.Yaml

-- Powers are those of the core library, whatever else is in scope.
attribute [local instance (high)] instPowNat

/-- The words for nothing. -/
def isNullWord (s : String) : Bool := s = "null" || s = "Null" || s = "NULL" || s = "~"

def boolOfWord? (s : String) : Option Bool :=
  if s = "true" || s = "True" || s = "TRUE" then some true
  else if s = "false" || s = "False" || s = "FALSE" then some false
  else none

/-- A zero in front of more decimal digits, after at most one sign. -/
def isZeroLed (cs : List Char) : Bool :=
  match (takeSign cs).2 with
  | '0' :: d :: ds => (d :: ds).all Char.isDigit
  | _ => false

/-- The value of a digit of either case, if it is below the base. -/
def digitInBase? (base : Nat) (c : Char) : Option Nat :=
  let v :=
    if c.isDigit then c.toNat - 48
    else if 'a' ≤ c && c ≤ 'z' then c.toNat - 87
    else if 'A' ≤ c && c ≤ 'Z' then c.toNat - 55
    else base
  if v < base then some v else none

/-- The number that all the characters write in a base, one digit at least. -/
def natInBase? (base : Nat) (cs : List Char) : Option Nat :=
  if cs.isEmpty then none
  else cs.foldlM (fun n c => (digitInBase? base c).map (base * n + ·)) 0

/-- The number after a mark of its base, or a decimal number without a zero in front. -/
def natOfWord? (cs : List Char) : Option Nat :=
  match cs with
  | '0' :: 'x' :: ds => natInBase? 16 ds
  | '0' :: 'o' :: ds => natInBase? 8 ds
  | '0' :: 'b' :: ds => natInBase? 2 ds
  | _ => if isZeroLed cs then none else natInBase? 10 cs

/-- A whole number with an optional sign. -/
def intOfWord? (cs : List Char) : Option Int :=
  match cs with
  | '+' :: ds => (natOfWord? ds).map Int.ofNat
  | '-' :: ds => (natOfWord? ds).map fun n => -(n : Int)
  | ds => (natOfWord? ds).map Int.ofNat

/-- The whole numbers that a value can hold. -/
def fitsWord (n : Int) : Bool := -(2 ^ (63 : Nat)) ≤ n && n < 2 ^ (64 : Nat)

/-- The whole numbers that are read as such, though not all of them can be held. -/
def fitsLongWord (n : Int) : Bool := -(2 ^ (127 : Nat)) ≤ n && n < 2 ^ (128 : Nat)

/-- A fraction by its digits or by one of the names of the special values. -/
def floatOfWord? (cs : List Char) : Option Binary64 :=
  let unsigned? : Option (List Char) := match cs with
    | '+' :: rest => match rest with
      | '+' :: _ => none
      | '-' :: _ => none
      | _ => some rest
    | _ => some cs
  match unsigned? with
  | none => none
  | some body =>
    let word := String.ofList cs
    let name := String.ofList body
    if name = ".inf" || name = ".Inf" || name = ".INF" then some (.infinite false)
    else if word = "-.inf" || word = "-.Inf" || word = "-.INF" then some (.infinite true)
    else if word = ".nan" || word = ".NaN" || word = ".NAN" then some .nan
    else match Binary64.read? body with
      | some x => if x.isFinite then some x else none
      | none => none

/-- What a plain scalar stands for. -/
inductive Plain where
  | null
  | bool (b : Bool)
  | int (n : Int)
  | float (x : Binary64)
  | text

/-- The reading of a plain scalar by its text. -/
def Plain.ofText (s : String) : Plain :=
  if s.isEmpty || isNullWord s then .null
  else match boolOfWord? s with
  | some b => .bool b
  | none =>
    let cs := s.toList
    let whole := (intOfWord? cs).filter fitsLongWord
    match whole with
    | some n => .int n
    | none =>
      if isZeroLed cs then .text
      else match floatOfWord? cs with
        | some x => .float x
        | none => .text

end Workboard.Yaml
