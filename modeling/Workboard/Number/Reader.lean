import Workboard.Number.Decimal

/-!
# Reading numbers

A decimal has a sign, digits with at most one point among or around them, and an
exponent, all but one digit optional. As a binary number also the names of the
special values are read, in letters of either case.
-/
namespace Workboard

/-- Take a sign off the front; true for minus. -/
def takeSign : List Char → Bool × List Char
  | '+' :: cs => (false, cs)
  | '-' :: cs => (true, cs)
  | cs => (false, cs)

/-- A whole number with an optional sign and nothing after it. -/
def readInt? (cs : List Char) : Option Int :=
  let (negative, ds) := takeSign cs
  if ds.isEmpty || !ds.all Char.isDigit then none
  else some (if negative then -(natOfDigits ds : Int) else natOfDigits ds)

namespace Decimal

/-- The exponent after the digits, if the rest is an exponent or nothing. -/
def readExponent? : List Char → Option Int
  | [] => some 0
  | c :: cs => if c = 'e' || c = 'E' then readInt? cs else none

/-- The decimal that all the characters write after a sign. -/
def readUnsigned? (negative : Bool) (cs : List Char) : Option Decimal :=
  let whole := cs.takeWhile Char.isDigit
  let cs := cs.drop whole.length
  let (fraction, cs) := match cs with
    | '.' :: rest => (rest.takeWhile Char.isDigit, rest.dropWhile Char.isDigit)
    | _ => ([], cs)
  if whole.isEmpty && fraction.isEmpty then none
  else (readExponent? cs).map fun e => ⟨negative, natOfDigits (whole ++ fraction), e - fraction.length⟩

end Decimal

/-- The binary number that all the characters write. -/
def Binary64.read? (cs : List Char) : Option Binary64 :=
  let (negative, body) := takeSign cs
  let name := String.ofList (body.map Char.toLower)
  if name = "inf" || name = "infinity" then some (.infinite negative)
  else if name = "nan" then some .nan
  else (Decimal.readUnsigned? negative body).map Decimal.toBinary64

end Workboard
