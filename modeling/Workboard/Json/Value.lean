import Workboard.Number.Decimal

/-!
# JSON values

A number keeps the digits it was written with, so whole numbers, fractions and
exponents stay apart. A string has no text if it holds half of a surrogate pair.
-/
namespace Workboard

/-- A number as written: the digits before and after the point and the exponent. -/
structure JsonNumber where
  negative : Bool
  whole : List Char
  fraction : List Char
  exponent : Option Int
  deriving DecidableEq, Inhabited

inductive Json where
  | null
  | bool (b : Bool)
  | number (n : JsonNumber)
  | string (s : Option String)
  | array (items : List Json)
  | object (members : List (Option String × Json))
  deriving Inhabited

namespace JsonNumber

-- Powers are those of the core library, whatever else is in scope.
attribute [local instance (high)] instPowNat

/-- No point and no exponent. -/
def isWhole (n : JsonNumber) : Bool := n.fraction.isEmpty && n.exponent.isNone

def toInt (n : JsonNumber) : Int :=
  if n.negative then -(natOfDigits n.whole) else natOfDigits n.whole

/-- The exact value, with any number of digits. -/
def toDecimal (n : JsonNumber) : Decimal :=
  ⟨n.negative, natOfDigits (n.whole ++ n.fraction), n.exponent.getD 0 - n.fraction.length⟩

def ofInt (i : Int) : JsonNumber := ⟨i < 0, Nat.toDigits 10 i.natAbs, [], none⟩

/-- Digits added to a number as long as it stays below two to the 64th, and the digits left. -/
def takeWord (n : Nat) : List Char → Nat × List Char
  | [] => (n, [])
  | d :: ds =>
    let m := 10 * n + (d.toNat - 48)
    if m < 2 ^ (64 : Nat) then takeWord m ds else (n, d :: ds)

/-- `x * 10 ^ e` by one multiplication or by divisions of at most 308 places, each
rounded. A product that is too large has no value. -/
def scale? (fuel : Nat) (x : Binary64) (e : Int) : Option Binary64 :=
  if e.natAbs ≤ 308 then
    if 0 ≤ e then
      let y := x * .ofNat (10 ^ e.toNat)
      if y.isFinite then some y else none
    else some (x / .ofNat (10 ^ e.natAbs))
  else if x.isZero then some x
  else if 0 ≤ e then none
  else match fuel with
    | 0 => some x
    | fuel + 1 => scale? fuel (x / .ofNat (10 ^ (308 : Nat))) (e + 308)

/-- The largest exponent that is added up; a larger one settles the number by itself. -/
def exponentLimit : Nat := 2147483647

/-- The binary number by the quick reading of lock files: the leading digits that fit
64 bits are taken, further ones count only as places, and the power of ten is
applied with rounding. -/
def toBinary64? (n : JsonNumber) : Option Binary64 :=
  let (head, dropped) := takeWord 0 n.whole
  let (m, ignored) := takeWord head n.fraction
  let places : Int := (dropped.length : Int) - (n.fraction.length - ignored.length : Nat)
  let unsigned : Option Binary64 :=
    match n.exponent with
    | some e =>
      if exponentLimit < e.natAbs then
        if m = 0 || e < 0 then some (.zero false) else none
      else scale? 16 (.ofNat m) (places + e)
    | none => if n.isWhole && dropped.isEmpty then some (.ofNat m) else scale? 16 (.ofNat m) places
  unsigned.map fun x => if n.negative then -x else x

end JsonNumber

namespace Json

/-- The value of the last member of a name. -/
def get? (j : Json) (name : String) : Option Json :=
  match j with
  | .object ms => (ms.reverse.find? fun m => m.1 = some name).map Prod.snd
  | _ => none

def text? : Json → Option String
  | .string s => s
  | _ => none

end Json

end Workboard
