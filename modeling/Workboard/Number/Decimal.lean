import Workboard.Text.Cut
import Workboard.Number.Binary64

/-!
# Decimal numbers

A decimal is a whole number times a power of ten. It is read as the nearest binary
number, and a binary number is written with the fewest digits that read back as
that number, the nearest such digits first. How the digits are laid out is a
record of the format.
-/
namespace Workboard

-- Powers are those of the core library, whatever else is in scope.
attribute [local instance (high)] instPowNat

/-- The number `digits * 10 ^ exponent` with a sign. -/
structure Decimal where
  negative : Bool
  digits : Nat
  exponent : Int
  deriving DecidableEq, Inhabited

/-- The number that decimal digits stand for. -/
def natOfDigits (ds : List Char) : Nat := ds.foldl (fun n d => 10 * n + (d.toNat - 48)) 0

/-- How many decimal digits a number has. -/
def digitCount (n : Nat) : Nat := (Nat.toDigits 10 n).length

namespace Decimal

/-- The nearest binary number. Magnitudes beyond every binary number are settled by
the place of the first digit. -/
def toBinary64 (d : Decimal) : Binary64 :=
  let place : Int := digitCount d.digits + d.exponent
  if d.digits = 0 || place < -330 then .zero d.negative
  else if 320 < place then .infinite d.negative
  else .ofFraction d.negative (d.digits * 10 ^ d.exponent.toNat) (10 ^ (-d.exponent).toNat)

/-- The same number without zeros at the end of its digits; zero keeps no exponent. -/
def stripZeros (fuel : Nat) (d : Decimal) : Decimal :=
  match fuel with
  | 0 => d
  | fuel + 1 =>
    if d.digits = 0 then { d with exponent := 0 }
    else if d.digits % 10 = 0 then
      stripZeros fuel { d with digits := d.digits / 10, exponent := d.exponent + 1 }
    else d

end Decimal

/-- Which of two decimals of equal length and distance is written. -/
inductive Tie where
  | toEven
  | upward
  deriving DecidableEq

namespace Binary64

/-- The greatest `p` with `10 ^ p * den ≤ num`, for positive `num` and `den`. -/
def floorLog10 (num den : Nat) : Int :=
  if den ≤ num then (digitCount (num / den) : Int) - 1
  else
    let d := digitCount (den / num)
    if den ≤ num * 10 ^ (d - 1) then -((d : Int) - 1) else -d

/-- The decimal on the grid of `10 ^ k` that is nearest to `num / den` among those that
read back as `x`, if a neighbour of the value on that grid does. -/
def onGrid? (tie : Tie) (x : Binary64) (num den : Nat) (k : Int) : Option Decimal :=
  let top := num * 10 ^ (-k).toNat
  let bottom := den * 10 ^ k.toNat
  let low := top / bottom
  let rest := top % bottom
  let readsBack (n : Nat) : Bool := (Decimal.mk false n k).toBinary64 == x
  match readsBack low, readsBack (low + 1) with
  | false, false => none
  | true, false => some ⟨false, low, k⟩
  | false, true => some ⟨false, low + 1, k⟩
  | true, true =>
    if 2 * rest < bottom then some ⟨false, low, k⟩
    else if bottom < 2 * rest then some ⟨false, low + 1, k⟩
    else match tie with
      | .toEven => some ⟨false, low + low % 2, k⟩
      | .upward => some ⟨false, low + 1, k⟩

/-- The shortest decimal that reads back as `m * 2 ^ e`, without zeros at its end. -/
def shortest (tie : Tie) (m : Nat) (e : Int) : Decimal :=
  if m = 0 then ⟨false, 0, 0⟩
  else
    let first := floorLog10 (num m e) (den e)
    let found := (List.range 17).findSome? fun (n : Nat) =>
      onGrid? tie (.finite false m e) (num m e) (den e) (first - (n : Int))
    (found.getD ⟨false, num m e * 5 ^ (-e).toNat, -(-e).toNat⟩).stripZeros 400

/-- The decisions of a text format for binary numbers. The first digit's exponent
decides between positional and scientific form. -/
structure Layout where
  plainFrom : Int
  plainBelow : Int
  pointZero : Bool
  tie : Tie
  nan : String
  infinite : String

namespace Layout

/-- The digits of a positional decimal without its sign. -/
def plain (l : Layout) (ds : List Char) (exponent : Int) : List Char :=
  let places := (-exponent).toNat
  if 0 ≤ exponent then
    ds ++ List.replicate exponent.toNat '0' ++ (if l.pointZero then ['.', '0'] else [])
  else if places < ds.length then
    ds.take (ds.length - places) ++ '.' :: ds.drop (ds.length - places)
  else '0' :: '.' :: List.replicate (places - ds.length) '0' ++ ds

/-- The digits of a decimal in scientific form without its sign. -/
def scientific (ds : List Char) (place : Int) : List Char :=
  let mark := 'e' :: (if place < 0 then '-' :: Nat.toDigits 10 place.natAbs else Nat.toDigits 10 place.toNat)
  match ds with
  | [] => mark
  | [d] => d :: mark
  | d :: more => d :: '.' :: more ++ mark

/-- The text of a number. -/
def render (l : Layout) : Binary64 → String
  | .nan => l.nan
  | .infinite s => (if s then "-" else "") ++ l.infinite
  | .finite s m e =>
    let d := shortest l.tie m e
    let ds := Nat.toDigits 10 d.digits
    let place : Int := ds.length + d.exponent - 1
    let body :=
      if l.plainFrom ≤ place && place < l.plainBelow then l.plain ds d.exponent
      else scientific ds place
    String.ofList (if s then '-' :: body else body)

/-- Messages never use an exponent and write whole numbers without a point. -/
def message : Layout := ⟨-400, 400, false, .upward, "NaN", "inf"⟩

/-- Lock files use an exponent below a hundred thousandth and from ten to the 16th
on, and always show that the number is a fraction. -/
def lockFile : Layout := ⟨-5, 16, true, .toEven, "null", "null"⟩

/-- Front matter uses the digits of lock files and names for the special values. -/
def frontMatter : Layout := ⟨-5, 16, true, .toEven, ".nan", ".inf"⟩

end Layout

end Binary64

end Workboard
