/-!
# Binary numbers of 64 bits

The numbers of the common 64 bit format, held as what they stand for: a sign, a
whole number below two to the 53rd and a power of two, or one of the special
values. Every operation forms the exact result as a fraction of whole numbers and
rounds it once, to the nearest number and at a tie to the even one.
-/
namespace Workboard

-- Powers are those of the core library, whatever else is in scope.
attribute [local instance (high)] instPowNat

inductive Binary64 where
  | nan
  | infinite (negative : Bool)
  | finite (negative : Bool) (mantissa : Nat) (exponent : Int)
  deriving DecidableEq, Inhabited

/-- The whole number nearest to `num / den`; halfway the even one. -/
def roundHalfEven (num den : Nat) : Nat :=
  let q := num / den
  let r := num % den
  if 2 * r < den then q else if den < 2 * r then q + 1 else q + q % 2

/-- The whole number nearest to `num / den`; halfway the larger one. -/
def roundHalfUp (num den : Nat) : Nat := (2 * num + den) / (2 * den)

/-- The largest `e` with `2 ^ e * den ≤ num`, for positive `num` and `den`. -/
def floorLog2 (num den : Nat) : Int :=
  let e : Int := (num.log2 : Int) - den.log2
  if num * 2 ^ (-e).toNat < den * 2 ^ e.toNat then e - 1 else e

namespace Binary64

def zero (negative : Bool) : Binary64 := .finite negative 0 (-1074)

/-- The least exponent. -/
def minExponent : Int := -1074

/-- The greatest exponent. -/
def maxExponent : Int := 971

/-- The number nearest to `num / den` with a sign, for a positive `den`. -/
def ofFraction (negative : Bool) (num den : Nat) : Binary64 :=
  if num = 0 then zero negative
  else
    let e := max (floorLog2 num den - 52) minExponent
    let m := roundHalfEven (num * 2 ^ (-e).toNat) (den * 2 ^ e.toNat)
    let (m, e) := if m = 2 ^ (53 : Nat) then (2 ^ (52 : Nat), e + 1) else (m, e)
    if maxExponent < e then .infinite negative else .finite negative m e

def ofNat (n : Nat) : Binary64 := ofFraction false n 1

def isFinite : Binary64 → Bool
  | .finite .. => true
  | _ => false

def isZero : Binary64 → Bool
  | .finite _ 0 _ => true
  | _ => false

def neg : Binary64 → Binary64
  | .nan => .nan
  | .infinite s => .infinite !s
  | .finite s m e => .finite (!s) m e

/-- Numerator of `m * 2 ^ e`. -/
def num (m : Nat) (e : Int) : Nat := m * 2 ^ e.toNat

/-- Denominator of `m * 2 ^ e`. -/
def den (e : Int) : Nat := 2 ^ (-e).toNat

def mul : Binary64 → Binary64 → Binary64
  | .finite s m e, .finite t n f => ofFraction (s != t) (num (m * n) (e + f)) (den (e + f))
  | .infinite s, .infinite t => .infinite (s != t)
  | .infinite s, .finite t n _ => if n = 0 then .nan else .infinite (s != t)
  | .finite s m _, .infinite t => if m = 0 then .nan else .infinite (s != t)
  | _, _ => .nan

def div : Binary64 → Binary64 → Binary64
  | .finite s m e, .finite t n f =>
    if n = 0 then (if m = 0 then .nan else .infinite (s != t))
    else ofFraction (s != t) (num m (e - f)) (n * den (e - f))
  | .infinite s, .finite t _ _ => .infinite (s != t)
  | .finite s _ _, .infinite t => zero (s != t)
  | _, _ => .nan

instance : Mul Binary64 := ⟨mul⟩

instance : Div Binary64 := ⟨div⟩

instance : Neg Binary64 := ⟨neg⟩

/-- The signed numerator over the least power of two, to compare finite numbers. -/
def scaled (negative : Bool) (m : Nat) (e : Int) : Int :=
  let n : Int := m * 2 ^ (e - minExponent).toNat
  if negative then -n else n

/-- The order of numbers; not a number is neither below nor equal to anything. -/
def le : Binary64 → Binary64 → Bool
  | .finite s m e, .finite t n f => scaled s m e ≤ scaled t n f
  | .infinite s, .infinite t => s || !t
  | .infinite s, .finite .. => s
  | .finite .., .infinite t => !t
  | _, _ => false

/-- Equal as stored values: both zeros are equal, and not a number equals itself. -/
def same : Binary64 → Binary64 → Bool
  | .nan, .nan => true
  | a, b => le a b && le b a

/-- The nearest whole number, at a tie the one farther from zero. -/
def roundToInt : Binary64 → Int
  | .finite s m e =>
    let n : Int := roundHalfUp (num m e) (den e)
    if s then -n else n
  | _ => 0

end Binary64

end Workboard
