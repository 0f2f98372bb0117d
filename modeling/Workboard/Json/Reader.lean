import Workboard.Json.Value
import Workboard.Text.Bytes

/-!
# Reading JSON

The usual grammar without extensions. A string may hold any escape of four
hexadecimal digits; only a complete surrogate pair stands for a character, and a
string with a lone half has no text.
-/
namespace Workboard.Json.Reader

/-- The four blank characters between tokens. -/
def isSpace (c : Char) : Bool := c = ' ' || c = '\n' || c = '\t' || c = '\r'

def skipSpace (cs : List Char) : List Char := cs.dropWhile isSpace

def hexDigit? (c : Char) : Option Nat :=
  if c.isDigit then some (c.toNat - 48)
  else if 'a' ≤ c && c ≤ 'f' then some (c.toNat - 87)
  else if 'A' ≤ c && c ≤ 'F' then some (c.toNat - 55)
  else none

/-- Four hexadecimal digits as a number. -/
def hex4? : List Char → Option (Nat × List Char)
  | a :: b :: c :: d :: rest => do
    let a ← hexDigit? a
    let b ← hexDigit? b
    let c ← hexDigit? c
    let d ← hexDigit? d
    some (((a * 16 + b) * 16 + c) * 16 + d, rest)
  | _ => none

/-- The character of an escape of one letter. -/
def escape? : Char → Option Char
  | '"' => some '"'
  | '\\' => some '\\'
  | '/' => some '/'
  | 'b' => some '\x08'
  | 'f' => some '\x0c'
  | 'n' => some '\n'
  | 'r' => some '\r'
  | 't' => some '\t'
  | _ => none

/-- The code units of a string up to its closing quote; escapes of four digits are one
unit, other characters one unit each. -/
def units : Nat → List Char → List Nat → Option (List Nat × List Char)
  | 0, _, _ => none
  | fuel + 1, cs, acc =>
    match cs with
    | '"' :: rest => some (acc.reverse, rest)
    | '\\' :: 'u' :: rest =>
      match hex4? rest with
      | some (n, rest) => units fuel rest (n :: acc)
      | none => none
    | '\\' :: c :: rest =>
      match escape? c with
      | some e => units fuel rest (e.toNat :: acc)
      | none => none
    | c :: rest => if c.toNat < 0x20 || c = '\\' then none else units fuel rest (c.toNat :: acc)
    | [] => none

/-- The characters of code units, if every half of a surrogate pair has its other half. -/
def joinUnits? : List Nat → Option (List Char)
  | [] => some []
  | n :: ns =>
    if 0xD800 ≤ n && n < 0xDC00 then
      match ns with
      | l :: ns =>
        if 0xDC00 ≤ l && l < 0xE000 then
          (joinUnits? ns).map (Char.ofNat (0x10000 + (n - 0xD800) * 0x400 + (l - 0xDC00)) :: ·)
        else none
      | [] => none
    else if 0xDC00 ≤ n && n < 0xE000 then none
    else (joinUnits? ns).map (Char.ofNat n :: ·)

/-- A string after its opening quote. -/
def string (cs : List Char) : Option (Option String × List Char) :=
  (units (cs.length + 1) cs []).map fun (us, rest) => ((joinUnits? us).map String.ofList, rest)

/-- An exponent after its letter. -/
def exponent? (cs : List Char) : Option (Int × List Char) :=
  let (negative, cs) := match cs with
    | '+' :: rest => (false, rest)
    | '-' :: rest => (true, rest)
    | _ => (false, cs)
  let ds := cs.takeWhile Char.isDigit
  if ds.isEmpty then none
  else some ((if negative then -(natOfDigits ds : Int) else natOfDigits ds), cs.drop ds.length)

/-- A number after its sign. -/
def number (negative : Bool) (cs : List Char) : Option (JsonNumber × List Char) := do
  let whole := cs.takeWhile Char.isDigit
  if whole.isEmpty || (1 < whole.length && whole.head? = some '0') then none
  else
    let cs := cs.drop whole.length
    let (fraction, cs) ← match cs with
      | '.' :: rest =>
        let ds := rest.takeWhile Char.isDigit
        if ds.isEmpty then none else some (ds, rest.drop ds.length)
      | _ => some ([], cs)
    let (exponent, cs) ← match cs with
      | 'e' :: rest => (exponent? rest).map fun (e, r) => (some e, r)
      | 'E' :: rest => (exponent? rest).map fun (e, r) => (some e, r)
      | _ => some (none, cs)
    some (⟨negative, whole, fraction, exponent⟩, cs)

mutual

/-- One value after any space. -/
def value : Nat → List Char → Option (Json × List Char)
  | 0, _ => none
  | fuel + 1, cs =>
    match skipSpace cs with
    | 'n' :: 'u' :: 'l' :: 'l' :: rest => some (.null, rest)
    | 't' :: 'r' :: 'u' :: 'e' :: rest => some (.bool true, rest)
    | 'f' :: 'a' :: 'l' :: 's' :: 'e' :: rest => some (.bool false, rest)
    | '"' :: rest => (string rest).map fun (s, r) => (.string s, r)
    | '[' :: rest =>
      match skipSpace rest with
      | ']' :: rest => some (.array [], rest)
      | rest => items fuel rest []
    | '{' :: rest =>
      match skipSpace rest with
      | '}' :: rest => some (.object [], rest)
      | rest => members fuel rest []
    | '-' :: rest => (number true rest).map fun (n, r) => (.number n, r)
    | rest => (number false rest).map fun (n, r) => (.number n, r)

/-- The items of an array up to its end. -/
def items : Nat → List Char → List Json → Option (Json × List Char)
  | 0, _, _ => none
  | fuel + 1, cs, acc =>
    match value fuel cs with
    | none => none
    | some (v, rest) =>
      match skipSpace rest with
      | ',' :: rest => items fuel rest (v :: acc)
      | ']' :: rest => some (.array (v :: acc).reverse, rest)
      | _ => none

/-- The members of an object up to its end. -/
def members : Nat → List Char → List (Option String × Json) → Option (Json × List Char)
  | 0, _, _ => none
  | fuel + 1, cs, acc =>
    match skipSpace cs with
    | '"' :: rest =>
      match string rest with
      | none => none
      | some (name, rest) =>
        match skipSpace rest with
        | ':' :: rest =>
          match value fuel rest with
          | none => none
          | some (v, rest) =>
            match skipSpace rest with
            | ',' :: rest => members fuel rest ((name, v) :: acc)
            | '}' :: rest => some (.object ((name, v) :: acc).reverse, rest)
            | _ => none
        | _ => none
    | _ => none

end

end Reader

/-- The value that a whole text stands for. -/
def ofText? (s : String) : Option Json :=
  let cs := Text.chars s
  match Reader.value (cs.length + 1) cs with
  | some (v, rest) => if (Reader.skipSpace rest).isEmpty then some v else none
  | none => none

end Workboard.Json
