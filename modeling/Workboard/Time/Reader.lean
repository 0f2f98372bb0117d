import Workboard.Text.Blank
import Workboard.Time.Instant

/-!
# Reading instants

A lenient reader of date and time: fields may lack leading zeros, blanks may stand
before any field, hyphen or colon and around the zone, `t` or one blank may stand
for the `T`, and the zone is `Z`, `UTC` or an offset in hours and minutes. Digits
of a fraction after the ninth are skipped, and second 60 is a leap second. The
result is in Universal Time.
-/
namespace Workboard.Instant.Reader
open Workboard.Text

-- Powers are those of the core library, whatever else is in scope.
attribute [local instance (high)] instPowNat

/-- A step reads from the front and gives what is left. -/
abbrev Step (α : Type) := List Char → Option (α × List Char)

/-- At most `width` digits as a number, and how many there were; one at least. -/
def digits (width : Nat) (cs : List Char) : Option ((Nat × Nat) × List Char) :=
  let ds := (cs.take width).takeWhile Char.isDigit
  if ds.isEmpty then none
  else some ((ds.foldl (fun n d => 10 * n + (d.toNat - 48)) 0, ds.length), cs.drop ds.length)

/-- A field of one or two digits after any blanks. -/
def field : Step Nat := fun cs => (digits 2 (dropBlank cs)).map fun ((n, _), rest) => (n, rest)

/-- A character after any blanks. -/
def mark (c : Char) : Step Unit := fun cs =>
  match dropBlank cs with
  | d :: rest => if d = c then some ((), rest) else none
  | [] => none

/-- A year of one to four digits, or of any number of digits after a sign. -/
def year : Step Int := fun cs =>
  match dropBlank cs with
  | '-' :: rest => (digits rest.length rest).map fun ((n, _), r) => (-(n : Int), r)
  | '+' :: rest => (digits rest.length rest).map fun ((n, _), r) => ((n : Int), r)
  | cs => (digits 4 cs).map fun ((n, _), r) => ((n : Int), r)

/-- The nanoseconds after a point, if there is a point. -/
def fraction : Step Nat := fun cs =>
  match cs with
  | '.' :: rest =>
    (digits 9 rest).map fun ((n, places), r) => (n * 10 ^ (9 - places), r.dropWhile Char.isDigit)
  | _ => some (0, cs)

/-- Two digits, the first below the given bound. -/
def twoDigits (bound : Char) : Step Nat := fun cs =>
  match cs with
  | a :: b :: rest =>
    if a.isDigit && b.isDigit && a < bound then
      some ((a.toNat - 48) * 10 + (b.toNat - 48), rest)
    else none
  | _ => none

/-- Hours and minutes of an offset in seconds, after its sign. -/
def offsetAmount : Step Int := fun cs => do
  let (hours, cs) ← twoDigits ':' cs
  let (minutes, cs) ← twoDigits '6' (cs.dropWhile fun c => c = ':' || isBlank c)
  some (((hours * 3600 + minutes * 60 : Nat) : Int), cs)

/-- The zone, as the seconds that its clocks are ahead. -/
def zone : Step Int := fun cs =>
  match dropBlank cs with
  | [] => none
  | c :: rest =>
    if ((c :: rest).take 3).map Char.toUpper = ['U', 'T', 'C'] then some (0, rest.drop 2)
    else if c = 'Z' || c = 'z' then some (0, rest)
    else if c = '+' then offsetAmount rest
    else if c = '-' || c = '\u2212' then (offsetAmount rest).map fun (n, r) => (-n, r)
    else none

/-- The instant of a date, a time of day and the zone they are told in. -/
def assemble? (year : Int) (month day hour minute second nanos : Nat) (offset : Int) :
    Option Instant :=
  if 1 ≤ month && month ≤ 12 && 1 ≤ day && day ≤ daysInMonth year month &&
      hour < 24 && minute < 60 && second ≤ 60 && offset.natAbs < 86400 then
    let leap := second / 60
    let clock : Nat := hour * 3600 + minute * 60 + (second - leap)
    let shown : Instant := ⟨dayOfDate year month day * secondsPerDay + clock, nanos + leap * 1000000000⟩
    let meant : Instant := { shown with seconds := shown.seconds - offset }
    if shown.inRange && meant.inRange then some meant else none
  else none

/-- A whole date and time with its zone. -/
def dateTime : Step Instant := fun cs => do
  let (y, cs) ← year cs
  let (_, cs) ← mark '-' cs
  let (mo, cs) ← field cs
  let (_, cs) ← mark '-' cs
  let (d, cs) ← field cs
  let cs ← match cs with
    | c :: rest => if c = 'T' || c = 't' || c = ' ' then some rest else none
    | [] => none
  let (h, cs) ← field cs
  let (_, cs) ← mark ':' cs
  let (mi, cs) ← field cs
  let (_, cs) ← mark ':' cs
  let (s, cs) ← field cs
  let (n, cs) ← fraction cs
  let (offset, cs) ← zone cs
  let t ← assemble? y mo d h mi s n offset
  some (t, cs)

end Reader

/-- The instant that a text names, if the whole text names one. -/
def ofText? (s : String) : Option Instant :=
  match Reader.dateTime s.toList with
  | some (t, rest) => if (Text.dropBlank rest).isEmpty then some t else none
  | none => none

end Workboard.Instant
