import Workboard.Text.Cut
import Workboard.Time.Instant

/-!
# Instants as text

Date and time with a `T` between them and a zone at the end, and the form with
blanks that error texts use. A fraction has three, six or nine places, the fewest
that lose nothing. Years of four digits stand alone, others carry a sign.
-/
namespace Workboard.Instant
open Workboard.Text

/-- Year, month and day, with hyphens. -/
def dateText (t : Instant) : String :=
  let (year, month, day) := dateOfDay t.day
  let yearText :=
    if 0 ≤ year && year ≤ 9999 then padDigits 4 year.toNat
    else (if year < 0 then '-' else '+') :: padDigits 4 year.natAbs
  String.ofList (yearText ++ '-' :: padDigits 2 month ++ '-' :: padDigits 2 day)

/-- The places of a second after its point, if there are any. -/
def fractionText (nanos : Nat) : List Char :=
  if nanos = 0 then []
  else if nanos % 1000000 = 0 then '.' :: padDigits 3 (nanos / 1000000)
  else if nanos % 1000 = 0 then '.' :: padDigits 6 (nanos / 1000)
  else '.' :: padDigits 9 nanos

/-- Hours, minutes and seconds, with colons; a leap second is second 60. -/
def timeText (t : Instant) : String :=
  let s := t.timeOfDay.toNat
  let leap := if t.isLeap then 1 else 0
  String.ofList (padDigits 2 (s / 3600) ++ ':' :: padDigits 2 (s / 60 % 60) ++
    ':' :: padDigits 2 (s % 60 + leap) ++ fractionText (t.nanos - leap * 1000000000))

/-- The form of records and lock files, with `Z` for the zone. -/
def toZuluText (t : Instant) : String := t.dateText ++ "T" ++ t.timeText ++ "Z"

/-- The form of listings, with the zone as an offset. -/
def toOffsetText (t : Instant) : String := t.dateText ++ "T" ++ t.timeText ++ "+00:00"

/-- The form of messages, with the name of the zone. -/
def toSpacedText (t : Instant) : String := t.dateText ++ " " ++ t.timeText ++ " UTC"

end Workboard.Instant
