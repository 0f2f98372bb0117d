/-!
# Instants and durations

An instant is a count of seconds since the start of 1970 in Universal Time and a
count of nanoseconds within the second. A count of a whole second or more marks
a leap second: it stands for the second that follows 59. Instants are compared by
their parts. Differences and shifts count a leap second once, and a shift that
leaves the supported years has no result.
-/
namespace Workboard

/-- A signed length of time in nanoseconds. -/
structure Duration where
  nanos : Int
  deriving DecidableEq, Inhabited

namespace Duration

def zero : Duration := ⟨0⟩

def ofMillis (ms : Int) : Duration := ⟨ms * 1000000⟩

def ofHours (h : Int) : Duration := ofMillis (h * 3600000)

/-- Whole milliseconds, cut toward zero. -/
def millis (d : Duration) : Int := d.nanos.tdiv 1000000

/-- Whole seconds, cut toward zero. -/
def seconds (d : Duration) : Int := d.nanos.tdiv 1000000000

instance : LT Duration := ⟨fun a b => a.nanos < b.nanos⟩

instance : LE Duration := ⟨fun a b => a.nanos ≤ b.nanos⟩

theorem lt_def {a b : Duration} : a < b ↔ a.nanos < b.nanos := Iff.rfl

theorem le_def {a b : Duration} : a ≤ b ↔ a.nanos ≤ b.nanos := Iff.rfl

instance (a b : Duration) : Decidable (a < b) := inferInstanceAs (Decidable (a.nanos < b.nanos))

instance (a b : Duration) : Decidable (a ≤ b) := inferInstanceAs (Decidable (a.nanos ≤ b.nanos))

@[simp] theorem millis_ofMillis (ms : Int) : (ofMillis ms).millis = ms := by
  simp [millis, ofMillis]

end Duration

/-- A point in time. `nanos` is below two thousand million. -/
structure Instant where
  seconds : Int
  nanos : Nat
  deriving DecidableEq, Inhabited

namespace Instant

def secondsPerDay : Int := 86400

def nanosPerSecond : Int := 1000000000

/-- Days since the start of 1970. -/
def day (t : Instant) : Int := t.seconds / secondsPerDay

/-- Seconds since midnight. -/
def timeOfDay (t : Instant) : Int := t.seconds % secondsPerDay

def isLeap (t : Instant) : Bool := nanosPerSecond ≤ t.nanos

instance : LT Instant := ⟨fun a b => a.seconds < b.seconds ∨ a.seconds = b.seconds ∧ a.nanos < b.nanos⟩

instance : LE Instant := ⟨fun a b => a.seconds < b.seconds ∨ a.seconds = b.seconds ∧ a.nanos ≤ b.nanos⟩

theorem lt_def {a b : Instant} :
    a < b ↔ a.seconds < b.seconds ∨ a.seconds = b.seconds ∧ a.nanos < b.nanos := Iff.rfl

theorem le_def {a b : Instant} :
    a ≤ b ↔ a.seconds < b.seconds ∨ a.seconds = b.seconds ∧ a.nanos ≤ b.nanos := Iff.rfl

instance (a b : Instant) : Decidable (a < b) :=
  inferInstanceAs (Decidable (a.seconds < b.seconds ∨ a.seconds = b.seconds ∧ a.nanos < b.nanos))

instance (a b : Instant) : Decidable (a ≤ b) :=
  inferInstanceAs (Decidable (a.seconds < b.seconds ∨ a.seconds = b.seconds ∧ a.nanos ≤ b.nanos))

instance : Max Instant := ⟨fun a b => if a ≤ b then b else a⟩

theorem max_def (a b : Instant) : max a b = if a ≤ b then b else a := rfl

/-- One second if a leap second lies between the two times of day, with its sign. -/
def leapBetween (a b : Instant) : Int :=
  if b.timeOfDay < a.timeOfDay && b.isLeap then 1
  else if a.timeOfDay < b.timeOfDay && a.isLeap then -1
  else 0

/-- The length of time from `b` to `a`. -/
def since (a b : Instant) : Duration :=
  ⟨(a.seconds - b.seconds + leapBetween a b) * nanosPerSecond + ((a.nanos : Int) - b.nanos)⟩

/-- The proleptic Gregorian date of a day: year, month and day of the month.
Years begin in March here, so the leap day is the last of its year. -/
def dateOfDay (day : Int) : Int × Nat × Nat :=
  let z := day + 719468
  let era := z / 146097
  let doe := (z % 146097).toNat
  let yoe := (doe - doe / 1460 + doe / 36524 - doe / 146096) / 365
  let doy := doe - (365 * yoe + yoe / 4 - yoe / 100)
  let mp := (5 * doy + 2) / 153
  let month := if mp < 10 then mp + 3 else mp - 9
  let year := (yoe : Int) + era * 400 + (if month ≤ 2 then 1 else 0)
  (year, month, doy - (153 * mp + 2) / 5 + 1)

/-- The number of a day from its date. -/
def dayOfDate (year : Int) (month day : Nat) : Int :=
  let y := if month ≤ 2 then year - 1 else year
  let era := y / 400
  let yoe := (y % 400).toNat
  let mp := if 2 < month then month - 3 else month + 9
  let doy := (153 * mp + 2) / 5 + day - 1
  let doe := yoe * 365 + yoe / 4 - yoe / 100 + doy
  era * 146097 + (doe : Int) - 719468

def isLeapYear (year : Int) : Bool := year % 4 = 0 && (year % 100 ≠ 0 || year % 400 = 0)

def daysInMonth (year : Int) (month : Nat) : Nat :=
  if month = 2 then (if isLeapYear year then 29 else 28)
  else if month = 4 || month = 6 || month = 9 || month = 11 then 30
  else 31

/-- The first supported day, the first of the year -262143. -/
def firstDay : Int := dayOfDate (-262143) 1 1

/-- The last supported day, the last of the year 262142. -/
def lastDay : Int := dayOfDate 262142 12 31

/-- The day of the instant is one of the supported days. -/
def inRange (t : Instant) : Bool := firstDay ≤ t.day && t.day ≤ lastDay

/-- The instant `d` later. A leap second that the shift leaves becomes an ordinary
one first: it ends the second before it when time moves on, and begins the second
after it when time moves back. -/
def shift (t : Instant) (d : Duration) : Instant :=
  let secs := d.seconds
  let rest := d.nanos - secs * nanosPerSecond
  let forward := 0 < secs || (0 < rest && 2 * nanosPerSecond - rest ≤ t.nanos)
  if t.isLeap && !forward && 0 ≤ secs then
    ⟨t.seconds, (t.nanos + rest).toNat⟩
  else
    let start :=
      if t.isLeap then
        (if forward then t.seconds else t.seconds + 1) * nanosPerSecond + (t.nanos - nanosPerSecond)
      else t.seconds * nanosPerSecond + t.nanos
    let moved := start + d.nanos
    ⟨moved / nanosPerSecond, (moved % nanosPerSecond).toNat⟩

/-- The instant `d` later, unless it is outside the supported years. -/
def add? (t : Instant) (d : Duration) : Option Instant :=
  let moved := t.shift d
  if moved.inRange then some moved else none

end Instant

end Workboard
