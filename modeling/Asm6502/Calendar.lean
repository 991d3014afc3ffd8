/-
# Calendar time

Seconds since the start of 1970 are split into a day and the time of that
day, and the day into a date of the Gregorian calendar, extended to all years.
The date is found in eras of 400 years that start on the first of March, so
that the leap day is the last day of a year.

Key definitions: `Calendar.Civil`, `Calendar.civil`, `Calendar.format`,
`Calendar.Instant`.
-/

namespace Asm6502.Calendar

/-- A date and a time of day, in universal time. -/
structure Civil where
  year : Int
  /-- From 1 to 12. -/
  month : Nat
  /-- From 1 to 31. -/
  day : Nat
  /-- Days since the first of January. -/
  yearDay : Nat
  /-- Days since Sunday. -/
  weekDay : Nat
  hour : Nat
  minute : Nat
  second : Nat
deriving DecidableEq, Repr, Inhabited

/-- Days before the first of each month in a common year. -/
def daysBefore : List Nat := [0, 31, 59, 90, 120, 151, 181, 212, 243, 273, 304, 334]

/-- Whether a year has a leap day. -/
def isLeap (year : Int) : Bool := (year % 4 == 0 && year % 100 != 0) || year % 400 == 0

/-- The date and time of a number of seconds since the start of 1970. -/
def civil (seconds : Int) : Civil :=
  let days := seconds / 86400
  let time := (seconds % 86400).toNat
  let shifted := days + 719468
  let era := shifted / 146097
  let eraDay := (shifted % 146097).toNat
  let eraYear := (eraDay - eraDay / 1460 + eraDay / 36524 - eraDay / 146096) / 365
  let marchDay := eraDay - (365 * eraYear + eraYear / 4 - eraYear / 100)
  let marchMonth := (5 * marchDay + 2) / 153
  let day := marchDay - (153 * marchMonth + 2) / 5 + 1
  let month := if marchMonth < 10 then marchMonth + 3 else marchMonth - 9
  let year := (eraYear : Int) + era * 400 + (if month ≤ 2 then 1 else 0)
  { year, month, day
    yearDay := daysBefore.getD (month - 1) 0 + day - 1 + (if isLeap year && month > 2 then 1 else 0)
    weekDay := ((days + 4) % 7).toNat
    hour := time / 3600
    minute := time % 3600 / 60
    second := time % 60 }

/-- The days of the week from Sunday. -/
def weekDays : List String :=
  ["Sunday", "Monday", "Tuesday", "Wednesday", "Thursday", "Friday", "Saturday"]

/-- The months of the year. -/
def months : List String :=
  ["January", "February", "March", "April", "May", "June", "July", "August", "September",
   "October", "November", "December"]

/-- The first three letters of a name. -/
def short (name : String) : List Char := name.toList.take 3

/-- A number filled up on the left to a width. -/
def padded (fill : Char) (width n : Nat) : List Char :=
  let cs := Nat.toDigits 10 n
  List.replicate (width - cs.length) fill ++ cs

/-- A year in decimal, with a sign before the common era. -/
def yearText (year : Int) : List Char := (toString year).toList

/-- What a conversion stands for at a time. An unknown one stands for itself. -/
def conversion (t : Civil) (c : Char) : List Char :=
  match c with
  | 'a' => short (weekDays.getD t.weekDay "")
  | 'A' => (weekDays.getD t.weekDay "").toList
  | 'b' | 'h' => short (months.getD (t.month - 1) "")
  | 'B' => (months.getD (t.month - 1) "").toList
  | 'd' => padded '0' 2 t.day
  | 'e' => padded ' ' 2 t.day
  | 'H' => padded '0' 2 t.hour
  | 'I' => padded '0' 2 ((t.hour + 11) % 12 + 1)
  | 'j' => padded '0' 3 (t.yearDay + 1)
  | 'm' => padded '0' 2 t.month
  | 'M' => padded '0' 2 t.minute
  | 'p' => if t.hour < 12 then ['A', 'M'] else ['P', 'M']
  | 'S' => padded '0' 2 t.second
  | 'y' => padded '0' 2 (t.year % 100).toNat
  | 'Y' => yearText t.year
  | '%' => ['%']
  | other => ['%', other]

/-- A format with its conversions filled in. -/
def fill (t : Civil) : List Char → List Char
  | '%' :: c :: cs => conversion t c ++ fill t cs
  | c :: cs => c :: fill t cs
  | [] => []

/-- A number of seconds since the start of 1970, written in a format. -/
def format (seconds : Int) (pattern : String) : String :=
  String.ofList (fill (civil seconds) pattern.toList)

/-- The format of the time that a program sees without asking for one. -/
def defaultFormat : String := "%a,%d %b %Y.%H:%M:%S"

/-- A moment: seconds since the start of 1970 and a part of the next second. -/
structure Instant where
  seconds : Int
  nanoseconds : Nat
deriving DecidableEq, Repr, Inhabited

/-- The whole seconds between a moment and the start of 1970, negative before
it. A part of a second does not count. -/
def Instant.wholeSeconds (t : Instant) : Int :=
  if t.seconds < 0 && t.nanoseconds > 0 then t.seconds + 1 else t.seconds

end Asm6502.Calendar
