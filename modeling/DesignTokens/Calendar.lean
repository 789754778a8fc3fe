/-! Calendar dates, times of day and moments, with the forms in which they are shown. -/
namespace DesignTokens

structure Date where
  year : Nat
  month : Nat
  day : Nat
  deriving DecidableEq, Inhabited

/-- A time of day, to the microsecond. -/
structure ClockTime where
  hour : Nat
  minute : Nat
  second : Nat
  micro : Nat
  deriving DecidableEq, Inhabited

/-- Why numbers name no day or no time of day. -/
inductive CalendarFault where
  | year (year : Nat)
  | month
  | day
  | hour
  | minute
  | second
  | offset (minutes : Int)
  deriving DecidableEq

/-- A span of time as a number of days and the seconds beyond them, which are never negative. -/
def spanText (minutes : Int) : String :=
  let days := minutes.fdiv 1440
  let seconds := minutes.fmod 1440 * 60
  if seconds = 0 then s!"datetime.timedelta(days={days})"
  else s!"datetime.timedelta(days={days}, seconds={seconds})"

def CalendarFault.message : CalendarFault → String
  | .year y => s!"year {y} is out of range"
  | .month => "month must be in 1..12"
  | .day => "day is out of range for month"
  | .hour => "hour must be in 0..23"
  | .minute => "minute must be in 0..59"
  | .second => "second must be in 0..59"
  | .offset minutes =>
    let bounds := "-timedelta(hours=24) and timedelta(hours=24)"
    s!"offset must be a timedelta strictly between {bounds}, not {spanText minutes}."

def zeroFilled (width n : Nat) : String :=
  let ds := Nat.toDigits 10 n
  String.ofList (List.replicate (width - ds.length) '0' ++ ds)

namespace Date

def isLeap (year : Nat) : Bool := (year % 4 == 0 && year % 100 != 0) || year % 400 == 0

def daysIn (year month : Nat) : Nat :=
  if month = 2 then (if isLeap year then 29 else 28)
  else if month = 4 ∨ month = 6 ∨ month = 9 ∨ month = 11 then 30 else 31

def of? (year month day : Nat) : Except CalendarFault Date :=
  if year < 1 ∨ 9999 < year then .error (.year year)
  else if month < 1 ∨ 12 < month then .error .month
  else if day < 1 ∨ daysIn year month < day then .error .day
  else .ok ⟨year, month, day⟩

def display (d : Date) : String :=
  s!"{zeroFilled 4 d.year}-{zeroFilled 2 d.month}-{zeroFilled 2 d.day}"

end Date

namespace ClockTime

def of? (hour minute second micro : Nat) : Except CalendarFault ClockTime :=
  if 23 < hour then .error .hour
  else if 59 < minute then .error .minute
  else if 59 < second then .error .second
  else .ok ⟨hour, minute, second, micro⟩

/-- Hours, minutes and seconds between colons, and the microseconds if there are any. -/
def display (t : ClockTime) : String :=
  let base := s!"{zeroFilled 2 t.hour}:{zeroFilled 2 t.minute}:{zeroFilled 2 t.second}"
  if t.micro = 0 then base else s!"{base}.{zeroFilled 6 t.micro}"

/-- The numbers of a time, separated by commas; zero seconds and microseconds at the end fall
away. -/
def arguments (t : ClockTime) : String :=
  let base := s!"{t.hour}, {t.minute}"
  if t.micro ≠ 0 then s!"{base}, {t.second}, {t.micro}"
  else if t.second ≠ 0 then s!"{base}, {t.second}"
  else base

end ClockTime

/-- A distance from universal time in minutes, with its sign. -/
def offsetText (minutes : Int) : String :=
  let n := minutes.natAbs
  let sign := if minutes < 0 then "-" else "+"
  s!"{sign}{zeroFilled 2 (n / 60)}:{zeroFilled 2 (n % 60)}"

structure Moment where
  date : Date
  time : ClockTime
  offset : Option Int
  deriving DecidableEq, Inhabited

namespace Moment

/-- Day, separator, time and the distance from universal time. -/
def displayWith (separator : String) (m : Moment) : String :=
  let tail := match m.offset with
    | some minutes => offsetText minutes
    | none => ""
  s!"{m.date.display}{separator}{m.time.display}{tail}"

def display (m : Moment) : String := displayWith " " m

end Moment

end DesignTokens
