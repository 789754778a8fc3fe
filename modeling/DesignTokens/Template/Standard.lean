import DesignTokens.Template.Platform

/-! A plain platform to run with: numbers and dates have a few attributes, which are numbers, and
dates are written as in the C locale. -/
namespace DesignTokens

namespace Date

def dayOfYear (d : Date) : Nat :=
  (List.range (d.month - 1)).foldl (fun days i => days + daysIn d.year (i + 1)) d.day

/-- The day of the week, from Monday on. -/
def weekday (d : Date) : Nat :=
  let years := d.year - 1
  (365 * years + years / 4 - years / 100 + years / 400 + d.dayOfYear - 1) % 7

end Date

namespace Moment

def dayNames : List String :=
  ["Monday", "Tuesday", "Wednesday", "Thursday", "Friday", "Saturday", "Sunday"]

def monthNames : List String :=
  ["January", "February", "March", "April", "May", "June", "July", "August", "September",
    "October", "November", "December"]

def directive? (m : Moment) (c : Char) : Option String :=
  let hour := m.time.hour
  let day := dayNames.getD m.date.weekday ""
  let month := monthNames.getD (m.date.month - 1) ""
  match c with
  | 'Y' => some (toString m.date.year)
  | 'y' => some (zeroFilled 2 (m.date.year % 100))
  | 'm' => some (zeroFilled 2 m.date.month)
  | 'd' => some (zeroFilled 2 m.date.day)
  | 'j' => some (zeroFilled 3 m.date.dayOfYear)
  | 'A' => some day
  | 'a' => some (String.ofList (day.toList.take 3))
  | 'B' => some month
  | 'b' => some (String.ofList (month.toList.take 3))
  | 'w' => some (toString ((m.date.weekday + 1) % 7))
  | 'H' => some (zeroFilled 2 hour)
  | 'I' => some (zeroFilled 2 ((hour + 11) % 12 + 1))
  | 'p' => some (if hour < 12 then "AM" else "PM")
  | 'M' => some (zeroFilled 2 m.time.minute)
  | 'S' => some (zeroFilled 2 m.time.second)
  | 'f' => some (zeroFilled 6 m.time.micro)
  | 'z' => some (match m.offset with
    | some minutes => String.ofList ((offsetText minutes).toList.filter (· != ':'))
    | none => "")
  | '%' => some "%"
  | _ => none

/-- A moment in a format. Letters that stand for nothing are kept. -/
def inFormat (m : Moment) : List Char → List Char
  | '%' :: c :: rest =>
    (match m.directive? c with
      | some s => s.toList
      | none => ['%', c]) ++ inFormat m rest
  | c :: rest => c :: inFormat m rest
  | [] => []

end Moment

def plainAttribute? : Value → String → Option Value
  | .int i, "real" => some (.int i)
  | .int i, "numerator" => some (.int i)
  | .int _, "imag" => some (.int 0)
  | .int _, "denominator" => some (.int 1)
  | .bool b, "real" => some (.int b.toInt)
  | .bool b, "numerator" => some (.int b.toInt)
  | .bool _, "imag" => some (.int 0)
  | .bool _, "denominator" => some (.int 1)
  | .float x, "real" => some (.float x)
  | .float _, "imag" => some (.float (.zero false))
  | .date d, "year" => some (.int d.year)
  | .date d, "month" => some (.int d.month)
  | .date d, "day" => some (.int d.day)
  | _, _ => none

/-- A platform without objects. -/
@[reducible] def Platform.standard : Platform where
  Object := Empty
  member
    | .inl v, name =>
      match plainAttribute? v name with
      | some found => .ok (.inl found)
      | none => .error .noSuchPart
  item := nofun
  text _ := nofun
  format := nofun
  dateText v format :=
    match v with
    | .date d => .ok (Moment.inFormat ⟨d, ⟨0, 0, 0, 0⟩, none⟩ format)
    | .time t => .ok (Moment.inFormat ⟨⟨1900, 1, 1⟩, t, none⟩ format)
    | .moment m => .ok (m.inFormat format)
    | v => .error (.kind (.noFormat v.kind))
  encodes _ := true

instance : Platform := .standard

end DesignTokens
