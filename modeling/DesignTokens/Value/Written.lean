import DesignTokens.Number.Reading
import DesignTokens.Number.Written
import DesignTokens.Text.Quoted
import DesignTokens.Value

/-! The texts of values: the quoted form that tells a value's kind, the plain form for output, and
the form in which a deferred value describes its parts. -/
namespace DesignTokens

/-- The forms of a value's text. In the described form references and deferred values are plain and
all else is quoted. -/
inductive TextForm where
  | quoted
  | plain
  | described
  deriving DecidableEq

def Moment.quoted (m : Moment) : String :=
  let zone := match m.offset with
    | none => ""
    | some 0 => ", tzinfo=datetime.timezone.utc"
    | some minutes =>
      let days := Int.fdiv minutes 1440
      let seconds := Int.fmod minutes 1440 * 60
      let span := if days = 0 then s!"seconds={seconds}"
        else if seconds = 0 then s!"days={days}" else s!"days={days}, seconds={seconds}"
      s!", tzinfo=datetime.timezone(datetime.timedelta({span}))"
  s!"datetime.datetime({m.date.year}, {m.date.month}, {m.date.day}, {m.time.arguments}{zone})"

namespace Value

def bracketed (opening closing : String) (items : List String) : String :=
  opening ++ ", ".intercalate items ++ closing

mutual

/-- The text of a value in a form. What stands inside a list, tuple or mapping is quoted. -/
def textIn (form : TextForm) : Value → String
  | null => "None"
  | bool b => if b then "True" else "False"
  | int i => toString i
  | float x => x.written
  | text s => if form = .plain then s else Text.quoted s
  | date d =>
    if form = .plain then d.display else s!"datetime.date({d.year}, {d.month}, {d.day})"
  | time t => if form = .plain then t.display else s!"datetime.time({t.arguments})"
  | moment m => if form = .plain then m.display else m.quoted
  | list xs => bracketed "[" "]" (textsIn .quoted xs)
  | tuple xs =>
    match textsIn .quoted xs with
    | [only] => "(" ++ only ++ ",)"
    | texts => bracketed "(" ")" texts
  | map es => bracketed "\x7b" "\x7d" (entryTexts es)
  | ref p => if form = .quoted then s!"ReferenceValue(path={Text.quoted p})" else s!"get({p})"
  | deferred d =>
    let description := deferredText d
    if form = .quoted then s!"DeferredValue(fn=<function>, description={Text.quoted description})"
    else if description = "" then "<deferred>" else description
  | function name _ => s!"<function {name}>"
  | literal v =>
    if form = .plain then "value=" ++ textIn .quoted v
    else "LiteralValue(value=" ++ textIn .quoted v ++ ")"
  | group cs =>
    let children := "children=" ++ bracketed "\x7b" "\x7d" (entryTexts cs)
    if form = .plain then children else "NestedValue(" ++ children ++ ")"

def textsIn (form : TextForm) : List Value → List String
  | [] => []
  | v :: vs => textIn form v :: textsIn form vs

def entryTexts : List (Value × Value) → List String
  | [] => []
  | (k, v) :: rest => (textIn .quoted k ++ ": " ++ textIn .quoted v) :: entryTexts rest

def deferredText : Deferred → String
  | .alpha color amount =>
    "alpha(" ++ textIn .described color ++ ", " ++ textIn .plain amount ++ ")"
  | .lighten color amount =>
    "lighten(" ++ textIn .described color ++ ", " ++ textIn .plain amount ++ ")"
  | .darken color amount =>
    "darken(" ++ textIn .described color ++ ", " ++ textIn .plain amount ++ ")"
  | .format template parts =>
    bracketed ("fmt(" ++ Text.quoted template ++ ", ") ")" (textsIn .described parts)
  | .described description _ _ => description

end

mutual

/-- Whether a value has a text: every integer in it can be written. -/
def hasText : Value → Bool
  | int i => Number.isWritable i
  | list xs => haveText xs
  | tuple xs => haveText xs
  | map es => entriesHaveText es
  | literal v => hasText v
  | group cs => entriesHaveText cs
  | _ => true

def haveText : List Value → Bool
  | [] => true
  | v :: vs => hasText v && haveText vs

def entriesHaveText : List (Value × Value) → Bool
  | [] => true
  | (k, v) :: rest => hasText k && hasText v && entriesHaveText rest

end

def quoted (v : Value) : String := textIn .quoted v

def plain (v : Value) : String := textIn .plain v

end Value

/-- The text of a deferred value in messages: its description, if it has one. -/
def Deferred.plain (d : Deferred) : String := (Value.deferred d).plain

end DesignTokens
