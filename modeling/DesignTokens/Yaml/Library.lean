import DesignTokens.Value.Amount

/-! What a YAML library does for token files. Reading a text ends in a value, in the complaint that
the text is no YAML, or in a fault of the library's own. On its way it calls: each tag that writes a
reference or a deferred value is answered here, from the values of its parts, and the library goes on
with the answer. What is no token value, such as bytes, a set, a text with half of a surrogate pair
or a collection that holds itself, is handed over as a token value in its place; only the path of a
reference is told to be no text, since it is refused for that. Which library it is, how deep it lets
a text nest and what it puts in such places is left open. -/
namespace DesignTokens.Yaml

/-- Why a text has no value: it is no YAML, or building a value failed. -/
inductive Stop where
  | malformed
  | fault (f : Fault)

inductive ColorTag where
  | alpha
  | lighten
  | darken
  deriving DecidableEq

def ColorTag.make : ColorTag → Value → Value → Deferred
  | alpha => .alpha
  | lighten => .lighten
  | darken => .darken

/-- A tag with the values of its parts. The path of a reference is missing if it is no text of
Unicode characters. -/
inductive Call where
  | reference (path : Option String)
  | color (tag : ColorTag) (parts : List Value)
  | format (parts : List Value)

namespace Call

/-- A deferred value, which is described by its parts at once. -/
def described (parts : List Value) (d : Deferred) : Except Stop Value :=
  if Value.haveText parts then .ok (.deferred d)
  else .error (.fault (.value .unwritableInteger))

def stopOf : Failure → Stop
  | .fault f => .fault f
  | .token _ => .malformed

/-- What a tag writes. Other numbers of parts than a tag expects are malformed. -/
def answer : Call → Except Stop Value
  | reference none => .error (.fault .emptyReference)
  | reference (some path) =>
    if path = "" then .error (.fault .emptyReference) else .ok (.ref path)
  | color tag [base, amount] =>
    match amount.amount with
    | .ok x => described [base] (tag.make base (.float x))
    | .error failure => .error (stopOf failure)
  | color _ _ => .error .malformed
  | format (.text template :: rest) => described rest (.format template rest)
  | format _ => .error .malformed

end Call

/-- The reading of a text, as far as the library goes by itself. -/
inductive Reading (α : Type) where
  | done (a : α)
  | stopped (stop : Stop)
  | call (c : Call) (resume : Value → Reading α)

namespace Reading

/-- The outcome of a reading whose calls are answered; one that is not ends it. -/
def run {α : Type} : Reading α → Except Stop α
  | done a => .ok a
  | stopped stop => .error stop
  | call c resume =>
    match c.answer with
    | .ok v => (resume v).run
    | .error stop => .error stop

end Reading

/-- A YAML library: how it reads a text without tags of its own, and one with tags that call. -/
class Library where
  plain : String → Except Stop Value
  tagged : String → Reading Value

/-- The value of a text, which may hold expressions. -/
def read [Library] (expressions : Bool) (text : String) : Except Stop Value :=
  if expressions then (Library.tagged text).run else Library.plain text

end DesignTokens.Yaml
