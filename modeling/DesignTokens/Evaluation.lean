import DesignTokens.Color.Lightness
import DesignTokens.Template
import DesignTokens.Theme

/-! Evaluating values under a theme. References are looked up and followed, deferred values are
computed and their results followed in turn; a chain may not be longer than a fixed depth. -/
namespace DesignTokens

def Announced.failure : Announced → Failure
  | value text => .value (.announced text)
  | type text => .kind (.announced text)
  | key text => .fault (.key text)
  | render text => .render (.announced text)

/-- Whether a fault of computing counts as a failure to evaluate: it is one of values or kinds, as
an empty reference and bytes that are no text are, or depth ran out. -/
def Fault.isReported : Fault → Bool
  | value _ => true
  | kind _ => true
  | emptyReference => true
  | undecodable => true
  | recursion => true
  | _ => false

namespace Deferred

/-- The colour text that a value evaluates to. Whatever else it evaluates to is quoted. -/
def colorText (evaluate : Value → Except Failure Value) (v : Value) : Except Failure String := do
  match ← evaluate v with
  | .text s => return s
  | found => do
    let _ ← found.quoted?
    throw (.render (.notAColor found))

/-- The result of a deferred value under a theme, one step of evaluation; `evaluate` evaluates its
parts. -/
def run [Platform] (evaluate : Value → Except Failure Value) (theme : Value) :
    Deferred → Except Failure Value
  | alpha color amount => do
    return .text (← Color.setAlpha (← colorText evaluate color) amount)
  | lighten color amount => do
    return .text (← Color.moveLightness (← colorText evaluate color) amount)
  | darken color amount => do
    let text ← colorText evaluate color
    return .text (← Color.moveLightness text (← amount.negated))
  | format template parts => do
    return .text (← Template.fill template (← parts.mapM evaluate))
  | described _ name action =>
    match action with
    | .give v => .ok v
    | .find path => lookup theme path
    | .again => .ok (.function name .again)
    | .fail failure => .error failure.failure

/-- The failure of a deferred value: some faults are reported as the failure to evaluate it, and all
else passes. -/
def blame (d : Deferred) : Failure → Failure
  | .fault .recursion => .render (.failed d "maximum recursion depth exceeded")
  | .fault fault => if fault.isReported then .render (.failed d fault.message) else .fault fault
  | failure => failure

end Deferred

def maxDepth : Nat := 64

/-- The value of a value under a theme. `depth` counts the links of the chain so far, and `fuel`
bounds how deep evaluations may nest. -/
def evaluateFrom [Platform] (theme : Value) (depth : Nat) (v : Value) :
    Nat → Except Failure Value
  | 0 => .error (.fault .recursion)
  | fuel + 1 =>
    if maxDepth < depth then .error (.render .tooDeep) else
    match Token.of v with
    | .literal v => .ok v
    | .reference path => do evaluateFrom theme (depth + 1) (← lookup theme path) fuel
    | .deferred d =>
      match d.run (fun part => evaluateFrom theme 0 part fuel) theme with
      | .ok result => evaluateFrom theme (depth + 1) result fuel
      | .error failure => .error (d.blame failure)
    | .group _ => .error (.render .group)

/-- How deep evaluations may nest: far beyond the longest chain, so that only a deferred value that
needs itself runs out. -/
def maxNesting : Nat := 1000

def evaluate [Platform] (theme v : Value) : Except Failure Value :=
  evaluateFrom theme 0 v maxNesting

end DesignTokens
