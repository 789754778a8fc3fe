import DesignTokens.Failure

/-! Results with the warnings that were noted on the way to them, also on the way to a failure. -/
namespace DesignTokens

/-- A result or a failure, and the warnings noted before it. -/
structure Noted (α : Type) where
  warnings : List Warning
  outcome : Except Failure α

namespace Noted

instance : Monad Noted where
  pure a := ⟨[], .ok a⟩
  bind x f :=
    match x.outcome with
    | .ok a =>
      let y := f a
      ⟨x.warnings ++ y.warnings, y.outcome⟩
    | .error failure => ⟨x.warnings, .error failure⟩

def fail {α : Type} (failure : Failure) : Noted α := ⟨[], .error failure⟩

def warn (w : Warning) : Noted Unit := ⟨[w], .ok ()⟩

def warnAll (ws : List Warning) : Noted Unit := ⟨ws, .ok ()⟩

def ofExcept {α : Type} (outcome : Except Failure α) : Noted α := ⟨[], outcome⟩

/-- A result of the values and files alone. -/
def ofFault {α : Type} : Except Fault α → Noted α
  | .ok a => pure a
  | .error f => fail (.fault f)

/-- The result, or an error of the library as a result. Faults pass. -/
def attempt {α : Type} (x : Noted α) : Noted (Except TokenError α) :=
  match x.outcome with
  | .ok a => ⟨x.warnings, .ok (.ok a)⟩
  | .error (.token e) => ⟨x.warnings, .ok (.error e)⟩
  | .error (.fault f) => ⟨x.warnings, .error (.fault f)⟩

end Noted

end DesignTokens
