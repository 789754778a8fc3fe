import DesignTokens.Text.Blank

/-! Options of a command line. A long option has a name behind two hyphens and may carry its value
behind an equals sign; short options are single letters behind one hyphen and may stand together,
the last one with its value. -/
namespace DesignTokens.CommandLine

inductive Effect (σ : Type) where
  | flag (change : σ → σ)
  | value (change : String → σ → σ)

/-- The options that a command knows, by long name and by letter. -/
structure Vocabulary (σ : Type) where
  long : List (String × Effect σ)
  short : List (Char × Effect σ)

/-- What an argument comes to: new settings, or settings that want the next argument as a value. -/
inductive Step (σ : Type) where
  | settled (s : σ)
  | wanting (change : String → σ)

variable {σ : Type}

def longStep? (v : Vocabulary σ) (name : String) (given : Option String) (s : σ) :
    Option (Step σ) :=
  match v.long.lookup name, given with
  | some (.value change), some text => some (.settled (change text s))
  | some (.value change), none => some (.wanting fun text => change text s)
  | some (.flag change), none => some (.settled (change s))
  | some (.flag _), some _ => none
  | none, _ => none

/-- A row of short options. What stands behind the letter of an option with a value is the value. -/
def shortStep? (v : Vocabulary σ) : List Char → σ → Option (Step σ)
  | [], s => some (.settled s)
  | c :: rest, s =>
    match v.short.lookup c with
    | some (.flag change) => shortStep? v rest (change s)
    | some (.value change) =>
      if rest.isEmpty then some (.wanting fun text => change text s)
      else some (.settled (change (String.ofList rest) s))
    | none => none

def optionStep? (v : Vocabulary σ) (argument : List Char) (s : σ) : Option (Step σ) :=
  match argument with
  | '-' :: '-' :: body =>
    match Text.cutAt? '=' body with
    | some (name, text) => longStep? v (String.ofList name) (some (String.ofList text)) s
    | none => longStep? v (String.ofList body) none s
  | _ :: letters => shortStep? v letters s
  | [] => none

def isOption (argument : List Char) : Bool := argument.head? == some '-' && argument.length > 1

/-- Reads options into settings and returns the arguments that are none. Two hyphens end the
options; `mixed` lets options follow other arguments. -/
def readOptions (v : Vocabulary σ) (mixed : Bool) : List String → σ → Option (σ × List String)
  | [], s => some (s, [])
  | argument :: rest, s =>
    if argument = "--" then some (s, rest)
    else if isOption argument.toList then
      match optionStep? v argument.toList s with
      | none => none
      | some (.settled s) => readOptions v mixed rest s
      | some (.wanting change) =>
        match rest with
        | [] => none
        | text :: rest => readOptions v mixed rest (change text)
    else if mixed then
      (readOptions v mixed rest s).map fun (s, others) => (s, argument :: others)
    else some (s, argument :: rest)

end DesignTokens.CommandLine
