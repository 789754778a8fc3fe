import DesignTokens.Rendering

/-! All modes of one type. Modes are interchangeable if they define the same names; validation
tells every name that a mode misses. -/
namespace DesignTokens

/-- The baseline that is configured for a type: none, a mode, or something that is no text and so
names no mode. -/
inductive Baseline where
  | unset
  | mode (name : String)
  | foreign (text : String)
  deriving DecidableEq

namespace Baseline

/-- The text of a baseline that asks for a mode. -/
def wanted? : Baseline → Option String
  | unset => none
  | mode "" => none
  | mode name => some name
  | foreign text => some text

def ofText : Option String → Baseline
  | none => unset
  | some name => mode name

end Baseline

structure ModeSet where
  type : String
  typePrefix : String
  configured : Baseline
  modes : List (String × VariableSet)
  finalized : Bool
  chosen : Option String

structure Validation where
  errors : List String
  warnings : List Warning

def Validation.isValid (v : Validation) : Bool := v.errors.isEmpty

namespace ModeSet

def empty (type typePrefix : String) (baseline : Baseline) : ModeSet :=
  ⟨type, typePrefix, baseline, [], false, none⟩

def names (m : ModeSet) : List String := m.modes.map (·.1)

def get? (m : ModeSet) (mode : String) : Option VariableSet := m.modes.lookup mode

def has (m : ModeSet) (mode : String) : Bool := m.names.contains mode

def size (m : ModeSet) : Nat := m.modes.length

/-- Adds a mode under a name, which has to be its own, and with the prefix of the type. -/
def add (m : ModeSet) (name : String) (s : VariableSet) : Except Failure ModeSet :=
  if m.finalized then .error (.of (.modesFinalized name m.type))
  else if m.has name then .error (.of (.duplicateMode name m.type))
  else if s.typePrefix ≠ m.typePrefix then
    .error (.of (.prefixMismatch name s.typePrefix m.type m.typePrefix))
  else if s.mode ≠ name then .error (.of (.modeMismatch s.mode name))
  else .ok { m with modes := m.modes ++ [(name, s)] }

def replace (m : ModeSet) (name : String) (s : VariableSet) : ModeSet :=
  { m with modes := m.modes.map fun (n, t) => if n = name then (n, s) else (n, t) }

/-- The baseline mode: the configured one if it is there, else the first one. -/
def baselineOf (m : ModeSet) : Option String :=
  match m.configured with
  | .mode name => if m.has name then some name else m.names.head?
  | _ => m.names.head?

/-- Closes the type and its modes and settles the baseline. -/
def finalize (m : ModeSet) : ModeSet :=
  if m.finalized then m else
  { m with
    modes := m.modes.map fun (name, s) => (name, s.finalize)
    chosen := m.baselineOf
    finalized := true }

def defines (m : ModeSet) (name : String) : Bool := m.modes.any fun (_, s) => s.contains name

def owners (m : ModeSet) (name : String) : List String :=
  (m.modes.filter fun (_, s) => s.contains name).map (·.1)

/-- All names that some mode defines, in the order in which they are first met. -/
def allNames (m : ModeSet) : List String :=
  (m.modes.flatMap fun (_, s) => s.names).foldl
    (fun seen name => if seen.contains name then seen else seen ++ [name]) []

def missingText (m : ModeSet) (mode name : String) : String :=
  let owners := ", ".intercalate (m.owners name)
  s!"Mode \"{mode}\" of type \"{m.type}\" is missing variable \"{name}\" (defined in: {owners})"

def baselineErrors (m : ModeSet) : List String :=
  match m.configured.wanted? with
  | none => []
  | some text =>
    if m.configured = .mode text ∧ m.has text then []
    else [s!"Baseline mode \"{text}\" of type \"{m.type}\" is not defined"]

/-- The errors about missing names, by mode and then by name. -/
def parityErrors (m : ModeSet) : List String :=
  m.modes.flatMap fun (mode, s) =>
    (m.allNames.filter fun name => !s.contains name).map (m.missingText mode)

/-- Whether all modes define the same names. The type is finalized by it. -/
def validate (m : ModeSet) : ModeSet × Validation :=
  let m := m.finalize
  (m, ⟨m.baselineErrors ++ m.parityErrors, if m.modes.isEmpty then [.noModes m.type] else []⟩)

/-- The variables of the baseline mode; a mode without a name is never taken. -/
def baselineSet? (m : ModeSet) : Option VariableSet :=
  match m.chosen with
  | none => none
  | some "" => none
  | some name => m.get? name

/-- The errors of rendering each mode once. A failure that is no error of the library ends it. -/
def renderErrors [Platform] (m : ModeSet) : Except Fault (List String) :=
  m.modes.foldlM (fun errors (mode, s) =>
    match s.renderTree with
    | .ok _ => .ok errors
    | .error (.token e) =>
      .ok (errors ++ [(e.located (some ⟨some m.type, some mode, none⟩)).text])
    | .error (.fault f) => .error f) []

def summary (m : ModeSet) : String :=
  let type := Text.quoted m.type
  let typePrefix := Text.quoted m.typePrefix
  let modes := Value.bracketed "[" "]" (m.names.map Text.quoted)
  s!"ModeCollection(type={type}, prefix={typePrefix}, modes={modes})"

end ModeSet

end DesignTokens
