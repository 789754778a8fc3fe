import DesignTokens.Json.Writer
import DesignTokens.ModeSet

/-! Replacement ledgers. A ledger tells for names, written without their prefix, what replaces them:
nothing, a name or several names. Deprecated names have to be defined still, removed ones must not
be, and every replacement has to be a defined name that is not itself in the ledger. -/
namespace DesignTokens

/-- What a ledger says about its names. -/
inductive LedgerKind where
  | deprecated
  | removed
  deriving DecidableEq

namespace LedgerKind

def name : LedgerKind → String
  | deprecated => "deprecated"
  | removed => "removed"

def ofName (s : String) : Except Failure LedgerKind :=
  if s = "deprecated" then .ok deprecated
  else if s = "removed" then .ok removed
  else .error (.value (.unknownName s "LedgerKind"))

end LedgerKind

inductive IssueKind where
  | staleDeprecation
  | invalidRemoval
  | invalidTarget
  | undefinedTarget
  | chainedTarget
  deriving DecidableEq

namespace IssueKind

def name : IssueKind → String
  | staleDeprecation => "stale_deprecation"
  | invalidRemoval => "invalid_removal"
  | invalidTarget => "invalid_replacement_target"
  | undefinedTarget => "undefined_replacement"
  | chainedTarget => "chained_replacement"

def all : List IssueKind :=
  [staleDeprecation, invalidRemoval, invalidTarget, undefinedTarget, chainedTarget]

def ofName (s : String) : Except Failure IssueKind :=
  match all.find? (·.name == s) with
  | some k => .ok k
  | none => .error (.value (.unknownName s "IssueKind"))

end IssueKind

structure Issue where
  kind : IssueKind
  subject : String
  replacement : Value
  source : String

namespace Issue

/-- The text of an issue about a target that is given as text. -/
def messageWith (i : Issue) (target : String) : String :=
  match i.kind with
  | .staleDeprecation => s!"Cannot deprecate undefined variable \"{i.subject}\" in {i.source}"
  | .invalidRemoval =>
    s!"Variable \"{i.subject}\" is marked as removed in {i.source} but is still defined"
  | .invalidTarget =>
    s!"Cannot replace \"{i.subject}\" with invalid variable {target} in {i.source}"
  | .undefinedTarget =>
    s!"Cannot replace \"{i.subject}\" with undefined variable {target} in {i.source}"
  | .chainedTarget =>
    s!"Cannot replace \"{i.subject}\" with deprecated variable {target} in {i.source}"

/-- The text of an issue; a replacement that cannot be written has none. -/
def message (i : Issue) : Except Failure String :=
  (Json.compact i.replacement).map i.messageWith

end Issue

abbrev Ledger := List (String × Value)

namespace Ledger

/-- The entries of a mapping, under the texts of their keys. -/
def ofEntries (es : List (Value × Value)) : Ledger := es.map fun (k, v) => (k.plain, v)

def toValue (l : Ledger) : Value := .map (l.map fun (k, v) => (.text k, v))

def has (l : Ledger) (name : String) : Bool := l.any (·.1 == name)

/-- Reads a ledger. An integer of too many digits is no error of the ledger. -/
def read (text source : String) : Except Failure Ledger :=
  match Json.read text with
  | .error (.invalid fault) => .error (.of (.ledger (.invalidJson source fault)))
  | .error (.overlong digits) => .error (.value (.overlongInteger digits))
  | .ok (.map es) => .ok (ofEntries es)
  | .ok v => .error (.of (.ledger (.notAnObject source v.kind)))

def targets : Value → List Value
  | .null => []
  | .list xs => xs
  | .tuple xs => xs
  | v => [v]

/-- Whether any mode defines a name that is written without its prefix. -/
def isDefined (m : ModeSet) (dotted : String) : Bool :=
  m.defines (nameOfDotted m.typePrefix dotted)

def subjectIssues (m : ModeSet) (kind : LedgerKind) (source subject : String) : List Issue :=
  match kind, isDefined m subject with
  | .deprecated, false => [⟨.staleDeprecation, subject, .null, source⟩]
  | .removed, true => [⟨.invalidRemoval, subject, .null, source⟩]
  | _, _ => []

def targetIssues (l : Ledger) (m : ModeSet) (source subject : String) : Value → List Issue
  | .text t =>
    (if isDefined m t then [] else [⟨.undefinedTarget, subject, .text t, source⟩]) ++
      if l.has t then [⟨.chainedTarget, subject, .text t, source⟩] else []
  | v => [⟨.invalidTarget, subject, v, source⟩]

def issues (l : Ledger) (m : ModeSet) (kind : LedgerKind) (source : String) : List Issue :=
  l.flatMap fun (subject, replacement) =>
    subjectIssues m kind source subject ++
      (targets replacement).flatMap (targetIssues l m source subject)

/-- Validates a ledger against a type, which is finalized by it. -/
def validate (l : Ledger) (m : ModeSet) (kind : LedgerKind) (source : String) :
    ModeSet × List Issue :=
  let m := m.finalize
  (m, l.issues m kind source)

end Ledger

end DesignTokens
