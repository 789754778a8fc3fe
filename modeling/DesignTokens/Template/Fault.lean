import DesignTokens.Text.Quoted

/-! What can be wrong with a template or with a format inside it. -/
namespace DesignTokens

inductive Formatted where
  | text
  | integer
  deriving DecidableEq

/-- What is wrong with a template or with a format inside it. -/
inductive TemplateFault where
  | singleOpening
  | singleClosing
  | openingInName
  | conversionMissing
  | colonMissing
  | formatOpen
  | closingMissing
  | nestedTooDeep
  | manualThenAutomatic
  | automaticThenManual
  | tooManyDigits
  | emptyAttribute
  | bracketOpen
  | strayAfterBracket
  | unknownConversion (c : Char)
  | precisionMissing
  | precisionTooBig
  | invalidFormat (format kind : String)
  | bothSeparators
  | separatorWith (separator code : Char)
  | unknownCode (code : Char) (kind : String)
  | signInText
  | spaceInText
  | zeroCoercion (what : Formatted)
  | alternateInText
  | equalsInText
  | precisionInInteger
  | signWithCharacter
  | alternateWithCharacter
  deriving DecidableEq

namespace TemplateFault

/-- A code as it is shown in messages: itself up to `limit`, else its number. -/
def shownCode (limit : Nat) (c : Char) : String :=
  if 32 < c.toNat ∧ c.toNat < limit then c.toString
  else "\\x" ++ String.ofList (Nat.toDigits 16 c.toNat)

def message : TemplateFault → String
  | singleOpening => "Single '\x7b' encountered in format string"
  | singleClosing => "Single '\x7d' encountered in format string"
  | openingInName => "unexpected '\x7b' in field name"
  | conversionMissing => "end of string while looking for conversion specifier"
  | colonMissing => "expected ':' after conversion specifier"
  | formatOpen => "unmatched '\x7b' in format spec"
  | closingMissing => "expected '\x7d' before end of string"
  | nestedTooDeep => "Max string recursion exceeded"
  | manualThenAutomatic =>
    "cannot switch from manual field specification to automatic field numbering"
  | automaticThenManual =>
    "cannot switch from automatic field numbering to manual field specification"
  | tooManyDigits => "Too many decimal digits in format string"
  | emptyAttribute => "Empty attribute in format string"
  | bracketOpen => "Missing ']' in format string"
  | strayAfterBracket => "Only '.' or '[' may follow ']' in format field specifier"
  | unknownConversion c => s!"Unknown conversion specifier {shownCode 127 c}"
  | precisionMissing => "Format specifier missing precision"
  | precisionTooBig => "precision too big"
  | invalidFormat format kind =>
    s!"Invalid format specifier '{format}' for object of type '{kind}'"
  | bothSeparators => "Cannot specify both ',' and '_'."
  | separatorWith separator code =>
    s!"Cannot specify '{separator.toString}' with '{shownCode 128 code}'."
  | unknownCode code kind =>
    s!"Unknown format code '{shownCode 128 code}' for object of type '{kind}'"
  | signInText => "Sign not allowed in string format specifier"
  | spaceInText => "Space not allowed in string format specifier"
  | zeroCoercion .text => "Negative zero coercion (z) not allowed in string format specifier"
  | zeroCoercion .integer => "Negative zero coercion (z) not allowed in integer format specifier"
  | alternateInText => "Alternate form (#) not allowed in string format specifier"
  | equalsInText => "'=' alignment not allowed in string format specifier"
  | precisionInInteger => "Precision not allowed in integer format specifier"
  | signWithCharacter => "Sign not allowed with integer format specifier 'c'"
  | alternateWithCharacter => "Alternate form (#) not allowed with integer format specifier 'c'"

end TemplateFault

end DesignTokens
