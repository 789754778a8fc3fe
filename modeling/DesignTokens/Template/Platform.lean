import DesignTokens.Failure

/-! What lies behind a template and in front of a file. A slot may go on to any attribute of a value,
and an attribute may be an object of any kind; a date in a format is written as the system writes it;
and not every text has an encoding. The library decides none of this, so what fills templates or
writes them is told of a platform and takes it as it is. -/
namespace DesignTokens

/-- A platform. Its answers may be faults of any kind. -/
class Platform where
  /-- The objects, other than token values, that attributes lead to. -/
  Object : Type
  /-- An attribute of a value or of an object. -/
  member : Value ⊕ Object → String → Except Fault (Value ⊕ Object)
  /-- The item of an object under a number or a name. -/
  item : Object → Nat ⊕ String → Except Fault (Value ⊕ Object)
  text : TextForm → Object → Except Fault String
  /-- An object in a format, which may be empty. -/
  format : Object → List Char → Except Fault (List Char)
  /-- A date, a time of day or a moment in a format that is not empty. -/
  dateText : Value → List Char → Except Fault (List Char)
  /-- Whether a text can be encoded. One that stands for a text with half of a surrogate pair cannot. -/
  encodes : String → Bool

/-- What a slot can come to: a token value or another object. -/
abbrev Part [Platform] := Value ⊕ Platform.Object

end DesignTokens
