/-! Text files: UTF-8 with any of the three line ends. -/
namespace DesignTokens.Text

/-- Line ends of two characters, and lone carriage returns, become line feeds. -/
def plainLineEnds : List Char → List Char
  | '\r' :: '\n' :: rest => '\n' :: plainLineEnds rest
  | '\r' :: rest => '\n' :: plainLineEnds rest
  | c :: rest => c :: plainLineEnds rest
  | [] => []

/-- The text of a file's bytes, if they are UTF-8. -/
def decode? (bytes : ByteArray) : Option String :=
  (String.fromUTF8? bytes).map fun s => String.ofList (plainLineEnds s.toList)

end DesignTokens.Text
