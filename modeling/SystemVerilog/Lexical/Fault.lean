import SystemVerilog.Text.Location

/-!
# Lexical faults

The ways in which a text can fail to start with a lexeme.
-/

namespace SystemVerilog

/-- Why a text starts with no lexeme. -/
inductive LexicalFault where
  | unterminatedString
  | unterminatedBlockComment
  /-- A number with a missing or unknown base, a digit out of its radix, or letters behind it. -/
  | invalidLiteral (text : String)
  | unrecognizedCharacter (c : Char)
  /-- A backslash outside a string. -/
  | unexpectedEscape
  deriving DecidableEq, Repr

/-- The wording of a lexical fault. -/
def LexicalFault.message : LexicalFault → String
  | unterminatedString => "unterminated string literal"
  | unterminatedBlockComment => "unterminated block comment"
  | invalidLiteral text => s!"invalid literal '{text}'"
  | unrecognizedCharacter c => s!"unrecognized character '{c}'"
  | unexpectedEscape => "unexpected escape outside a string literal"

/-- A lexical fault in a source. -/
structure LexError where
  fault : LexicalFault
  location : Location
  /-- The text from the fault to the end of its line. -/
  remaining : String
  /-- The lines around the fault. -/
  excerpt : String
  deriving DecidableEq, Repr

/-- A lexical fault with its place and the lines around it. -/
def LexError.describe (e : LexError) : String :=
  s!"{e.fault.message} at {e.location.describe}\n{e.excerpt}"

end SystemVerilog
