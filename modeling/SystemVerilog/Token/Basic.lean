import SystemVerilog.Text.Location
import SystemVerilog.Token.Kind

/-!
# Lexemes and tokens

A lexeme is a piece of text with its kind; a token is a lexeme with its place in a source.
-/

namespace SystemVerilog

/-- A piece of text and what it is. -/
structure Lexeme where
  kind : TokenKind
  text : String
  deriving DecidableEq, Repr, Inhabited

/-- A lexeme as messages show it: its own text, introduced by its kind where the text alone would
not tell. -/
def Lexeme.describe (lexeme : Lexeme) : String :=
  match lexeme.kind with
  | .identifier => s!"identifier '{lexeme.text}'"
  | .literal => s!"literal '{lexeme.text}'"
  | .stringLiteral => s!"string literal {lexeme.text}"
  | .directive => s!"directive '{lexeme.text}'"
  | .lineComment | .blockComment | .eof => lexeme.kind.describe
  | .op _ | .word _ => s!"'{lexeme.text}'"

/-- A lexeme at its place. -/
structure Token extends Lexeme where
  /-- The byte offset of the first character. -/
  offset : Nat
  /-- The place of the first character. -/
  location : Location
  /-- The place just past the last character. -/
  stop : Location
  deriving DecidableEq, Repr, Inhabited

namespace Token

/-- The byte offset just past the last character. -/
def endOffset (token : Token) : Nat := token.offset + token.text.utf8ByteSize

/-- Whether a token starts exactly where another one ends. -/
def touches (token before : Token) : Bool := token.offset == before.endOffset

end Token

end SystemVerilog
