import SystemVerilog.Lexical.Scan
import SystemVerilog.Text.Source

/-!
# The tokens of a source

`piecesFrom` cuts a text into lexemes with their byte offsets, or stops at the first place where
there is none; blanks between lexemes are dropped. `Source.tokens` adds the places and closes the
list with the end mark. Comments are kept.
-/

namespace SystemVerilog

/-- A lexeme and its byte offset. -/
structure Piece extends Lexeme where
  offset : Nat
  deriving DecidableEq, Repr

/-- Where and why a text stops being a sequence of lexemes. -/
structure LexicalStop where
  fault : LexicalFault
  offset : Nat
  /-- The text from the fault on. -/
  rest : List Char
  deriving DecidableEq, Repr

/-- The pieces of a text that starts at `offset`. The first `pending` characters belong to a lexeme
that has been found already. -/
def piecesFrom (pending offset : Nat) : List Char → Except LexicalStop (List Piece)
  | [] => .ok []
  | c :: cs =>
    match pending with
    | n + 1 => piecesFrom n (offset + c.utf8Size) cs
    | 0 =>
      if isBlank c then piecesFrom 0 (offset + c.utf8Size) cs
      else
        match scanLexeme c cs with
        | .error fault => .error ⟨fault, offset, c :: cs⟩
        | .ok (kind, length) =>
          (piecesFrom (length - 1) (offset + c.utf8Size) cs).map
            (⟨⟨kind, String.ofList ((c :: cs).take length)⟩, offset⟩ :: ·)

/-- The pieces of a whole text. -/
def pieces (text : List Char) : Except LexicalStop (List Piece) := piecesFrom 0 0 text

namespace Source

/-- A piece of this source as a token. -/
def place (source : Source) (piece : Piece) : Token :=
  { piece with
    location := source.locate piece.offset
    stop := source.locate (piece.offset + piece.text.utf8ByteSize) }

/-- The end mark of this source. -/
def endMark (source : Source) : Token := source.place ⟨⟨.eof, ""⟩, source.text.utf8ByteSize⟩

/-- A lexical stop of this source as an error. -/
def lexError (source : Source) (stop : LexicalStop) : LexError where
  fault := stop.fault
  location := source.locate stop.offset
  remaining := String.ofList (stop.rest.takeWhile fun c => !isLineBreak c)
  excerpt := source.excerpt (source.locate stop.offset)

/-- The tokens of a source, comments included, closed by the end mark. -/
def tokens (source : Source) : Except LexError (List Token) :=
  match pieces source.chars with
  | .ok found => .ok (found.map source.place ++ [source.endMark])
  | .error stop => .error (source.lexError stop)

end Source

end SystemVerilog
