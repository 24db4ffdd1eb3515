/-!
# Classes of characters

The classes on which the lexical grammar rests. Outside strings and comments only ASCII characters
take part in it, so every class holds ASCII characters alone.
-/

namespace SystemVerilog

/-- Characters that separate lexemes: space, tab, line feed, vertical tab, form feed and carriage
return. -/
def isBlank (c : Char) : Bool :=
  c == ' ' || c == '\t' || c == '\n' || c == '\x0b' || c == '\x0c' || c == '\r'

/-- Characters that break a line, whatever the line ending in force. -/
def isLineBreak (c : Char) : Bool := c == '\r' || c == '\n'

/-- Characters that may open an identifier. -/
def isWordStart (c : Char) : Bool := c.isAlpha || c == '_'

/-- Characters that may continue an identifier. -/
def isWordPart (c : Char) : Bool := c.isAlphanum || c == '_' || c == '$'

/-- Characters that may continue a run of decimal digits. -/
def isDigitPart (c : Char) : Bool := c.isDigit || c == '_'

/-- Characters that stand for an unknown or floating digit. -/
def isUnknownDigit (c : Char) : Bool :=
  c == 'x' || c == 'X' || c == 'z' || c == 'Z' || c == '?'

/-- The number of leading characters in a class. -/
def runLength (p : Char → Bool) (cs : List Char) : Nat := (cs.takeWhile p).length

/-- Whether the first character is in a class. -/
def startsWith (p : Char → Bool) : List Char → Bool
  | [] => false
  | c :: _ => p c

end SystemVerilog
