/-!
# Line endings

A text is cut into lines by one of three terminators. `LineEnding.detect` guesses the terminator
from the first line break of a text, and `LineEnding.lines` cuts a text by a given one: every other
break character is then an ordinary character of its line.
-/

namespace SystemVerilog

/-- The terminator that separates the lines of a text. -/
inductive LineEnding where
  /-- A line feed. -/
  | lf
  /-- A carriage return followed by a line feed. -/
  | crlf
  /-- A carriage return. -/
  | cr
  deriving DecidableEq, Repr, Inhabited

namespace LineEnding

/-- The characters of the terminator. -/
def terminator : LineEnding → List Char
  | lf => ['\n']
  | crlf => ['\r', '\n']
  | cr => ['\r']

/-- The short name of the convention. -/
def name : LineEnding → String
  | lf => "LF"
  | crlf => "CRLF"
  | cr => "CR"

/-- The number of bytes of the terminator. -/
def width (ending : LineEnding) : Nat := ending.terminator.length

/-- The convention of the first line break; a text without one counts as `lf`. -/
def detect : List Char → LineEnding
  | [] => lf
  | '\n' :: _ => lf
  | '\r' :: '\n' :: _ => crlf
  | '\r' :: _ => cr
  | _ :: cs => detect cs

/-! ### Cutting a text into lines -/

/-- The lines of what is left of a text, `line` being the start of the current one, reversed. -/
def linesFrom (ending : LineEnding) (line : List Char) : List Char → List (List Char)
  | [] => [line.reverse]
  | '\r' :: '\n' :: cs =>
    match ending with
    | lf => ('\r' :: line).reverse :: linesFrom ending [] cs
    | crlf => line.reverse :: linesFrom ending [] cs
    | cr => line.reverse :: linesFrom ending ['\n'] cs
  | c :: cs =>
    if ending.terminator = [c] then line.reverse :: linesFrom ending [] cs
    else linesFrom ending (c :: line) cs

/-- The lines of a text, without their terminators; there is always at least one. -/
def lines (ending : LineEnding) (text : List Char) : List (List Char) :=
  ending.linesFrom [] text

theorem linesFrom_ne_nil (ending : LineEnding) (line cs : List Char) :
    ending.linesFrom line cs ≠ [] := by
  fun_induction linesFrom ending line cs <;> simp_all

theorem lines_ne_nil (ending : LineEnding) (text : List Char) : ending.lines text ≠ [] :=
  linesFrom_ne_nil ending [] text

end LineEnding

end SystemVerilog
