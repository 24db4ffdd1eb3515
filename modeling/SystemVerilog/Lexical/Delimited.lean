/-!
# Comments and strings

The lexemes that run up to a closing mark. Each function answers with a number of characters.
-/

namespace SystemVerilog

/-- The length of the interior of a block comment with its closing mark: it ends at the first one. -/
def commentRestLength? : List Char → Option Nat
  | [] => none
  | '*' :: '/' :: _ => some 2
  | _ :: cs => (commentRestLength? cs).map (· + 1)

/-- The length of the interior of a string with its closing quote. A backslash takes the next
character with it, or a carriage return and line feed; any other line break leaves the string
unterminated. -/
def stringRestLength? : List Char → Option Nat
  | [] => none
  | '"' :: _ => some 1
  | '\\' :: '\r' :: '\n' :: cs => (stringRestLength? cs).map (· + 3)
  | '\\' :: _ :: cs => (stringRestLength? cs).map (· + 2)
  | '\r' :: _ => none
  | '\n' :: _ => none
  | _ :: cs => (stringRestLength? cs).map (· + 1)

end SystemVerilog
