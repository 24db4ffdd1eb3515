/-!
# Operators and punctuation

The operators of the language, each with its one spelling. `Operator.all` lists them longest
spelling first, so that the first operator of the list that leads a text is the longest one.
-/

namespace SystemVerilog

/-- An operator or a punctuation mark. -/
inductive Operator where
  | arithLeftShiftAssignment | arithRightShiftAssignment | arithLeftShift | arithRightShift
  | caseEqual | caseInequal | wildcardEqual | wildcardInequal | logicLeftShiftAssignment
  | logicRightShiftAssignment | equivalence | doubleBackQuote | pow | equal | inequal
  | lessEqual | greaterEqual | logicAnd | logicOr | logicLeftShift | logicRightShift
  | addAssignment | subAssignment | mulAssignment | divAssignment | modAssignment
  | bitAndAssignment | bitOrAssignment | bitXorAssignment | implication | selfIncrement
  | selfDecrement | scopeResolution | plusColon | minusColon | bitNand | bitNor | bitXnor
  | bitXnorAlt | backQuote | sharp | lParen | rParen | lBrace | rBrace | lBracket | rBracket
  | comma | colon | semicolon | atSign | dot | singleQuote | dollar | questionMark | assignment
  | add | sub | mul | div | mod | bitAnd | bitOr | bitXor | bitNot | logicNot | lessThan
  | greaterThan
  deriving DecidableEq, Repr, Inhabited

namespace Operator

/-- The spelling of an operator. -/
def spelling : Operator → String
  | arithLeftShiftAssignment => "<<<="
  | arithRightShiftAssignment => ">>>="
  | arithLeftShift => "<<<"
  | arithRightShift => ">>>"
  | caseEqual => "==="
  | caseInequal => "!=="
  | wildcardEqual => "==?"
  | wildcardInequal => "!=?"
  | logicLeftShiftAssignment => "<<="
  | logicRightShiftAssignment => ">>="
  | equivalence => "<->"
  | doubleBackQuote => "``"
  | pow => "**"
  | equal => "=="
  | inequal => "!="
  | lessEqual => "<="
  | greaterEqual => ">="
  | logicAnd => "&&"
  | logicOr => "||"
  | logicLeftShift => "<<"
  | logicRightShift => ">>"
  | addAssignment => "+="
  | subAssignment => "-="
  | mulAssignment => "*="
  | divAssignment => "/="
  | modAssignment => "%="
  | bitAndAssignment => "&="
  | bitOrAssignment => "|="
  | bitXorAssignment => "^="
  | implication => "->"
  | selfIncrement => "++"
  | selfDecrement => "--"
  | scopeResolution => "::"
  | plusColon => "+:"
  | minusColon => "-:"
  | bitNand => "~&"
  | bitNor => "~|"
  | bitXnor => "~^"
  | bitXnorAlt => "^~"
  | backQuote => "`"
  | sharp => "#"
  | lParen => "("
  | rParen => ")"
  | lBrace => "\x7b"
  | rBrace => "\x7d"
  | lBracket => "["
  | rBracket => "]"
  | comma => ","
  | colon => ":"
  | semicolon => ";"
  | atSign => "@"
  | dot => "."
  | singleQuote => "'"
  | dollar => "$"
  | questionMark => "?"
  | assignment => "="
  | add => "+"
  | sub => "-"
  | mul => "*"
  | div => "/"
  | mod => "%"
  | bitAnd => "&"
  | bitOr => "|"
  | bitXor => "^"
  | bitNot => "~"
  | logicNot => "!"
  | lessThan => "<"
  | greaterThan => ">"

/-- Every operator, longest spelling first. -/
def all : List Operator :=
  [ .arithLeftShiftAssignment, .arithRightShiftAssignment, .arithLeftShift, .arithRightShift,
    .caseEqual, .caseInequal, .wildcardEqual, .wildcardInequal, .logicLeftShiftAssignment,
    .logicRightShiftAssignment, .equivalence, .doubleBackQuote, .pow, .equal, .inequal,
    .lessEqual, .greaterEqual, .logicAnd, .logicOr, .logicLeftShift, .logicRightShift,
    .addAssignment, .subAssignment, .mulAssignment, .divAssignment, .modAssignment,
    .bitAndAssignment, .bitOrAssignment, .bitXorAssignment, .implication, .selfIncrement,
    .selfDecrement, .scopeResolution, .plusColon, .minusColon, .bitNand, .bitNor, .bitXnor,
    .bitXnorAlt, .backQuote, .sharp, .lParen, .rParen, .lBrace, .rBrace, .lBracket, .rBracket,
    .comma, .colon, .semicolon, .atSign, .dot, .singleQuote, .dollar, .questionMark,
    .assignment, .add, .sub, .mul, .div, .mod, .bitAnd, .bitOr, .bitXor, .bitNot, .logicNot,
    .lessThan, .greaterThan ]

theorem mem_all (o : Operator) : o ∈ all := by cases o <;> decide

/-- The operators with their spellings as characters, in the order of `all`. -/
def spellings : List (List Char × Operator) := all.map fun o => (o.spelling.toList, o)

/-- The longest operator that leads a text, with its length. -/
def leading? (cs : List Char) : Option (Operator × Nat) :=
  (spellings.find? fun entry => entry.1.isPrefixOf cs).map fun entry => (entry.2, entry.1.length)

end Operator

end SystemVerilog
