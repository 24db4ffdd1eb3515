/-!
# Operators of expressions

What an operator means once its position in an expression is known: the same mark may be a prefix,
a binary operator or an assignment.
-/

namespace SystemVerilog

/-- An operator with one operand, before or behind it. -/
inductive UnaryOp where
  | plus | minus | logicNot | bitNot
  | reduceAnd | reduceOr | reduceXor | reduceNand | reduceNor | reduceXnor
  | preIncrement | preDecrement | postIncrement | postDecrement
  deriving DecidableEq, Repr, Inhabited

/-- An operator between two operands; `<=` compares. -/
inductive BinaryOp where
  | pow | mul | div | mod | add | sub
  | logicLeftShift | logicRightShift | arithLeftShift | arithRightShift
  | lessThan | lessEqual | greaterThan | greaterEqual | inside
  | equal | inequal | caseEqual | caseInequal | wildcardEqual | wildcardInequal
  | bitAnd | bitNand | bitXor | bitXnor | bitOr | bitNor
  | logicAnd | logicOr | implication | equivalence
  deriving DecidableEq, Repr, Inhabited

/-- How an assignment is made: at once, at the end of the time step, or by first combining the
target with the value. -/
inductive AssignOp where
  | assign | nonBlocking
  | add | sub | mul | div | mod | bitAnd | bitOr | bitXor
  | logicLeftShift | logicRightShift | arithLeftShift | arithRightShift
  deriving DecidableEq, Repr, Inhabited

/-- How the two bounds of a part-select are meant. -/
inductive SliceKind where
  /-- From the first bound to the second. -/
  | range
  /-- Upwards from a base by a width. -/
  | indexedUp
  /-- Downwards from a base by a width. -/
  | indexedDown
  deriving DecidableEq, Repr, Inhabited

end SystemVerilog
