import SystemVerilog.Token.Kind
import SystemVerilog.Tree.Operators

/-!
# Precedence of operators

What a token means before an operand (`UnaryOp.ofKind?`) and behind one (`Connective.ofKind?`), and
how tightly it binds. A larger power binds tighter. The mark `<=` has two readings: it assigns at
the head of a statement and compares everywhere else.
-/

namespace SystemVerilog

/-- The reading of `<=` that is in force. -/
inductive LessEqualReading where
  /-- At the head of a statement: a non-blocking assignment. -/
  | assigns
  /-- Everywhere else: a relation. -/
  | compares
  deriving DecidableEq, Repr, Inhabited

/-- The power of an operator before its operand. -/
def prefixPower : Nat := 150

/-- The power of selects, member accesses and operators behind their operand. -/
def postfixPower : Nat := 160

/-- The power of the conditional operator. -/
def conditionalPower : Nat := 30

/-- The power of assignments. -/
def assignPower : Nat := 10

/-- The operator that a token is before an operand. -/
def UnaryOp.ofKind? : TokenKind → Option UnaryOp
  | .op .add => some plus
  | .op .sub => some minus
  | .op .logicNot => some logicNot
  | .op .bitNot => some bitNot
  | .op .bitAnd => some reduceAnd
  | .op .bitOr => some reduceOr
  | .op .bitXor => some reduceXor
  | .op .bitNand => some reduceNand
  | .op .bitNor => some reduceNor
  | .op .bitXnor | .op .bitXnorAlt => some reduceXnor
  | .op .selfIncrement => some preIncrement
  | .op .selfDecrement => some preDecrement
  | _ => none

namespace BinaryOp

/-- The operator that a token is between two operands; `<=` compares. -/
def ofKind? : TokenKind → Option BinaryOp
  | .op .pow => some pow
  | .op .mul => some mul
  | .op .div => some div
  | .op .mod => some mod
  | .op .add => some add
  | .op .sub => some sub
  | .op .logicLeftShift => some logicLeftShift
  | .op .logicRightShift => some logicRightShift
  | .op .arithLeftShift => some arithLeftShift
  | .op .arithRightShift => some arithRightShift
  | .op .lessThan => some lessThan
  | .op .lessEqual => some lessEqual
  | .op .greaterThan => some greaterThan
  | .op .greaterEqual => some greaterEqual
  | .word .kwInside => some inside
  | .op .equal => some equal
  | .op .inequal => some inequal
  | .op .caseEqual => some caseEqual
  | .op .caseInequal => some caseInequal
  | .op .wildcardEqual => some wildcardEqual
  | .op .wildcardInequal => some wildcardInequal
  | .op .bitAnd => some bitAnd
  | .op .bitNand => some bitNand
  | .op .bitXor => some bitXor
  | .op .bitXnor | .op .bitXnorAlt => some bitXnor
  | .op .bitOr => some bitOr
  | .op .bitNor => some bitNor
  | .op .logicAnd => some logicAnd
  | .op .logicOr => some logicOr
  | .op .implication => some implication
  | .op .equivalence => some equivalence
  | _ => none

/-- How tightly a binary operator binds. -/
def power : BinaryOp → Nat
  | pow => 140
  | mul | div | mod => 130
  | add | sub => 120
  | logicLeftShift | logicRightShift | arithLeftShift | arithRightShift => 110
  | lessThan | lessEqual | greaterThan | greaterEqual | inside => 100
  | equal | inequal | caseEqual | caseInequal | wildcardEqual | wildcardInequal => 90
  | bitAnd | bitNand => 80
  | bitXor | bitXnor => 70
  | bitOr | bitNor => 60
  | logicAnd => 50
  | logicOr => 40
  | implication | equivalence => 20

end BinaryOp

/-- The assignment that a token makes. -/
def AssignOp.ofKind? (reading : LessEqualReading) : TokenKind → Option AssignOp
  | .op .assignment => some assign
  | .op .lessEqual =>
    match reading with
    | .assigns => some nonBlocking
    | .compares => none
  | .op .addAssignment => some add
  | .op .subAssignment => some sub
  | .op .mulAssignment => some mul
  | .op .divAssignment => some div
  | .op .modAssignment => some mod
  | .op .bitAndAssignment => some bitAnd
  | .op .bitOrAssignment => some bitOr
  | .op .bitXorAssignment => some bitXor
  | .op .logicLeftShiftAssignment => some logicLeftShift
  | .op .logicRightShiftAssignment => some logicRightShift
  | .op .arithLeftShiftAssignment => some arithLeftShift
  | .op .arithRightShiftAssignment => some arithRightShift
  | _ => none

/-! ### What may follow an operand -/

/-- What a token does to the operand before it. -/
inductive Connective where
  /-- An opening bracket: an index or a part-select. -/
  | select
  | scope
  | member
  | postfixOp (op : UnaryOp)
  | conditional
  | assignment (op : AssignOp)
  | binary (op : BinaryOp)
  deriving DecidableEq, Repr

namespace Connective

/-- How tightly a connective binds. -/
def power : Connective → Nat
  | select | scope | member | postfixOp _ => postfixPower
  | conditional => conditionalPower
  | assignment _ => assignPower
  | binary op => op.power

/-- The connective that a token is behind an operand. -/
def ofKind? (reading : LessEqualReading) (kind : TokenKind) : Option Connective :=
  match kind with
  | .op .lBracket => some select
  | .op .scopeResolution => some scope
  | .op .dot => some member
  | .op .selfIncrement => some (postfixOp .postIncrement)
  | .op .selfDecrement => some (postfixOp .postDecrement)
  | .op .questionMark => some conditional
  | _ =>
    match AssignOp.ofKind? reading kind with
    | some op => some (assignment op)
    | none => (BinaryOp.ofKind? kind).map binary

end Connective

/-- The power of a token before an operand. -/
def TokenKind.powerBefore? (kind : TokenKind) : Option Nat :=
  (UnaryOp.ofKind? kind).map fun _ => prefixPower

/-- The power of a token behind an operand. -/
def TokenKind.powerBehind? (reading : LessEqualReading) (kind : TokenKind) : Option Nat :=
  (Connective.ofKind? reading kind).map Connective.power

end SystemVerilog
