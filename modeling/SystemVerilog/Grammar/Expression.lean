import SystemVerilog.Grammar.Parser
import SystemVerilog.Grammar.Precedence
import SystemVerilog.Tree.Expr

/-!
# Reading expressions

Expressions are read by precedence. `expressionOf` reads an operand and then every connective that
binds tighter than a floor. All nested expressions are read by a parameter, so that the routines here
are plain functions; `expressionWithin` ties the knot with a budget of nestings. Every nested
expression stands behind a token of the outer one, so a budget of one more than the tokens left is
never used up.
-/

namespace SystemVerilog

namespace Parser

/-- Reads a nested expression whose operators bind tighter than a floor. -/
abbrev Nested := Nat → Parser (Expr Site)

/-- Fails at a token that cannot stand in an expression. -/
def invalidInExpression {α : Type} (found : Token) : Parser α :=
  fail (.invalidExpressionToken found.toLexeme) found.location

/-! ### Lists and delays -/

/-- Reads expressions with commas between them, up to the end of the span; there may be none. -/
def listOf (nested : Nested) : Parser (List (Expr Site)) := do
  if ← atEnd then return []
  else listBy (comma "',' or end of list") (nested 0)

/-- Reads the unit of a delay, which must touch the magnitude. -/
def delayUnit : Parser (Option TimeUnit) := fun c =>
  match c.before, c.after with
  | last :: _, t :: _ =>
    match TimeUnit.ofKind? t.kind with
    | some unit => if t.touches last then .ok (some unit, c.skip 1) else .ok (none, c)
    | none => .ok (none, c)
  | _, _ => .ok (none, c)

/-- Reads a delay control: a magnitude and perhaps its unit. -/
def delayOf (nested : Nested) : Parser (Delay Site) := tagged do
  let _ ← expect (.op .sharp)
  let magnitude ← nested prefixPower
  let unit ← delayUnit
  return fun tag => ⟨tag, magnitude, unit⟩

/-! ### Operands -/

/-- Reads the arguments of a call, if there are any, behind the name of what is called. -/
def callOf (nested : Nested) (callee : Expr Site) : Parser (Expr Site) := do
  if ← check (.op .lParen) then
    let (parens, args) ← tagged do
      let args ← enclosed (.op .lParen) (.op .rParen) (listOf nested)
      return fun tag => (tag, args)
    return .call (← since callee.tag) callee parens args
  else return callee

/-- Reads a concatenation or a replication. -/
def bracesOf (nested : Nested) : Parser (Expr Site) := tagged do
  enclosed (.op .lBrace) (.op .rBrace) do
    let first ← nested 0
    if ← check (.op .lBrace) then
      let items ← enclosed (.op .lBrace) (.op .rBrace) (listOf nested)
      expectEnd "'\x7d'"
      return fun tag => .replication tag first items
    else
      let rest ← followers (comma "',' or '\x7d'") (nested 0)
      return fun tag => .concatenation tag (first :: rest)

/-- Reads a dollar sign and the word that touches it. -/
def systemIdentifier : Parser (Expr Site) := tagged do
  let dollar ← consume
  match ← current? with
  | some word =>
    if word.kind.isWord && word.touches dollar then
      let _ ← advance?
      return fun tag => .systemIdentifier tag ("$" ++ word.text)
    else invalidInExpression dollar
  | none => invalidInExpression dollar

/-- Reads an operand that starts with this token, which is no prefix operator. -/
def primaryOf (nested : Nested) (token : Token) : Parser (Expr Site) :=
  match token.kind with
  | .op .lParen => tagged do
    let inner ← enclosed (.op .lParen) (.op .rParen) (filling "')'" (nested 0))
    return fun tag => .parenthesis tag inner
  | .op .lBrace => bracesOf nested
  | .op .singleQuote => do
    if (← peekKind? 1) = some (.op .lBrace) then
      tagged do
        let _ ← advance?
        let items ← enclosed (.op .lBrace) (.op .rBrace) (listOf nested)
        return fun tag => .arrayPattern tag items
    else invalidInExpression token
  | .stringLiteral => tagged do
    let _ ← advance?
    return fun tag => .literal tag .string token.text
  | .literal => tagged do
    let _ ← advance?
    return fun tag => .literal tag (.ofNumber token.text.toList) token.text
  | .op .dollar => do callOf nested (← systemIdentifier)
  | kind =>
    if kind.isName then do
      let callee ← tagged do
        let _ ← advance?
        return fun tag => .identifier tag token.text
      callOf nested callee
    else invalidInExpression token

/-- Reads an operand with the operators before it. -/
def operandOf (nested : Nested) : Parser (Expr Site) := do
  match ← current? with
  | none => unexpectedEnd "expression"
  | some token =>
    match UnaryOp.ofKind? token.kind with
    | some op => tagged do
      let _ ← advance?
      let operand ← nested prefixPower
      return fun tag => .unary tag op operand
    | none => primaryOf nested token

/-! ### Connectives -/

/-- The select that a separator between two bounds makes. -/
def sliceKind? : TokenKind → Option SliceKind
  | .op .colon => some .range
  | .op .plusColon => some .indexedUp
  | .op .minusColon => some .indexedDown
  | _ => none

/-- Reads the interior of a select: one index, or two bounds. -/
def selectorOf (nested : Nested) (target : Expr Site) : Parser (Site → Expr Site) := do
  let first ← nested 0
  match ← current? with
  | none => return fun tag => .index tag target first
  | some separator =>
    match sliceKind? separator.kind with
    | none => unexpected "']', ':', '+:' or '-:'" separator
    | some kind =>
      let _ ← advance?
      let second ← filling "']'" (nested 0)
      return fun tag => .slice tag kind target first second

/-- Reads an assignment behind its operator: perhaps a delay, then the value. -/
def assignmentOf (nested : Nested) (op : AssignOp) (target : Expr Site) :
    Parser (Site → Expr Site) := do
  if ← check (.op .sharp) then
    let delay ← delayOf nested
    let value ← nested (assignPower - 1)
    return fun tag =>
      .delayedAssignment tag op target delay.tag delay.magnitude delay.unit value
  else
    let value ← nested (assignPower - 1)
    return fun tag => .assignment tag op target value

/-- Reads a connective, which is the next token, and what belongs to it. -/
def connectiveOf (nested : Nested) (connective : Connective) (lhs : Expr Site) :
    Parser (Site → Expr Site) :=
  match connective with
  | .select => enclosed (.op .lBracket) (.op .rBracket) (selectorOf nested lhs)
  | .scope => do
    let _ ← advance?
    let name ← name
    return fun tag => .scope tag lhs name
  | .member => do
    let _ ← advance?
    let name ← name
    return fun tag => .member tag lhs name
  | .postfixOp op => do
    let _ ← advance?
    return fun tag => .unary tag op lhs
  | .conditional => do
    let _ ← advance?
    let thenExpr ← nested 0
    let _ ← expectAs (.op .colon) "':' in conditional expression"
    let elseExpr ← nested (conditionalPower - 1)
    return fun tag => .conditional tag lhs thenExpr elseExpr
  | .assignment op => do
    let _ ← advance?
    assignmentOf nested op lhs
  | .binary op => do
    let _ ← advance?
    let rhs ← nested op.power
    return fun tag => .binary tag op lhs rhs

/-- Reads the connectives behind an operand that bind tighter than a floor, but no more than a number
of them. -/
def climbUpTo (nested : Nested) (reading : LessEqualReading) (floor : Nat) :
    Nat → Expr Site → Parser (Expr Site)
  | 0, lhs => do
    if ← atEnd then return lhs
    else bottomless
  | n + 1, lhs => do
    match (← currentKind?).bind (Connective.ofKind? reading) with
    | none => return lhs
    | some connective =>
      if connective.power ≤ floor then return lhs
      else
        let node ← connectiveOf nested connective lhs
        let whole := node (← since lhs.tag)
        climbUpTo nested reading floor n whole

/-- Reads the connectives behind an operand that bind tighter than a floor. -/
def climb (nested : Nested) (reading : LessEqualReading) (floor : Nat) (lhs : Expr Site) :
    Parser (Expr Site) := fun c =>
  climbUpTo nested reading floor c.after.length lhs c

/-! ### Whole expressions -/

/-- Reads an expression whose operators bind tighter than a floor. -/
def expressionOf (nested : Nested) (reading : LessEqualReading) (floor : Nat) :
    Parser (Expr Site) := do
  let lhs ← operandOf nested
  climb nested reading floor lhs

/-- Reads an expression with a budget of nestings. Only the outermost one can head a statement. -/
def expressionWithin : Nat → LessEqualReading → Nat → Parser (Expr Site)
  | 0, _, _ => bottomless
  | budget + 1, reading, floor => expressionOf (expressionWithin budget .compares) reading floor

/-- A budget of nestings that suffices: one more than the tokens left. -/
def budget (c : Cursor) : Nat := c.after.length + 1

/-- Reads an expression in which `<=` compares. -/
def expression : Parser (Expr Site) := fun c => expressionWithin (budget c) .compares 0 c

/-- Reads an expression that heads a statement: `<=` at its top assigns. -/
def statementExpression : Parser (Expr Site) := fun c => expressionWithin (budget c) .assigns 0 c

/-- Reads one operand, leaving all binary operators behind it. -/
def operand : Parser (Expr Site) := fun c => expressionWithin (budget c) .compares prefixPower c

/-- Reads expressions with commas between them, up to the end of the span. -/
def expressionList : Parser (List (Expr Site)) := fun c =>
  listOf (expressionWithin (budget c) .compares) c

/-- Reads a delay control. -/
def delay : Parser (Delay Site) := fun c => delayOf (expressionWithin (budget c) .compares) c

end Parser

end SystemVerilog
