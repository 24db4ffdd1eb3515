import SystemVerilog.Grammar.Declaration
import SystemVerilog.Tree.Statement

/-!
# Reading statements

Procedural statements. As with expressions, statements inside a statement are read by a parameter, and
`statementWithin` ties the knot with a budget of nestings. Block labels, case items and loop headers
are shared with generate constructs.
-/

namespace SystemVerilog

namespace Parser

/-! ### Labels -/

/-- Reads a colon and a label behind an opening word, if they are there. -/
def blockLabel : Parser (Option String) := do
  if ← eat (.op .colon) then return some (← name)
  else return none

/-- Reads a colon and a label behind a closing word, if they are there. The label must repeat the one
behind the opening word. -/
def endLabel (opening : Option String) : Parser Unit := do
  match ← eat? (.op .colon) with
  | none => return ()
  | some colon =>
    let label ← expectName
    match opening with
    | none => fail (.malformed (.strayEndLabel label.text)) colon.location
    | some expected =>
      if expected = label.text then return ()
      else fail (.malformed (.endLabelMismatch label.text expected)) label.location

/-! ### Conditions and loop headers -/

/-- Reads an expression between parentheses. -/
def condition : Parser (Expr Site) :=
  enclosed (.op .lParen) (.op .rParen) (filling "')'" expression)

/-- Reads the first clause of a loop header. -/
def loopInit : Parser (LoopInit Site) := tagged do
  let genvar ← eat (.word .kwGenvar)
  let type ← dataType
  let assignment ← filling "';'" statementExpression
  return fun tag => ⟨tag, genvar, type, assignment⟩

/-- A cursor over a clause of a loop header that ends in a semicolon; the semicolon is read. -/
def loopClause : Parser Cursor :=
  spanBefore (distanceAtDepth? (.op .lParen) (.op .rParen) (.op .semicolon) 0 0)
    (TokenKind.op .semicolon).describe

/-- Reads what a cursor spans, if it spans anything. -/
def optionally {α : Type} (part : Cursor) (p : Parser α) : Parser (Option α) := do
  if part.atEnd then return none
  else return some (← within part p)

/-- Reads a loop header. Both semicolons are found before the clauses are read. -/
def loopHeader : Parser (LoopHeader Site) :=
  tagged <| enclosed (.op .lParen) (.op .rParen) do
    let first ← loopClause
    let second ← loopClause
    let init ← optionally first loopInit
    let condition ← optionally second (filling "';'" expression)
    let step ← if ← atEnd then pure none
      else do pure (some (← filling "')'" statementExpression))
    return fun tag => ⟨tag, init, condition, step⟩

/-! ### Event controls -/

/-- Reads an event: an expression, perhaps led by the transition to wait for. -/
def event : Parser (Event Site) := tagged do
  let edge ← tryBy Edge.ofKind?
  let expr ← expression
  return fun tag => ⟨tag, edge, expr⟩

/-- Reads what separates two events. -/
def eventSeparator : Parser Unit := do
  if ← eat (.word .kwOr) then return ()
  else comma "'or', ',' or ')'"

/-- Whether the span holds nothing but a star. -/
def onlyStar : Parser Bool := fun c =>
  .ok (c.check (.op .mul) && (c.peek? 1).isNone, c)

/-- Reads an event control. -/
def sensitivity : Parser (Sensitivity Site) := tagged do
  let _ ← expect (.op .atSign)
  if ← eat (.op .mul) then return fun tag => ⟨tag, true, []⟩
  else if ← check (.op .lParen) then
    enclosed (.op .lParen) (.op .rParen) do
      if ← onlyStar then return fun tag => ⟨tag, true, []⟩
      else
        let events ← listBy eventSeparator event
        return fun tag => ⟨tag, false, events⟩
  else
    let only ← tagged do
      let expr ← operand
      return fun tag => (⟨tag, none, expr⟩ : Event Site)
    return fun tag => ⟨tag, false, [only]⟩

/-! ### Case items -/

/-- Reads the labels of a case item, and the colon behind them: the first one outside brackets and
conditionals. -/
def caseLabels : Parser (List (Expr Site)) := do
  let here ← location
  let part ← spanBefore (distanceAtTop? (.op .colon) 0 0) (TokenKind.op .colon).describe
  match ← within part expressionList with
  | [] => fail (.malformed .unlabeledCaseItem) here
  | labels => return labels

/-- Reads the words that lead a default item, if they are there. There may be one default only. -/
def defaultLabel (seen : Bool) : Parser Bool := do
  let here ← location
  if ← eat (.word .kwDefault) then
    let _ ← eat (.op .colon)
    if seen then fail (.malformed .repeatedDefault) here else return true
  else return false

end Parser

section CaseItems

variable {m : Type → Type} [Monad m] [MonadStateOf Cursor m] [MonadLiftT Parser m] {α : Type}

/-- Reads case items up to the end of the span, but no more than a number of them; `fallback` is the
default item read so far. -/
def caseItemsUpTo (body : m α) :
    Nat → Option α → m (List (CaseItem Site α) × Option α)
  | 0, fallback => do
    if ← Parser.atEnd then return ([], fallback)
    else Parser.bottomless (α := List (CaseItem Site α) × Option α)
  | n + 1, fallback => do
    if ← Parser.atEnd then return ([], fallback)
    else if ← Parser.defaultLabel fallback.isSome then
      let only ← body
      caseItemsUpTo body n (some only)
    else
      let item ← tagged do
        let labels ← Parser.caseLabels
        let selected ← body
        return fun tag => (⟨tag, labels, selected⟩ : CaseItem Site α)
      let (items, last) ← caseItemsUpTo body n fallback
      return (item :: items, last)

/-- Reads case items up to the end of the span: the labelled ones and the default. -/
def caseItems (body : m α) : m (List (CaseItem Site α) × Option α) := do
  let c : Cursor ← get
  caseItemsUpTo body c.after.length none

end CaseItems

namespace Parser

/-! ### Statements -/

/-- Reads a block. -/
def blockOf (statement : Parser (Statement Site)) : Parser (Statement Site) := tagged do
  let (label, statements) ← enclosed (.word .kwBegin) (.word .kwEnd) do
    let label ← blockLabel
    let statements ← untilEnd statement
    return (label, statements)
  endLabel label
  return fun tag => .block tag label statements

/-- Reads a conditional statement. -/
def ifElseOf (statement : Parser (Statement Site)) : Parser (Statement Site) := tagged do
  let _ ← expect (.word .kwIf)
  let condition ← condition
  let thenBranch ← statement
  if ← eat (.word .kwElse) then
    let elseBranch ← statement
    return fun tag => .ifElse tag condition thenBranch (some elseBranch)
  else return fun tag => .ifElse tag condition thenBranch none

/-- Reads a case statement, whose opening word has been looked at. -/
def caseOf (statement : Parser (Statement Site)) (kind : CaseKind) : Parser (Statement Site) :=
  tagged <| enclosed (.word .kwCase) (.word .kwEndCase) do
    let selector ← condition
    let (items, fallback) ← caseItems statement
    return fun tag => .caseOf tag kind selector items fallback

/-- Reads a loop. -/
def loopOf (statement : Parser (Statement Site)) : Parser (Statement Site) := tagged do
  let _ ← expect (.word .kwFor)
  let header ← loopHeader
  let body ← statement
  return fun tag => .loop tag header body

/-- Reads a statement behind a delay control. -/
def delayedOf (statement : Parser (Statement Site)) : Parser (Statement Site) := tagged do
  let delay ← delay
  let body ← statement
  return fun tag => .delayed tag delay body

/-- Reads a statement behind an event control. -/
def eventOf (statement : Parser (Statement Site)) : Parser (Statement Site) := tagged do
  let sensitivity ← sensitivity
  let body ← statement
  return fun tag => .event tag sensitivity body

/-- Reads a lone semicolon. -/
def emptyStatement : Parser (Statement Site) := tagged do
  let _ ← advance?
  return fun tag => .empty tag

/-- Reads an expression used as a statement. -/
def expressionStatement : Parser (Statement Site) :=
  tagged <| beforeSemicolon do
    let expr ← filling "';'" statementExpression
    return fun tag => .expression tag expr

/-- Reads a statement; its first token tells which. -/
def statementOf (statement : Parser (Statement Site)) : Parser (Statement Site) := do
  match ← currentKind? with
  | none => unexpectedEnd "statement"
  | some kind =>
    match CaseKind.ofKind? kind with
    | some c => caseOf statement c
    | none =>
      match kind with
      | .word .kwBegin => blockOf statement
      | .word .kwIf => ifElseOf statement
      | .word .kwFor => loopOf statement
      | .op .sharp => delayedOf statement
      | .op .atSign => eventOf statement
      | .op .semicolon => emptyStatement
      | _ => expressionStatement

/-- Reads a statement with a budget of nestings. -/
def statementWithin : Nat → Parser (Statement Site)
  | 0 => bottomless
  | budget + 1 => statementOf (statementWithin budget)

/-- Reads a statement. -/
def statement : Parser (Statement Site) := fun c => statementWithin (budget c) c

end Parser

end SystemVerilog
