import SystemVerilog.Grammar.Directive
import SystemVerilog.Grammar.Statement
import SystemVerilog.Tree.Module

/-!
# Reading module bodies

The items of a module body and the generate constructs among them. Items inside an item are read by
a parameter, and `bodyItemWithin` ties the knot with a budget of nestings.
-/

namespace SystemVerilog

open SystemVerilog.Parser

/-! ### Items without items inside -/

namespace Parser

/-- Reads a continuous assignment. -/
def continuousAssignment : Parser (Expr Site) := do
  let expr ← statementExpression
  if expr.assigns? = some .assign then return expr
  else fail (.malformed .notContinuous) expr.tag.location

/-- Reads a delay control, if there is one. -/
def optionalDelay : Parser (Option (Delay Site)) := do
  if ← check (.op .sharp) then return some (← delay)
  else return none

/-- Reads continuous assignments made together. -/
def continuousAssign : Parser (ContinuousAssign Site) := tagged <| beforeSemicolon do
  let _ ← expect (.word .kwAssign)
  let delay ← optionalDelay
  let assignments ← listBy (comma "',' or ';'") continuousAssignment
  return fun tag => ⟨tag, delay, assignments⟩

/-- Reads an event control, if there is one. -/
def optionalSensitivity : Parser (Option (Sensitivity Site)) := do
  if ← check (.op .atSign) then return some (← sensitivity)
  else return none

/-- Reads an always block, whose opening word has been looked at. -/
def alwaysBlock (kind : AlwaysKind) : Parser (AlwaysBlock Site) := tagged do
  let _ ← consume
  let sensitivity ← optionalSensitivity
  let body ← statement
  return fun tag => ⟨tag, kind, sensitivity, body⟩

/-- Reads an initial block. -/
def initialBlock : Parser (InitialBlock Site) := tagged do
  let _ ← expect (.word .kwInitial)
  let body ← statement
  return fun tag => ⟨tag, body⟩

/-- Reads a lone semicolon. -/
def emptyItem : Parser (BodyItem Site) := tagged do
  let _ ← advance?
  return fun tag => .empty tag

/-- Whether the next token and the one behind it start a module instance. -/
def startsInstantiation : Parser Bool := fun c =>
  let second := c.peekKind? 1
  .ok (c.check .identifier && (second == some .identifier || second == some (.op .sharp)), c)

end Parser

/-! ### Generate constructs -/

/-- The reader of items inside an item. -/
abbrev NestedItem := Recorder (BodyItem Site)

/-- A generate scope with items as its elements. -/
abbrev Scope := GenerateBlock Site (BodyItem Site)

/-- Reads a generate scope: items between `begin` and `end`, or a single bare one. -/
def generateBlockOf (item : NestedItem) : Recorder Scope := tagged do
  if ← (check (.word .kwBegin) : Parser Bool) then
    let (label, items) ← enclosed (.word .kwBegin) (.word .kwEnd) do
      let label ← (blockLabel : Parser (Option String))
      let items ← untilEnd item
      return (label, items)
    (endLabel label : Parser Unit)
    return fun tag => ⟨tag, label, items⟩
  else
    let only ← item
    return fun tag => ⟨tag, none, [only]⟩

/-- Reads a generate region. -/
def generateRegionOf (item : NestedItem) : Recorder (BodyItem Site) :=
  tagged <| enclosed (.word .kwGenerate) (.word .kwEndGenerate) do
    let items ← untilEnd item
    return fun tag => .region tag items

/-- Reads a conditional generate construct. -/
def generateIfOf (item : NestedItem) : Recorder (BodyItem Site) := tagged do
  let _ ← (consume : Parser Token)
  let condition ← (condition : Parser (Expr Site))
  let thenBlock ← generateBlockOf item
  if ← (eat (.word .kwElse) : Parser Bool) then
    let elseBlock ← generateBlockOf item
    return fun tag => .generateIf tag condition thenBlock (some elseBlock)
  else return fun tag => .generateIf tag condition thenBlock none

/-- Reads a generate loop. -/
def generateForOf (item : NestedItem) : Recorder (BodyItem Site) := tagged do
  let _ ← (consume : Parser Token)
  let header ← (loopHeader : Parser (LoopHeader Site))
  let body ← generateBlockOf item
  return fun tag => .generateFor tag header body

/-- Reads a generate case. -/
def generateCaseOf (item : NestedItem) : Recorder (BodyItem Site) :=
  tagged <| enclosed (.word .kwCase) (.word .kwEndCase) do
    let selector ← (condition : Parser (Expr Site))
    let (items, fallback) ← caseItems (generateBlockOf item)
    return fun tag => .generateCase tag selector items fallback

/-! ### Any item -/

/-- Reads an item that starts with a reserved word. -/
def wordItemOf (item : NestedItem) (word : Keyword) (token : Token) : Recorder (BodyItem Site) :=
  match AlwaysKind.ofKind? (.word word) with
  | some kind => do return .always (← alwaysBlock kind)
  | none =>
    if word.isDirection then do return .ports (← portDeclaration)
    else if word.isNetType || word.namesDataType then do return .signals (← signalDeclaration)
    else
      match word with
      | .kwParameter | .kwLocalparam => do return .parameters (← parameterDeclaration)
      | .kwGenvar => do return .genvars (← genvarDeclaration)
      | .kwAssign => do return .assign (← continuousAssign)
      | .kwInitial => do return .initial (← initialBlock)
      | .kwBegin => do return .block (← generateBlockOf item)
      | .kwGenerate => generateRegionOf item
      | .kwIf => generateIfOf item
      | .kwFor => generateForOf item
      | .kwCase => generateCaseOf item
      | _ => (fail (.unimplemented token.toLexeme) token.location : Parser (BodyItem Site))

/-- Reads an item of a module body; its first tokens tell which. -/
def bodyItemOf (item : NestedItem) : Recorder (BodyItem Site) := do
  match ← (current? : Parser (Option Token)) with
  | none => (unexpectedEnd "module item" : Parser (BodyItem Site))
  | some token =>
    if ← (startsInstantiation : Parser Bool) then return .instantiation (← instantiation)
    else
      match token.kind with
      | .word word => wordItemOf item word token
      | .directive => return .directive (← directive)
      | .op .semicolon => emptyItem
      | _ => (fail (.unimplemented token.toLexeme) token.location : Parser (BodyItem Site))

/-- Reads an item of a module body with a budget of nestings. -/
def bodyItemWithin : Nat → Recorder (BodyItem Site)
  | 0 => (bottomless : Parser (BodyItem Site))
  | budget + 1 => bodyItemOf (bodyItemWithin budget)

/-- Reads an item of a module body. -/
def bodyItem : Recorder (BodyItem Site) := do
  let c : Cursor ← get
  bodyItemWithin (budget c)

end SystemVerilog
