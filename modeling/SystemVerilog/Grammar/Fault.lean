import SystemVerilog.Lexical.Fault
import SystemVerilog.Text.Source
import SystemVerilog.Token.Basic

/-!
# Faults

Why a sequence of tokens does not belong to the grammar. The first fault ends the reading of a
source. A fault names its place; `Fault.report` adds the lines around it.
-/

namespace SystemVerilog

/-- A construct whose tokens are in place but which the language refuses. -/
inductive Malformation where
  /-- A label behind a closing word that differs from the one behind the opening word. -/
  | endLabelMismatch (found expected : String)
  /-- A label behind the closing word of a block that has none. -/
  | strayEndLabel (label : String)
  | repeatedDefault
  | unlabeledCaseItem
  | undirectedPort
  /-- A single size where a packed dimension needs two bounds. -/
  | packedSize
  /-- A continuous assignment without a plain assignment sign. -/
  | notContinuous
  /-- A directive that belongs inside a conditional region. -/
  | strayConditional (directive : String)
  | openConditional (macroName : String)
  | timeMagnitude (text : String)
  /-- A nesting deeper than the number of tokens; no text reaches it. -/
  | bottomless
  deriving DecidableEq, Repr

/-- The wording of a malformation. -/
def Malformation.message : Malformation → String
  | endLabelMismatch found expected => s!"end label '{found}' does not match '{expected}'"
  | strayEndLabel label => s!"end label '{label}' on an unlabeled block"
  | repeatedDefault => "multiple default items in case"
  | unlabeledCaseItem => "case item without a label"
  | undirectedPort => "port declared without a direction"
  | packedSize => "packed dimension requires '[left:right]'"
  | notContinuous => "continuous assignment requires '='"
  | strayConditional directive => s!"'{directive}' without a matching '`ifdef'"
  | openConditional macroName => s!"no matching '`endif' for conditional on '{macroName}'"
  | timeMagnitude text => s!"invalid time magnitude '{text}', expected 1, 10 or 100"
  | bottomless => "constructs nested without end"

/-- What is wrong at a place. -/
inductive Cause where
  | lexical (fault : LexicalFault)
  | unexpectedToken (expected : String) (found : Lexeme)
  | unexpectedEnd (expected : String)
  | unmatchedPair (opening closing : TokenKind)
  | invalidExpressionToken (found : Lexeme)
  | unsupportedDirective (text : String)
  | rejectedDirective (text : String)
  | unimplemented (found : Lexeme)
  | malformed (what : Malformation)
  deriving DecidableEq, Repr

/-- The wording of a cause. -/
def Cause.message : Cause → String
  | lexical fault => s!"lexical error: {fault.message}"
  | unexpectedToken expected found => s!"expected {expected}, found {found.describe}"
  | unexpectedEnd expected => s!"unexpected end of input, expected {expected}"
  | unmatchedPair opening closing => s!"no matching {closing.describe} for {opening.describe}"
  | invalidExpressionToken found => s!"invalid token {found.describe} for expression"
  | unsupportedDirective text => s!"unsupported directive '{text}'"
  | rejectedDirective text => s!"directive '{text}' is rejected, macros are not expanded"
  | unimplemented found => s!"unimplemented construct starting with {found.describe}"
  | malformed what => what.message

/-- A cause and its place. -/
structure Fault where
  cause : Cause
  location : Location
  deriving DecidableEq, Repr

/-- A fault with the lines around it. -/
structure ParseError extends Fault where
  excerpt : String
  deriving DecidableEq, Repr

/-- A fault as a report on a source. -/
def Fault.report (source : Source) (fault : Fault) : ParseError :=
  { fault with excerpt := source.excerpt fault.location }

namespace ParseError

/-- A lexical error as a report. -/
def ofLexError (e : LexError) : ParseError := ⟨⟨.lexical e.fault, e.location⟩, e.excerpt⟩

/-- A report in full. -/
def describe (e : ParseError) : String :=
  s!"{e.cause.message} at {e.location.describe}\n{e.excerpt}"

end ParseError

end SystemVerilog
