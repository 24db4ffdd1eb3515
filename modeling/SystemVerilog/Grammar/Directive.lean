import SystemVerilog.Grammar.Parser
import SystemVerilog.Tree.Directive

/-!
# Reading directives

A directive is known by its name and read with its arguments. The region behind an `ifdef` or
`ifndef` is skipped up to the `endif` that closes it, and a notice is kept of it.
-/

namespace SystemVerilog

namespace Parser

/-! ### Arguments -/

/-- The interior of a string literal. -/
def unquote (text : String) : String :=
  match text.toList with
  | '"' :: cs =>
    match cs.getLast? with
    | some '"' => String.ofList cs.dropLast
    | _ => text
  | _ => text

/-- Reads a string argument. -/
def stringArgument (expected : String) : Parser String := do
  return unquote (← expectAs .stringLiteral expected).text

/-- The magnitude that a literal gives to a time. -/
def timeMagnitude? : String → Option Nat
  | "1" => some 1
  | "10" => some 10
  | "100" => some 100
  | _ => none

/-- Reads a time. -/
def timeValue : Parser TimeValue := do
  let token ← expectAs .literal "time magnitude"
  match timeMagnitude? token.text with
  | none => fail (.malformed (.timeMagnitude token.text)) token.location
  | some magnitude => return ⟨magnitude, ← demandBy TimeUnit.ofKind? "time unit"⟩

/-! ### Conditional regions -/

/-- Whether a token opens a conditional region. -/
def opensRegion (t : Token) : Bool :=
  t.kind == .directive && (t.text == "\x60ifdef" || t.text == "\x60ifndef")

/-- Whether a token closes a conditional region. -/
def closesRegion (t : Token) : Bool := t.kind == .directive && t.text == "\x60endif"

/-- The number of tokens before the `endif` that closes a region, `inner` regions being open in it. -/
def distanceToRegionEnd? (inner : Nat) : List Token → Option Nat
  | [] => none
  | t :: ts =>
    if opensRegion t then (distanceToRegionEnd? (inner + 1) ts).map (· + 1)
    else if closesRegion t then
      match inner with
      | 0 => some 0
      | n + 1 => (distanceToRegionEnd? n ts).map (· + 1)
    else (distanceToRegionEnd? inner ts).map (· + 1)

/-- The site of what a cursor spans. -/
def siteOf (part : Cursor) : Site := ⟨part.location, part.bounds⟩

end Parser

open SystemVerilog.Parser

/-- Reads a conditional region behind its opening directive, which stands at `here`. -/
def conditionalRegion (negated : Bool) (here : Location) : Recorder (DirectiveKind Site) := do
  let macroName ← (name : Parser String)
  match ← (spanBefore? (distanceToRegionEnd? 0) : Parser (Option Cursor)) with
  | none => (fail (.malformed (.openConditional macroName)) here : Parser _)
  | some part =>
    notice (.regionSkipped macroName part.bounds.length here)
    return .conditional negated macroName (siteOf part)

/-- Reads what follows the token of a directive. -/
def directiveArguments (token : Token) : Recorder (DirectiveKind Site) := do
  let refuse (cause : Cause) : Parser (DirectiveKind Site) := fail cause token.location
  match String.ofList (token.text.toList.dropWhile (· == '\x60')) with
  | "resetall" => return .resetAll
  | "celldefine" => return .cellDefine
  | "endcelldefine" => return .endCellDefine
  | "begin_keywords" | "begin_keyword" =>
    return .beginKeywords (← stringArgument "keyword version string")
  | "end_keywords" | "end_keyword" => return .endKeywords
  | "include" => return .includeFile (← stringArgument "include path string")
  | "timescale" =>
    let unit ← timeValue
    let _ ← expectAs (.op .div) "'/' between time unit and precision"
    let precision ← timeValue
    return .timescale unit precision
  | "default_nettype" =>
    return .defaultNettype (← demandWith TokenKind.isWord "net type").text
  | "unconnected_drive" =>
    let pull := TokenKind.keywordIn? Keyword.isPull
    return .unconnectedDrive (← (demandBy pull "'pull0' or 'pull1'" : Parser Keyword))
  | "nounconnected_drive" => return .noUnconnectedDrive
  | "ifdef" => conditionalRegion false token.location
  | "ifndef" => conditionalRegion true token.location
  | "else" | "elsif" | "endif" => refuse (.malformed (.strayConditional token.text))
  | "define" | "undef" | "undefineall" => refuse (.rejectedDirective token.text)
  | _ => refuse (.unsupportedDirective token.text)

/-- Reads a directive. -/
def directive : Recorder (Directive Site) := tagged do
  let token ← (expect .directive : Parser Token)
  let kind ← directiveArguments token
  return fun tag => ⟨tag, kind⟩

end SystemVerilog
