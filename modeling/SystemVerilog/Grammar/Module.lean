import SystemVerilog.Grammar.Body

/-!
# Reading modules and whole sources

A module is isolated first, from its opening word to the closing word that balances it, and then its
header and body are read inside that span. A source is a list of modules and directives.
-/

namespace SystemVerilog

open SystemVerilog.Parser

/-- How much of a module is read. -/
inductive Depth where
  /-- The header alone; what the body holds does not matter. -/
  | headers
  | bodies
  deriving DecidableEq, Repr, Inhabited

/-- Reads the parameters of a module header, if it has any. -/
def Parser.moduleParameters : Parser (List (ParameterGroup Site)) := do
  if ← eat (.op .sharp) then enclosed (.op .lParen) (.op .rParen) headerParameters
  else return []

/-- Reads the ports of a module header, if it has any. -/
def Parser.modulePorts : Parser (PortList Site) := do
  if ← check (.op .lParen) then enclosed (.op .lParen) (.op .rParen) portList
  else return .empty

/-- The header of a module: its name, parameters and ports. -/
structure ModuleHeader where
  name : String
  params : List (ParameterGroup Site)
  ports : PortList Site

/-- Reads a module header with its semicolon. -/
def Parser.moduleHeader : Parser ModuleHeader := do
  let _ ← expect (.word .kwModule)
  let name ← name
  let params ← moduleParameters
  let ports ← modulePorts
  let _ ← expectAs (.op .semicolon) "';' after module header"
  return ⟨name, params, ports⟩

/-- Reads the body of a module, up to the end of the span. -/
def moduleBody : Depth → Recorder (List (BodyItem Site))
  | .headers => return []
  | .bodies => untilEnd bodyItem

/-- Reads a module and a label behind it, which must repeat its name. -/
def moduleItem (depth : Depth) : Recorder (Module Site) := tagged do
  let part ← (spanToCloser (.word .kwModule) (.word .kwEndModule) : Parser Cursor)
  let (header, body) ← within part do
    let header ← (moduleHeader : Parser ModuleHeader)
    let body ← moduleBody depth
    return (header, body)
  (endLabel (some header.name) : Parser Unit)
  notice (.moduleRead header.name body.length)
  return fun tag => ⟨tag, header.name, header.params, header.ports, body⟩

/-- Reads an item of a source. -/
def item (depth : Depth) : Recorder (Item Site) := do
  match ← (current? : Parser (Option Token)) with
  | none => (unexpectedEnd "module or directive" : Parser (Item Site))
  | some token =>
    match token.kind with
    | .word .kwModule => return .design (← moduleItem depth)
    | .directive => return .directive (← directive)
    | _ => (fail (.unimplemented token.toLexeme) token.location : Parser (Item Site))

/-- Reads all items of a source. -/
def items (depth : Depth) : Recorder (List (Item Site)) := untilEnd (item depth)

end SystemVerilog
