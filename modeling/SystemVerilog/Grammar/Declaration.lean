import SystemVerilog.Grammar.Expression
import SystemVerilog.Grammar.Grouping

/-!
# Reading declarations

Data types, dimensions and declarators, and from them the declarations of parameters, ports, nets and
variables, genvars and module instances, in module headers and bodies.
-/

namespace SystemVerilog

namespace Parser

/-! ### Dimensions and data types -/

/-- Reads what stands between the brackets of a dimension. Two bounds are separated by the first
colon outside brackets and conditionals. -/
def dimensionInterior : Parser (Site → Dimension Site) := do
  match ← spanBefore? (distanceAtTop? (.op .colon) 0 0) with
  | some part =>
    let left ← within part (filling "':'" expression)
    let right ← filling "']'" expression
    return fun tag => .bounds ⟨tag, left, right⟩
  | none =>
    let index ← filling "']'" expression
    return fun tag => .size tag index

/-- Reads a dimension: two bounds or a size between brackets. -/
def dimension : Parser (Dimension Site) :=
  tagged (enclosed (.op .lBracket) (.op .rBracket) dimensionInterior)

/-- Reads a packed dimension, which must have two bounds. -/
def packedBounds : Parser (Bounds Site) := do
  let here ← location
  match ← dimension with
  | .bounds b => return b
  | .size _ _ => fail (.malformed .packedSize) here

/-- Whether a data type with this keyword may have a signing. -/
def admitsSigning : Option Keyword → Bool
  | some k => !k.isNonIntegerType
  | none => true

/-- Whether a data type with this keyword may have packed dimensions. -/
def admitsPacked : Option Keyword → Bool
  | some k => k.isIntegerVectorType
  | none => true

/-- Reads a data type, if the next token can open one. -/
def dataType : Parser (Option (DataType Site)) := do
  match ← currentKind? with
  | none => return none
  | some kind =>
    if kind.startsDataType then
      tagged do
        let keyword ← tryBy (TokenKind.keywordIn? Keyword.namesDataType)
        let signing ← if admitsSigning keyword then tryBy Signing.ofKind? else pure none
        let packed ← if admitsPacked keyword then bracketed packedBounds else pure []
        return fun tag => some ⟨tag, keyword, signing, packed⟩
    else return none

/-- Reads a net type, if it is there. -/
def netType : Parser (Option Keyword) := tryBy (TokenKind.keywordIn? Keyword.isNetType)

/-! ### Declarators -/

/-- Reads a declared name with its dimensions and its value. -/
def declarator : Parser (Declarator Site) := tagged do
  let name ← name
  let dims ← bracketed dimension
  if ← eat (.op .assignment) then
    let value ← expression
    return fun tag => ⟨tag, name, dims, some value⟩
  else return fun tag => ⟨tag, name, dims, none⟩

/-- Reads the declarators of a declaration, up to its semicolon. -/
def declarators : Parser (List (Declarator Site)) := listBy (comma "',' or ';'") declarator

/-! ### Module headers -/

/-- Reads the keyword of a parameter entry, if it is there: whether it says `localparam`. -/
def parameterKeyword : Parser (Option Bool) := do
  if ← eat (.word .kwParameter) then return some false
  else if ← eat (.word .kwLocalparam) then return some true
  else return none

/-- Reads an entry of a header parameter list. -/
def parameterEntry : Parser ParameterEntry := tagged do
  let isLocal ← parameterKeyword
  let type ← dataType
  let declarator ← declarator
  return fun tag => ⟨tag, isLocal, type, declarator⟩

/-- Reads the interior of a header parameter list. -/
def headerParameters : Parser (List (ParameterGroup Site)) := do
  return ParameterEntry.groups (← entries "',' or ')'" parameterEntry)

/-- Reads an entry of a header port list. -/
def portEntry : Parser PortEntry := tagged do
  let direction ← tryBy Direction.ofKind?
  let net ← netType
  let type ← dataType
  let declarator ← declarator
  return fun tag => ⟨tag, direction, net, type, declarator⟩

/-- Reads port declarations in a header. -/
def headerPorts : Parser (List (PortGroup Site)) := do
  match ← entries "',' or ')'" portEntry with
  | [] => return []
  | e :: es =>
    match e.direction with
    | some direction => return PortEntry.gather (e.group direction) es
    | none => fail (.malformed .undirectedPort) e.tag.location

/-- Reads the names of ports that the body declares. -/
def portNames : Parser (List (PortName Site)) :=
  listBy (comma "',' or ')'") <| tagged do
    let name ← name
    return fun tag => ⟨tag, name⟩

/-- Reads the interior of a header port list. Its first token tells whether the ports are declared
here. -/
def portList : Parser (PortList Site) := do
  match ← currentKind? with
  | none => return .empty
  | some kind =>
    if kind.isDirection then return .ansi (← headerPorts)
    else return .nonAnsi (← portNames)

/-! ### Module bodies -/

/-- Reads a parameter declaration. -/
def parameterDeclaration : Parser (ParameterGroup Site) := tagged <| beforeSemicolon do
  let keyword ← consume
  let type ← dataType
  let declared ← declarators
  return fun tag => ⟨tag, keyword.kind == .word .kwLocalparam, type, declared⟩

/-- Reads a port declaration. -/
def portDeclaration : Parser (PortGroup Site) := tagged <| beforeSemicolon do
  let direction ← demandBy Direction.ofKind? "port direction"
  let net ← netType
  let type ← dataType
  let declared ← declarators
  return fun tag => ⟨tag, direction, net, type, declared⟩

/-- Reads a net or variable declaration. -/
def signalDeclaration : Parser (SignalGroup Site) := tagged <| beforeSemicolon do
  let net ← netType
  let type ← dataType
  let declared ← declarators
  return fun tag => ⟨tag, net, type, declared⟩

/-- Reads a genvar declaration. -/
def genvarDeclaration : Parser (Genvars Site) := tagged <| beforeSemicolon do
  let _ ← expect (.word .kwGenvar)
  let names ← listBy (comma "',' or ';'") name
  return fun tag => ⟨tag, names⟩

/-- Reads what stands between the parentheses of a named connection. -/
def connectedValue : Parser (Option (Expr Site)) := do
  if ← atEnd then return none
  else return some (← filling "')'" expression)

/-- Reads a connection: by name if it starts with a dot, else by position. -/
def connection : Parser (Connection Site) := tagged do
  if ← eat (.op .dot) then
    let name ← name
    let value ← enclosed (.op .lParen) (.op .rParen) connectedValue
    return fun tag => ⟨tag, some name, value⟩
  else
    let value ← expression
    return fun tag => ⟨tag, none, some value⟩

/-- Reads connections between parentheses. -/
def connections : Parser (List (Connection Site)) :=
  enclosed (.op .lParen) (.op .rParen) (entries "',' or ')'" connection)

/-- Reads a module instance. -/
def instantiation : Parser (Instantiation Site) := tagged <| beforeSemicolon do
  let moduleName ← name
  let params ← if ← eat (.op .sharp) then connections else pure []
  let instanceName ← name
  let ports ← connections
  expectEnd "';'"
  return fun tag => ⟨tag, moduleName, params, instanceName, ports⟩

end Parser

end SystemVerilog
