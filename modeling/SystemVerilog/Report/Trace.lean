import SystemVerilog.Interface.Basic
import SystemVerilog.Report.Diagnostic

/-!
# Trace records

A trace tells step by step what was done with a source: that it was cut into tokens, what was noticed
while it was read, that it was read to its end, and of which modules the interface was looked at.
-/

namespace SystemVerilog

/-- How much a record matters. -/
inductive Level where
  | debug
  | info
  | warn
  deriving DecidableEq, Repr, Inhabited

/-- The value of a field of a record. -/
inductive FieldValue where
  | number (n : Nat)
  | text (s : String)
  deriving DecidableEq, Repr

/-- A record of a trace. -/
structure Record where
  level : Level
  message : String
  fields : List (String × FieldValue)
  deriving DecidableEq, Repr

namespace Record

/-- The record of a finding. -/
def ofDiagnostic (d : Diagnostic) : Record where
  level :=
    match d.severity with
    | .warning => .warn
    | .note => .info
  message := d.message
  fields :=
    [("path", .text d.path), ("line", .number d.location.line),
      ("column", .number d.location.column)]

/-- A source has been cut into so many tokens, comments and end mark included. -/
def lexed (source : Source) (count : Nat) : Record :=
  ⟨.debug, "lexed source", [("path", .text source.path), ("tokens", .number count)]⟩

/-- A source has been read to its end, with so many items. -/
def parsed (source : Source) (count : Nat) : Record :=
  ⟨.debug, "parsed source", [("path", .text source.path), ("items", .number count)]⟩

/-- The interface of a module is looked at. -/
def extracting (m : Module Site) : Record :=
  ⟨.info, "extracting module prototype", [("module", .text m.name)]⟩

/-- The records of a notice: a skipped region is also a finding. -/
def ofNotice (source : Source) : Notice → List Record
  | .regionSkipped macroName count location =>
    [⟨.debug, "skipped conditional region",
        [("macro_name", .text macroName), ("tokens", .number count)]⟩,
      ofDiagnostic (.ofSkipped source macroName count location)]
  | .moduleRead name items =>
    [⟨.debug, "parsed module", [("module", .text name), ("items", .number items)]⟩]

/-- The records of reading a source whose tokens have been counted. -/
def ofReading (source : Source) (count : Nat) (reading : Reading) : List Record :=
  let closing :=
    match reading.result with
    | .ok unit => [parsed source unit.items.length]
    | .error _ => []
  lexed source count :: (reading.notices.flatMap (ofNotice source) ++ closing)

/-- The records of reading the interfaces of a unit. -/
def ofInterfaces (unit : SourceUnit) (options : Interface.Options) : List Record :=
  (Interface.visited unit options unit.modules).map extracting

end Record

/-- Reads a source and keeps the records. -/
def readTraced (source : Source) (depth : Depth) : List Record × Except ParseError SourceUnit :=
  match source.tokens with
  | .error e => ([], .error (.ofLexError e))
  | .ok tokens =>
    let reading := (Arena.ofTokens source tokens).read depth
    (Record.ofReading source tokens.length reading, reading.result)

end SystemVerilog
