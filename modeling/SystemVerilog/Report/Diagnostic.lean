import SystemVerilog.Grammar.Unit

/-!
# Diagnostics

Findings that do not stop the reading of a source. A skipped conditional region is the only one that
the grammar gives rise to.
-/

namespace SystemVerilog

/-- How much a finding matters. -/
inductive Severity where
  | note
  | warning
  deriving DecidableEq, Repr, Inhabited

/-- A severity as it is shown. -/
def Severity.name : Severity → String
  | note => "note"
  | warning => "warning"

/-- A finding at a place of a source, with the lines around it. -/
structure Diagnostic where
  severity : Severity
  message : String
  path : String
  location : Location
  excerpt : String
  deriving DecidableEq, Repr

namespace Diagnostic

/-- The path and place of a finding. -/
def place (d : Diagnostic) : String := s!"{d.path}, {d.location.describe}"

/-- A finding in full. -/
def describe (d : Diagnostic) : String :=
  s!"{d.severity.name}: {d.message} ({d.place})\n{d.excerpt}"

/-- The warning about a skipped region. -/
def ofSkipped (source : Source) (macroName : String) (count : Nat) (location : Location) :
    Diagnostic where
  severity := .warning
  message :=
    s!"conditional compilation on '{macroName}' is not evaluated, {count} token(s) skipped"
  path := source.path
  location := location
  excerpt := source.excerpt location

/-- The finding that a notice stands for. -/
def ofNotice? (source : Source) : Notice → Option Diagnostic
  | .regionSkipped macroName count location => some (ofSkipped source macroName count location)
  | .moduleRead _ _ => none

/-- The findings of some notices, in order. -/
def ofNotices (source : Source) (notices : List Notice) : List Diagnostic :=
  notices.filterMap (ofNotice? source)

end Diagnostic

end SystemVerilog
