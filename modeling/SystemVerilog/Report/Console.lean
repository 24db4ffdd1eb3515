import SystemVerilog.Report.Diagnostic

/-!
# Findings on a console

A finding is written in two parts: a heading with a bold coloured severity and a coloured place, and
the lines around the place.
-/

namespace SystemVerilog

/-- A colour of a console. -/
structure Colour where
  red : Nat
  green : Nat
  blue : Nat
  deriving DecidableEq, Repr

namespace Console

/-- The character that opens a control sequence. -/
def escape : String := "\x1b["

/-- The control sequence that sets the colour of letters. -/
def foreground (colour : Colour) : String :=
  s!"{escape}38;2;{colour.red};{colour.green};{colour.blue}m"

/-- The control sequence that sets bold letters. -/
def bold : String := escape ++ "1m"

/-- The control sequence that ends every setting. -/
def reset : String := escape ++ "0m"

/-- The control sequence that ends a colour of letters. -/
def defaultForeground : String := escape ++ "39m"

/-- Severities are told apart by colour. -/
def severityColour : Severity → Colour
  | .warning => ⟨250, 179, 135⟩
  | .note => ⟨137, 180, 250⟩

/-- The colour of the place of a finding. -/
def placeColour : Colour := ⟨108, 112, 134⟩

/-- A finding as it is written on a console. -/
def render (d : Diagnostic) : String :=
  let severity := foreground (severityColour d.severity) ++ bold ++ d.severity.name ++ reset
  let place := foreground placeColour ++ d.place ++ defaultForeground
  s!"{severity}: {d.message} ({place})\n{d.excerpt}\n"

end Console

end SystemVerilog
