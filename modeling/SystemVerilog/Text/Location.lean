/-!
# Places in a text

A place is a line and a column, both counted from one. Columns count bytes of the UTF-8 text.
-/

namespace SystemVerilog

/-- A line and a byte column, both counted from one. -/
structure Location where
  line : Nat
  column : Nat
  deriving DecidableEq, Repr, Inhabited

namespace Location

/-- The first place of any text. -/
def origin : Location := ⟨1, 1⟩

/-- The place as messages spell it. -/
def describe (place : Location) : String :=
  s!"line {place.line}, column {place.column}"

end Location

end SystemVerilog
