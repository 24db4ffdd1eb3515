import SystemVerilog.Text.Bytes
import SystemVerilog.Text.LineEnding
import SystemVerilog.Text.Location

/-!
# Source texts

A `Source` is a text with the path shown in messages and its lines. `Source.locate` turns a byte
offset into a place, `Source.line?` gives the text of a line, and `Source.excerpt` draws the lines
around a place with a caret under its column.
-/

namespace SystemVerilog

/-- A text together with its display path and its lines. -/
structure Source where
  path : String
  text : String
  ending : LineEnding
  /-- The lines of the text, kept so that they are cut only once. -/
  lines : List String := (ending.lines text.toList).map String.ofList
  lines_eq : lines = (ending.lines text.toList).map String.ofList := by rfl

namespace Source

/-- The characters of the text. -/
def chars (source : Source) : List Char := source.text.toList

/-- The number of lines; at least one. -/
def lineCount (source : Source) : Nat := source.lines.length

theorem lineCount_pos (source : Source) : 0 < source.lineCount := by
  have h := LineEnding.lines_ne_nil source.ending source.text.toList
  rw [lineCount, source.lines_eq, List.length_map]
  exact List.length_pos_iff.2 h

/-! ### Places -/

/-- The place of an offset counted from the start of line `number`, whose text leads `lines`;
`gap` is the width of a terminator. An offset past the last line counts on in that line. -/
def locateFrom (gap number offset : Nat) : List String → Location
  | [] => ⟨number, offset + 1⟩
  | [_] => ⟨number, offset + 1⟩
  | line :: next :: rest =>
    if offset < line.utf8ByteSize + gap then ⟨number, offset + 1⟩
    else locateFrom gap (number + 1) (offset - (line.utf8ByteSize + gap)) (next :: rest)

/-- The place of a byte offset; a terminator belongs to the line that it ends. -/
def locate (source : Source) (offset : Nat) : Location :=
  locateFrom source.ending.width 1 offset source.lines

/-- The text of a line counted from one, without its terminator. -/
def line? (source : Source) : Nat → Option String
  | 0 => none
  | n + 1 => source.lines[n]?

/-- The text between two byte offsets; empty if they are not offsets of characters in order. -/
def slice (source : Source) (start stop : Nat) : String :=
  String.ofList ((byteSlice start stop source.chars).getD [])

/-! ### Excerpts -/

/-- The number of lines shown above and below a place. -/
def excerptMargin : Nat := 2

/-- A run of blanks. -/
def blanks (n : Nat) : String := String.ofList (List.replicate n ' ')

/-- A text set flush right in a field. -/
def flushRight (width : Nat) (text : String) : String :=
  blanks (width - text.length) ++ text

/-- One line of an excerpt, with the caret line below it if it is the line of the place. -/
def excerptLine (source : Source) (place : Location) (width number : Nat) : String :=
  let text := (source.line? number).getD ""
  let shown := s!"\n{flushRight width (toString number)} | {text}"
  if number = place.line then
    s!"{shown}\n{blanks width} | {blanks (place.column - 1)}^"
  else shown

/-- The path and place, then the lines around it and a caret under its column. The numbers are set
in a field that fits the last line of the window. -/
def excerpt (source : Source) (place : Location) : String :=
  let first := max (place.line - excerptMargin) 1
  let last := min (place.line + excerptMargin) source.lineCount
  let width := (toString last).length
  let heading := s!"{blanks width}--> {source.path} ({place.describe})"
  let shown := (List.range' first (last + 1 - first)).map (source.excerptLine place width)
  heading ++ String.join shown

end Source

end SystemVerilog
