import SystemVerilog.Grammar.Module
import SystemVerilog.Lexical.Tokens

/-!
# Source units

`Arena.ofSource` cuts a source into the tokens that the grammar reads. From an arena a whole source
unit is read, or one expression, or one statement. A `SourceUnit` keeps its tokens and its source, so
that the text of every node can be given back.
-/

namespace SystemVerilog

/-- The tokens of a source without its comments. -/
structure Arena where
  source : Source
  tokens : List Token

/-- What reading a source unit is asked to do. -/
structure ReadOptions where
  ending : LineEnding := .lf
  /-- The path shown in messages. -/
  path : String := "<input>"
  depth : Depth := .bodies
  deriving Repr

/-- A source that has been read. -/
structure SourceUnit extends Arena where
  items : List (Item Site)

/-- What reading a source unit comes to: what was noticed, and the unit or the first fault. -/
structure Reading where
  notices : List Notice
  result : Except ParseError SourceUnit

namespace Arena

/-- The arena of the tokens of a source. -/
def ofTokens (source : Source) (tokens : List Token) : Arena :=
  ⟨source, tokens.filter fun t => !t.kind.isComment⟩

/-- The arena of a source, or the place where it is no sequence of lexemes. -/
def ofSource (source : Source) : Except LexError Arena := source.tokens.map (ofTokens source)

/-- Reads the whole arena with a parser. -/
def readWith {α : Type} (arena : Arena) (p : Parser α) : Except ParseError α :=
  match p (Cursor.root arena.tokens) with
  | .ok (a, _) => .ok a
  | .error fault => .error (fault.report arena.source)

/-- Reads the whole arena as one expression. -/
def expression (arena : Arena) : Except ParseError (Expr Site) :=
  arena.readWith (Parser.filling "end of expression" Parser.expression)

/-- Reads the whole arena as one statement. -/
def statement (arena : Arena) : Except ParseError (Statement Site) :=
  arena.readWith (Parser.filling "end of statement" Parser.statement)

/-- Reads the whole arena as a source unit. -/
def read (arena : Arena) (depth : Depth) : Reading :=
  match ((items depth).run (Cursor.root arena.tokens)).run [] with
  | (.ok (found, _), notices) => ⟨notices, .ok ⟨arena, found⟩⟩
  | (.error fault, notices) => ⟨notices, .error (fault.report arena.source)⟩

end Arena

namespace SourceUnit

/-- The source text that a range of tokens covers, with the blanks and comments in it. -/
def textOf (unit : SourceUnit) (range : TokenRange) : String :=
  if range.isEmpty then ""
  else
    match unit.tokens[range.start]?, unit.tokens[range.stop - 1]? with
    | some first, some last => unit.source.slice first.offset last.endOffset
    | _, _ => ""

/-- The source text of a node. -/
def nodeText (unit : SourceUnit) (site : Site) : String := unit.textOf site.range

/-- The modules of a unit. -/
def modules (unit : SourceUnit) : List (Module Site) := unit.items.filterMap Item.module?

end SourceUnit

/-- The source of a text under some options. -/
def ReadOptions.source (options : ReadOptions) (text : String) : Source :=
  { path := options.path, text := text, ending := options.ending }

/-- Reads a text. -/
def readText (text : String) (options : ReadOptions) : Reading :=
  match Arena.ofSource (options.source text) with
  | .ok arena => arena.read options.depth
  | .error e => ⟨[], .error (.ofLexError e)⟩

end SystemVerilog
