import SystemVerilog.Token.Kind

/-!
# Words with a meaning of their own

The small closed classes of reserved words that a tree records by their meaning.
-/

namespace SystemVerilog

/-- The direction of a port. -/
inductive Direction where
  | input | output | inout
  deriving DecidableEq, Repr, Inhabited

namespace Direction

/-- The direction that a token names. -/
def ofKind? : TokenKind → Option Direction
  | .word .kwInput => some input
  | .word .kwOutput => some output
  | .word .kwInout => some inout
  | _ => none

/-- The word for a direction. -/
def name : Direction → String
  | input => "input"
  | output => "output"
  | inout => "inout"

end Direction

/-- The unit of a time literal. -/
inductive TimeUnit where
  | s | ms | us | ns | ps | fs
  deriving DecidableEq, Repr, Inhabited

/-- The unit that a token names. -/
def TimeUnit.ofKind? : TokenKind → Option TimeUnit
  | .word .kwSecond => some s
  | .word .kwMilliSecond => some ms
  | .word .kwMicroSecond => some us
  | .word .kwNanoSecond => some ns
  | .word .kwPicoSecond => some ps
  | .word .kwFemtoSecond => some fs
  | _ => none

/-- Whether the values of a data type have a sign. -/
inductive Signing where
  | signed | unsigned
  deriving DecidableEq, Repr, Inhabited

/-- The signing that a token names. -/
def Signing.ofKind? : TokenKind → Option Signing
  | .word .kwSigned => some signed
  | .word .kwUnsigned => some unsigned
  | _ => none

/-- The transition that an event waits for. -/
inductive Edge where
  | posedge | negedge | any
  deriving DecidableEq, Repr, Inhabited

/-- The transition that a token names. -/
def Edge.ofKind? : TokenKind → Option Edge
  | .word .kwPosedge => some posedge
  | .word .kwNegedge => some negedge
  | .word .kwEdge => some any
  | _ => none

/-- How a case statement compares its labels with its selector. -/
inductive CaseKind where
  | case | casez | casex
  deriving DecidableEq, Repr, Inhabited

/-- The kind of case statement that a token opens. -/
def CaseKind.ofKind? : TokenKind → Option CaseKind
  | .word .kwCase => some case
  | .word .kwCasez => some casez
  | .word .kwCasex => some casex
  | _ => none

/-- What kind of logic an always block describes. -/
inductive AlwaysKind where
  | always | comb | ff | latch
  deriving DecidableEq, Repr, Inhabited

/-- The kind of always block that a token opens. -/
def AlwaysKind.ofKind? : TokenKind → Option AlwaysKind
  | .word .kwAlways => some always
  | .word .kwAlwaysComb => some comb
  | .word .kwAlwaysFf => some ff
  | .word .kwAlwaysLatch => some latch
  | _ => none

end SystemVerilog
