import SystemVerilog.Grammar.Cursor

/-!
# Finding tokens ahead

Structural scans over the tokens still to read. Each answers with the number of tokens before the one
that was sought. A bracket is opened and closed by kinds; the three case words open one kind of
bracket between them.
-/

namespace SystemVerilog

/-- Whether a kind counts as another one when pairs are matched: the case words are one family. -/
def TokenKind.inFamily (kind target : TokenKind) : Bool :=
  match target with
  | .word .kwCase => kind == .word .kwCase || kind == .word .kwCasez || kind == .word .kwCasex
  | _ => kind == target

/-- The number of tokens before the first one of a kind. -/
def distanceTo? (kind : TokenKind) (ts : List Token) : Option Nat :=
  ts.findIdx? fun t => t.kind == kind

/-- The number of tokens before the closer that leaves no pair open, `depth` pairs being open at the
start of the list. -/
def distanceToCloser? (opening closing : TokenKind) (depth : Nat) : List Token → Option Nat
  | [] => none
  | t :: ts =>
    if t.kind.inFamily opening then
      (distanceToCloser? opening closing (depth + 1) ts).map (· + 1)
    else if t.kind.inFamily closing then
      if depth ≤ 1 then some 0
      else (distanceToCloser? opening closing (depth - 1) ts).map (· + 1)
    else (distanceToCloser? opening closing depth ts).map (· + 1)

/-- The number of tokens before the first one of a kind with `depth` pairs open around it, `level`
pairs being open at the start of the list. A closer without its opener ends the search. -/
def distanceAtDepth? (opening closing kind : TokenKind) (depth level : Nat) :
    List Token → Option Nat
  | [] => none
  | t :: ts =>
    if t.kind = kind ∧ level = depth then some 0
    else if t.kind.inFamily opening then
      (distanceAtDepth? opening closing kind depth (level + 1) ts).map (· + 1)
    else if t.kind.inFamily closing then
      match level with
      | 0 => none
      | n + 1 => (distanceAtDepth? opening closing kind depth n ts).map (· + 1)
    else (distanceAtDepth? opening closing kind depth level ts).map (· + 1)

/-! ### Outside all brackets -/

/-- Opening round, square and curly brackets. -/
def TokenKind.isOpener : TokenKind → Bool
  | .op .lParen | .op .lBracket | .op .lBrace => true
  | _ => false

/-- Closing round, square and curly brackets. -/
def TokenKind.isCloser : TokenKind → Bool
  | .op .rParen | .op .rBracket | .op .rBrace => true
  | _ => false

/-- The number of tokens before the first one of a kind outside all round, square and curly brackets,
`level` brackets and `questions` conditionals being open at the start of the list. A colon that
answers a question mark is passed over. A closer without its opener ends the search. -/
def distanceAtTop? (kind : TokenKind) (level questions : Nat) : List Token → Option Nat
  | [] => none
  | t :: ts =>
    match level with
    | 0 =>
      if t.kind = .op .colon ∧ 0 < questions then
        (distanceAtTop? kind 0 (questions - 1) ts).map (· + 1)
      else if t.kind = kind then some 0
      else if t.kind = .op .questionMark then
        (distanceAtTop? kind 0 (questions + 1) ts).map (· + 1)
      else if t.kind.isOpener then (distanceAtTop? kind 1 questions ts).map (· + 1)
      else if t.kind.isCloser then none
      else (distanceAtTop? kind 0 questions ts).map (· + 1)
    | n + 1 =>
      if t.kind.isOpener then (distanceAtTop? kind (n + 2) questions ts).map (· + 1)
      else if t.kind.isCloser then (distanceAtTop? kind n questions ts).map (· + 1)
      else (distanceAtTop? kind (n + 1) questions ts).map (· + 1)

end SystemVerilog
