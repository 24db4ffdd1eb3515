import SystemVerilog.Grammar.Pairing

/-!
# Parsers

A `Parser` reads tokens from the front of its span and answers with a value and the cursor behind it,
or with the first fault. A `Recorder` also keeps notices of what it comes by, and keeps them when it
fails; every parser is a recorder that notices nothing.

The combinators come in two groups. The primitives read, demand and find tokens. The others put
parsers together: on a part of the span (`within`, `enclosed`), once per element of a list, or with
the site of what was read (`tagged`). Those that both kinds of reader use are stated for any monad
that holds a cursor.
-/

namespace SystemVerilog

/-- Reads tokens from the front of a span. -/
abbrev Parser := StateT Cursor (Except Fault)

/-- Something worth telling that is no fault. -/
inductive Notice where
  /-- A conditional region was skipped; `location` is the place of its directive. -/
  | regionSkipped (macroName : String) (count : Nat) (location : Location)
  /-- A module was read, with so many items in its body. -/
  | moduleRead (name : String) (items : Nat)
  deriving DecidableEq, Repr

/-- Reads tokens and keeps notices. -/
abbrev Recorder := StateT Cursor (ExceptT Fault (StateM (List Notice)))

/-- A parser is a recorder that notices nothing. -/
instance : MonadLift Parser Recorder where
  monadLift p := fun c => ExceptT.mk (pure (p c))

/-- Adds a notice. -/
def notice (n : Notice) : Recorder Unit := fun c =>
  ExceptT.mk fun notices => (.ok ((), c), notices ++ [n])

namespace Parser

variable {α β : Type}

/-! ### Failing -/

/-- Fails with a cause at a place. -/
def fail (cause : Cause) (location : Location) : Parser α := fun _ => .error ⟨cause, location⟩

/-- Fails at the next token, which is not what was expected. -/
def unexpected (expected : String) (found : Token) : Parser α :=
  fail (.unexpectedToken expected found.toLexeme) found.location

/-- Fails at the end of the span. -/
def unexpectedEnd (expected : String) : Parser α := fun c =>
  .error ⟨.unexpectedEnd expected, c.endLocation⟩

/-- Fails because no budget is left. -/
def bottomless : Parser α := fun c => .error ⟨.malformed .bottomless, c.location⟩

/-! ### Looking -/

/-- Whether the span has been read to its end. -/
def atEnd : Parser Bool := fun c => .ok (c.atEnd, c)

/-- The place of the next token, or the place just past the span. -/
def location : Parser Location := fun c => .ok (c.location, c)

/-- The next token. -/
def current? : Parser (Option Token) := fun c => .ok (c.current?, c)

/-- The kind of the next token. -/
def currentKind? : Parser (Option TokenKind) := fun c => .ok (c.currentKind?, c)

/-- The kind of the token some places ahead. -/
def peekKind? (n : Nat) : Parser (Option TokenKind) := fun c => .ok (c.peekKind? n, c)

/-- Whether the next token has a kind. -/
def check (kind : TokenKind) : Parser Bool := fun c => .ok (c.check kind, c)

/-- The site of what was read since a node began. -/
def since (first : Site) : Parser Site := fun c =>
  .ok (⟨first.location, ⟨first.range.start, c.position⟩⟩, c)

/-! ### Reading one token -/

/-- Reads the next token, if there is one. -/
def advance? : Parser (Option Token) := fun c => .ok (c.current?, c.skip 1)

/-- Reads the next token if it passes a test; `expected` says what the test admits. -/
def demandWith (test : TokenKind → Bool) (expected : String) : Parser Token := fun c =>
  match c.after with
  | t :: _ => if test t.kind then .ok (t, c.skip 1) else unexpected expected t c
  | [] => unexpectedEnd expected c

/-- Reads the next token if it means something; `expected` says what is admitted. -/
def demandBy (meaning : TokenKind → Option α) (expected : String) : Parser α := fun c =>
  match c.after with
  | t :: _ =>
    match meaning t.kind with
    | some a => .ok (a, c.skip 1)
    | none => unexpected expected t c
  | [] => unexpectedEnd expected c

/-- Reads the next token if it means something, and else nothing. -/
def tryBy (meaning : TokenKind → Option α) : Parser (Option α) := fun c =>
  match c.currentKind?.bind meaning with
  | some a => .ok (some a, c.skip 1)
  | none => .ok (none, c)

/-- Reads any token. -/
def consume : Parser Token := demandWith (fun _ => true) "a token"

/-- Reads a token of a kind; `expected` describes it. -/
def expectAs (kind : TokenKind) (expected : String) : Parser Token := demandWith (· == kind) expected

/-- Reads a token of a kind. -/
def expect (kind : TokenKind) : Parser Token := expectAs kind kind.describe

/-- Reads a name. -/
def expectName : Parser Token := demandWith TokenKind.isName "identifier"

/-- The text of the name that is read. -/
def name : Parser String := do return (← expectName).text

/-- Reads the next token if it has this kind. -/
def eat? (kind : TokenKind) : Parser (Option Token) := fun c =>
  if c.check kind then .ok (c.current?, c.skip 1) else .ok (none, c)

/-- Whether the next token had this kind and was read. -/
def eat (kind : TokenKind) : Parser Bool := do return (← eat? kind).isSome

/-- Fails unless the span has been read to its end. -/
def expectEnd (expected : String) : Parser Unit := fun c =>
  match c.after with
  | t :: _ => unexpected expected t c
  | [] => .ok ((), c)

/-! ### Finding tokens ahead -/

/-- The distance to the closer of the pair that the next token opens. -/
def closerDistance (opening closing : TokenKind) : Parser Nat := fun c =>
  match c.after with
  | [] => unexpectedEnd opening.describe c
  | t :: _ =>
    if t.kind.inFamily opening then
      match distanceToCloser? opening closing 0 c.after with
      | some n => .ok (n, c)
      | none => .error ⟨.unmatchedPair opening closing, t.location⟩
    else unexpected opening.describe t c

/-- Moves onto a token found at some distance and answers with its index. -/
def moveTo? (find : List Token → Option Nat) : Parser (Option Nat) := fun c =>
  match find c.after with
  | some n => .ok (some (c.position + n), c.skip n)
  | none => .ok (none, c)

/-- Moves onto a token found at some distance; `expected` says what was sought. -/
def moveTo (find : List Token → Option Nat) (expected : String) : Parser Nat := fun c =>
  match find c.after with
  | some n => .ok (c.position + n, c.skip n)
  | none => unexpectedEnd expected c

/-- Moves onto the closer of the pair that the next token opens. -/
def moveToCloser (opening closing : TokenKind) : Parser Nat := do
  let n ← closerDistance opening closing
  fun c => .ok (c.position + n, c.skip n)

/-- A cursor over the tokens before one found ahead; that token is read too. Nothing is read if there
is none. -/
def spanBefore? (find : List Token → Option Nat) : Parser (Option Cursor) := fun c =>
  match find c.after with
  | some n => .ok (some (c.ahead n), c.skip (n + 1))
  | none => .ok (none, c)

/-- A cursor over the tokens before one found ahead; that token is read too. -/
def spanBefore (find : List Token → Option Nat) (expected : String) : Parser Cursor := fun c =>
  match find c.after with
  | some n => .ok (c.ahead n, c.skip (n + 1))
  | none => unexpectedEnd expected c

/-- A cursor over the pair that the next token opens, without its closer; the pair is read. -/
def spanToCloser (opening closing : TokenKind) : Parser Cursor := do
  let n ← closerDistance opening closing
  fun c => .ok (c.ahead n, c.skip (n + 1))

/-- A cursor over the interior of the pair that the next token opens; the pair is read. -/
def interior (opening closing : TokenKind) : Parser Cursor := do
  let n ← closerDistance opening closing
  fun c => .ok ((c.skip 1).ahead (n - 1), c.skip (n + 1))

end Parser

/-! ### Parts of the span -/

section Scoped

variable {m : Type → Type} [Monad m] [MonadStateOf Cursor m] [MonadLiftT Parser m] {α : Type}

/-- Reads a part of the span by its own cursor; the outer cursor stays where it is. -/
def within (part : Cursor) (p : m α) : m α := do
  let outer : Cursor ← get
  set part
  let a ← p
  set outer
  return a

/-- Reads the interior of a balanced pair, and the pair with it. -/
def enclosed (opening closing : TokenKind) (p : m α) : m α := do
  let part ← Parser.interior opening closing
  within part p

/-- Gives what is read the site of its tokens. -/
def tagged (p : m (Site → α)) : m α := do
  let first : Cursor ← get
  let node ← p
  let last : Cursor ← get
  return node ⟨first.location, last.rangeFrom first.position⟩

/-- Reads elements up to the end of the span, but no more than a number of them. -/
def untilEndUpTo (p : m α) : Nat → m (List α)
  | 0 => do
    if ← Parser.atEnd then return []
    else Parser.bottomless (α := List α)
  | n + 1 => do
    if ← Parser.atEnd then return []
    else
      let a ← p
      let as ← untilEndUpTo p n
      return a :: as

/-- Reads elements up to the end of the span. -/
def untilEnd (p : m α) : m (List α) := do
  let c : Cursor ← get
  untilEndUpTo p c.after.length

end Scoped

namespace Parser

variable {α : Type}

/-- Reads with a parser and demands that it reaches the end of the span. -/
def filling (expected : String) (p : Parser α) : Parser α := do
  let a ← p
  expectEnd expected
  return a

/-- Reads what comes before the next semicolon, and the semicolon. -/
def beforeSemicolon (p : Parser α) : Parser α := do
  let part ← spanBefore (distanceTo? (.op .semicolon)) (TokenKind.op .semicolon).describe
  within part p

/-! ### Lists -/

/-- Reads the comma between two elements. -/
def comma (expected : String) : Parser Unit := do
  let _ ← expectAs (.op .comma) expected

/-- Reads elements, each led by a separator, up to the end of the span, but no more than a number of
them. -/
def followersUpTo (separator : Parser Unit) (p : Parser α) : Nat → Parser (List α)
  | 0 => do
    if ← atEnd then return []
    else bottomless
  | n + 1 => do
    if ← atEnd then return []
    else
      separator
      let a ← p
      let as ← followersUpTo separator p n
      return a :: as

/-- Reads elements, each led by a separator, up to the end of the span. -/
def followers (separator : Parser Unit) (p : Parser α) : Parser (List α) := fun c =>
  followersUpTo separator p c.after.length c

/-- Reads one or more elements with separators between them, up to the end of the span. -/
def listBy (separator : Parser Unit) (p : Parser α) : Parser (List α) := do
  let a ← p
  let as ← followers separator p
  return a :: as

/-- Reads elements, each but the last followed by a comma, up to the end of the span, but no more
than a number of them. -/
def entriesUpTo (expected : String) (p : Parser α) : Nat → Parser (List α)
  | 0 => do
    if ← atEnd then return []
    else bottomless
  | n + 1 => do
    if ← atEnd then return []
    else
      let a ← p
      if ← atEnd then return [a]
      else
        comma expected
        let as ← entriesUpTo expected p n
        return a :: as

/-- Reads a list that may be empty and may end in a comma, up to the end of the span. -/
def entries (expected : String) (p : Parser α) : Parser (List α) := fun c =>
  entriesUpTo expected p c.after.length c

/-- Reads elements that open with a square bracket, but no more than a number of them. -/
def bracketedUpTo (p : Parser α) : Nat → Parser (List α)
  | 0 => do
    if ← check (.op .lBracket) then bottomless
    else return []
  | n + 1 => do
    if ← check (.op .lBracket) then
      let a ← p
      let as ← bracketedUpTo p n
      return a :: as
    else return []

/-- Reads elements as long as the next token is an opening square bracket. -/
def bracketed (p : Parser α) : Parser (List α) := fun c => bracketedUpTo p c.after.length c

end Parser

end SystemVerilog
