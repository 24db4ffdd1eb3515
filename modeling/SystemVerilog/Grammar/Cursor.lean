import SystemVerilog.Grammar.Fault
import SystemVerilog.Tree.Site

/-!
# Cursors

A cursor stands somewhere in a span of the tokens of a source: `before` holds the tokens of the span
that have been read, nearest first, and `after` those still to read. All positions are indices into
the whole list of tokens, so that ranges from different spans can be compared. A cursor never
changes its span; `Cursor.ahead` and `Cursor.span` make fresh cursors over parts of it.
-/

namespace SystemVerilog

/-- A place in a span of tokens. -/
structure Cursor where
  /-- The place reported for the end of what has been read before any token of the span: just past
  the token before the span, or the start of the source. -/
  lead : Location
  /-- The index of the first token of the span. -/
  start : Nat
  before : List Token
  after : List Token
  deriving Repr

namespace Cursor

/-- A cursor over all tokens; the end mark does not belong to the span. -/
def root (tokens : List Token) : Cursor where
  lead := (tokens.head?.map fun t => t.location).getD .origin
  start := 0
  before := []
  after :=
    match tokens.getLast? with
    | some t => if t.kind = .eof then tokens.dropLast else tokens
    | none => []

/-! ### Where the cursor stands -/

/-- The index of the next token. -/
def position (c : Cursor) : Nat := c.start + c.before.length

/-- The index just past the span. -/
def finish (c : Cursor) : Nat := c.position + c.after.length

/-- The range of the span. -/
def bounds (c : Cursor) : TokenRange := ⟨c.start, c.finish⟩

/-- The range from an index to the cursor. -/
def rangeFrom (c : Cursor) (start : Nat) : TokenRange := ⟨start, c.position⟩

/-- Whether the span has been read to its end. -/
def atEnd (c : Cursor) : Bool := c.after.isEmpty

/-- The place just past the last token read. -/
def readUpTo (c : Cursor) : Location :=
  match c.before with
  | t :: _ => t.stop
  | [] => c.lead

/-- The place just past the span. -/
def endLocation (c : Cursor) : Location :=
  match c.after.getLast? with
  | some t => t.stop
  | none => c.readUpTo

/-- The place of the next token, or the place just past the span. -/
def location (c : Cursor) : Location :=
  match c.after with
  | t :: _ => t.location
  | [] => c.readUpTo

/-! ### Looking at tokens -/

/-- The next token. -/
def current? (c : Cursor) : Option Token := c.after.head?

/-- The kind of the next token. -/
def currentKind? (c : Cursor) : Option TokenKind := c.current?.map fun t => t.kind

/-- The token some places ahead. -/
def peek? (c : Cursor) (n : Nat) : Option Token := c.after[n]?

/-- The kind of the token some places ahead. -/
def peekKind? (c : Cursor) (n : Nat) : Option TokenKind := (c.peek? n).map fun t => t.kind

/-- The token read last. -/
def last? (c : Cursor) : Option Token := c.before.head?

/-- All tokens of the span. -/
def tokens (c : Cursor) : List Token := c.before.reverse ++ c.after

/-- The token of the span at an index. -/
def token? (c : Cursor) (index : Nat) : Option Token :=
  if index < c.start then none else c.tokens[index - c.start]?

/-- Whether the next token has this kind. -/
def check (c : Cursor) (kind : TokenKind) : Bool := c.currentKind? == some kind

/-! ### Moving and narrowing -/

/-- Reads some tokens, or all that are left. -/
def skip : Nat → Cursor → Cursor
  | 0, c => c
  | n + 1, c =>
    match c.after with
    | [] => c
    | t :: ts => skip n { c with before := t :: c.before, after := ts }

/-- A fresh cursor over the next tokens. -/
def ahead (c : Cursor) (n : Nat) : Cursor where
  lead := c.readUpTo
  start := c.position
  before := []
  after := c.after.take n

/-- A fresh cursor over the part of the span between two indices, which are first brought into the
span and in order. -/
def span (c : Cursor) (start stop : Nat) : Cursor :=
  let first := max c.start (min start c.finish)
  let last := max first (min stop c.finish)
  let offset := first - c.start
  { lead :=
      match offset with
      | 0 => c.lead
      | n + 1 => (c.tokens[n]?.map fun t => t.stop).getD c.lead
    start := first
    before := []
    after := (c.tokens.drop offset).take (last - first) }

/-! ### Lemmas -/

@[simp] theorem skip_zero (c : Cursor) : c.skip 0 = c := rfl

theorem skip_cons (n : Nat) {c : Cursor} {t : Token} {ts : List Token} (h : c.after = t :: ts) :
    c.skip (n + 1) = skip n { c with before := t :: c.before, after := ts } := by
  rw [skip, h]

@[simp] theorem skip_start (n : Nat) (c : Cursor) : (c.skip n).start = c.start := by
  fun_induction skip n c <;> simp_all

@[simp] theorem skip_lead (n : Nat) (c : Cursor) : (c.skip n).lead = c.lead := by
  fun_induction skip n c <;> simp_all

@[simp] theorem skip_after (n : Nat) (c : Cursor) : (c.skip n).after = c.after.drop n := by
  fun_induction skip n c <;> simp_all

@[simp] theorem skip_before (n : Nat) (c : Cursor) :
    (c.skip n).before = (c.after.take n).reverse ++ c.before := by
  fun_induction skip n c <;> simp_all

/-- Reading tokens does not change the tokens of the span. -/
@[simp] theorem skip_tokens (n : Nat) (c : Cursor) : (c.skip n).tokens = c.tokens := by
  simp [tokens]

end Cursor

end SystemVerilog
