import SystemVerilog.Literal.Numeral

/-!
# Literals

The kinds of literals, and the number that a plain or based integer literal denotes.
-/

namespace SystemVerilog

/-- What a literal is, by its shape. -/
inductive LiteralKind where
  /-- An integer with a base, such as `8'hff`. -/
  | based
  /-- A fill, such as `'0`. -/
  | unbased
  | integer
  | real
  | string
  deriving DecidableEq, Repr, Inhabited

namespace LiteralKind

/-- The kind of a number, by its characters. -/
def ofNumber (text : List Char) : LiteralKind :=
  match text with
  | ['\'', _] => unbased
  | _ =>
    if text.contains '\'' then based
    else if text.any (fun c => c == '.' || c == 'e' || c == 'E') then real
    else integer

end LiteralKind

/-- Whether a character marks a based literal as signed. -/
def isSignMark (c : Char) : Bool := c == 's' || c == 'S'

/-- The radix and the digits, separators removed, of a based literal. -/
def basedDigits? (text : List Char) : Option (Radix × List Char) :=
  match text.dropWhile (· != '\'') with
  | [] => none
  | _ :: spec =>
    match spec.dropWhile isSignMark with
    | [] => none
    | letter :: digits =>
      (Radix.ofLetter? letter).map fun radix => (radix, digits.filter (· != '_'))

/-- The radix and the digits, separators removed, of a plain or based integer literal. The digits
are not checked against the radix. -/
def integerDigits? (kind : LiteralKind) (text : List Char) : Option (Radix × List Char) :=
  match kind with
  | .integer => some (.decimal, text.filter (· != '_'))
  | .based => basedDigits? text
  | .unbased | .real | .string => none

/-- The number that a plain or based integer literal denotes, if all its digits are known and it is
below the bound on values. -/
def integerValue? (kind : LiteralKind) (text : List Char) : Option Nat :=
  (integerDigits? kind text).bind fun (radix, digits) => (readDigits radix digits).toOption

end SystemVerilog
