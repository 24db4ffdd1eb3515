import SystemVerilog.Lexical.Characters
import SystemVerilog.Literal.Basic

/-!
# Numbers

The shapes of numeric literals: based integers such as `8'hff`, reals, plain digit runs and the
one-digit fills `'0`, `'1`, `'x`, `'z`. Each function answers with a number of characters.
-/

namespace SystemVerilog

/-! ### Based integers -/

/-- The length of the decimal size before the base; zero if there is none. -/
def sizeLength (cs : List Char) : Nat :=
  if startsWith Char.isDigit cs then runLength isDigitPart cs else 0

/-- Characters that may stand among the digits of a based literal of any radix. -/
def isBasedDigit (c : Char) : Bool := (digitValue? c).isSome || isUnknownDigit c || c == '_'

/-- A based literal at the start of a text. -/
structure BasedShape where
  length : Nat
  radix : Radix
  digits : List Char

/-- Whether every digit is one of the radix. -/
def BasedShape.valid (shape : BasedShape) : Bool :=
  shape.digits.all fun c => (shape.radix.digit? c).isSome || isUnknownDigit c || c == '_'

/-- The radix letter and the digits after an apostrophe, `before` characters in. -/
def basedTail? (before : Nat) : List Char → Option BasedShape
  | [] => none
  | letter :: cs =>
    match Radix.ofLetter? letter, cs.takeWhile isBasedDigit with
    | some radix, d :: ds => some ⟨before + 1 + (ds.length + 1), radix, d :: ds⟩
    | _, _ => none

/-- The based literal that leads a text, its digits not yet checked against its radix. -/
def basedShape? (cs : List Char) : Option BasedShape :=
  match cs.drop (sizeLength cs) with
  | '\'' :: rest =>
    if startsWith isSignMark rest then basedTail? (sizeLength cs + 2) (rest.drop 1)
    else basedTail? (sizeLength cs + 1) rest
  | _ => none

/-! ### Reals -/

/-- The length of an exponent; zero if the letter is not followed by a digit. -/
def exponentLength : List Char → Nat
  | [] => 0
  | e :: cs =>
    if e == 'e' || e == 'E' then
      let sign := if startsWith (fun c => c == '+' || c == '-') cs then 1 else 0
      if startsWith Char.isDigit (cs.drop sign) then
        1 + sign + runLength isDigitPart (cs.drop sign)
      else 0
    else 0

/-- The length of a fraction with its point; zero if the point is not followed by a digit. -/
def fractionLength : List Char → Nat
  | '.' :: cs => if startsWith Char.isDigit cs then 1 + runLength isDigitPart cs else 0
  | _ => 0

/-- The length of a decimal number, with its fraction and exponent as far as they are there. -/
def decimalLength (cs : List Char) : Nat :=
  let whole := runLength isDigitPart cs
  let fraction := fractionLength (cs.drop whole)
  whole + fraction + exponentLength (cs.drop (whole + fraction))

/-! ### Fills -/

/-- Whether an apostrophe and this character fill a whole vector with one digit. -/
def isFillDigit (c : Char) : Bool :=
  c == '0' || c == '1' || c == 'x' || c == 'X' || c == 'z' || c == 'Z'

/-- Whether a text starts with an apostrophe and a fill digit. -/
def startsFill : List Char → Bool
  | '\'' :: c :: _ => isFillDigit c
  | _ => false

end SystemVerilog
