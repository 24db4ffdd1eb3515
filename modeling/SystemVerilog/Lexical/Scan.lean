import SystemVerilog.Lexical.Delimited
import SystemVerilog.Lexical.Fault
import SystemVerilog.Lexical.Number
import SystemVerilog.Token.Basic

/-!
# The lexeme at the start of a text

`scanLexeme` recognises the one lexeme that leads a text, and answers with its kind and its length
in characters. The classes are tried in a fixed order, and the first that applies decides: comments,
strings, numbers, directives, operators, and last reserved words and identifiers.
-/

namespace SystemVerilog

/-- What one class of lexemes says about a text: it is not concerned, or it takes a number of
characters, or it finds a fault. -/
abbrev Recognition := Except LexicalFault (Option (TokenKind × Nat))

/-- The run of word characters and apostrophes that a message about a bad number shows. -/
def literalRun (cs : List Char) : String :=
  String.ofList (cs.takeWhile fun c => isWordPart c || c == '\'')

/-! ### The classes -/

/-- A line comment runs up to the next line break, a block comment to its first closing mark. -/
def scanComment : List Char → Recognition
  | '/' :: '/' :: cs => .ok (some (.lineComment, 2 + runLength (fun c => !isLineBreak c) cs))
  | '/' :: '*' :: cs =>
    match commentRestLength? cs with
    | some n => .ok (some (.blockComment, 2 + n))
    | none => .error .unterminatedBlockComment
  | _ => .ok none

/-- A string runs up to its closing quote. -/
def scanString : List Char → Recognition
  | '"' :: cs =>
    match stringRestLength? cs with
    | some n => .ok (some (.stringLiteral, 1 + n))
    | none => .error .unterminatedString
  | _ => .ok none

/-- A based literal must have digits of its radix and no word character behind it; so must a fill
have none behind it. A plain number before an apostrophe is a size without a base. -/
def scanNumber (cs : List Char) : Recognition :=
  match basedShape? cs with
  | some shape =>
    if startsWith isWordPart (cs.drop shape.length) || !shape.valid then
      .error (.invalidLiteral (literalRun cs))
    else .ok (some (.literal, shape.length))
  | none =>
    if startsWith Char.isDigit cs then
      if startsWith (· == '\'') (cs.drop (runLength isDigitPart cs)) then
        .error (.invalidLiteral (literalRun cs))
      else .ok (some (.literal, decimalLength cs))
    else if startsFill cs then
      if startsWith isWordPart (cs.drop 2) then .error (.invalidLiteral (literalRun cs))
      else .ok (some (.literal, 2))
    else .ok none

/-- A directive is a back quote with an identifier behind it. -/
def scanDirective : List Char → Recognition
  | '\x60' :: c :: cs =>
    if isWordStart c then .ok (some (.directive, 2 + runLength isWordPart cs)) else .ok none
  | _ => .ok none

/-- Of the operators that lead the text, the longest is taken. -/
def scanOperator (cs : List Char) : Recognition :=
  .ok ((Operator.leading? cs).map fun (o, n) => (.op o, n))

/-- A run of word characters is a reserved word or an identifier as a whole. -/
def scanWord : List Char → Recognition
  | [] => .ok none
  | c :: cs =>
    if isWordStart c then
      let word := c :: cs.takeWhile isWordPart
      .ok (some (.ofWord (String.ofList word), word.length))
    else .ok none

/-! ### The order of the classes -/

/-- The answer of the first class that is concerned. -/
def Recognition.orElse (first : Recognition) (next : Unit → Recognition) : Recognition :=
  match first with
  | .ok none => next ()
  | answer => answer

/-- The fault of a text that no class is concerned with. -/
def strayFault (c : Char) : LexicalFault :=
  if c = '\\' then .unexpectedEscape else .unrecognizedCharacter c

/-- The kind and length of the lexeme that leads the text `c :: cs`. -/
def scanLexeme (c : Char) (cs : List Char) : Except LexicalFault (TokenKind × Nat) :=
  let text := c :: cs
  let answer := (scanComment text).orElse fun _ => (scanString text).orElse fun _ =>
    (scanNumber text).orElse fun _ => (scanDirective text).orElse fun _ =>
    (scanOperator text).orElse fun _ => scanWord text
  match answer with
  | .ok (some found) => .ok found
  | .ok none => .error (strayFault c)
  | .error fault => .error fault

end SystemVerilog
