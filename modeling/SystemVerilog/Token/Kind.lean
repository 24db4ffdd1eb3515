import SystemVerilog.Token.Keyword
import SystemVerilog.Token.Operator

/-!
# Kinds of tokens

A token is an operator, a reserved word, or one of seven kinds recognised by their shape. Operators
and reserved words have one spelling each (`TokenKind.fixedText?`); the other kinds are described
by a phrase.
-/

namespace SystemVerilog

/-- What a token is. -/
inductive TokenKind where
  | identifier
  | literal
  | stringLiteral
  | lineComment
  | blockComment
  | directive
  /-- The mark after the last token of a text. -/
  | eof
  | op (o : Operator)
  | word (k : Keyword)
  deriving DecidableEq, Repr, Inhabited

namespace TokenKind

/-- The only spelling of an operator or reserved word. -/
def fixedText? : TokenKind → Option String
  | op o => some o.spelling
  | word k => some k.spelling
  | _ => none

/-- A kind as messages name it. -/
def describe : TokenKind → String
  | identifier => "identifier"
  | literal => "literal"
  | stringLiteral => "string literal"
  | lineComment => "line comment"
  | blockComment => "block comment"
  | directive => "directive"
  | eof => "end of input"
  | op o => s!"'{o.spelling}'"
  | word k => s!"'{k.spelling}'"

/-- Every kind. -/
def all : List TokenKind :=
  [identifier, literal, stringLiteral, lineComment, blockComment, directive, eof]
    ++ Operator.all.map op ++ Keyword.all.map word

/-! ### Classes of kinds -/

def isOperator : TokenKind → Bool
  | op _ => true
  | _ => false

def isKeyword : TokenKind → Bool
  | word _ => true
  | _ => false

def isComment : TokenKind → Bool
  | lineComment | blockComment => true
  | _ => false

/-- Reserved words in a class. -/
def isWordWith (p : Keyword → Bool) : TokenKind → Bool
  | word k => p k
  | _ => false

def isTimeUnit : TokenKind → Bool := isWordWith Keyword.isTimeUnit

def isDirection : TokenKind → Bool := isWordWith Keyword.isDirection

def isNetType : TokenKind → Bool := isWordWith Keyword.isNetType

def isIntegerVectorType : TokenKind → Bool := isWordWith Keyword.isIntegerVectorType

def isIntegerAtomType : TokenKind → Bool := isWordWith Keyword.isIntegerAtomType

def isNonIntegerType : TokenKind → Bool := isWordWith Keyword.isNonIntegerType

/-- Anything spelled like an identifier. -/
def isWord (kind : TokenKind) : Bool := kind == identifier || kind.isKeyword

/-- Kinds that can serve as a name: identifiers and the suffixes of time literals. -/
def isName (kind : TokenKind) : Bool := kind == identifier || kind.isTimeUnit

/-- Kinds that can open a data type, which may lack its keyword. -/
def startsDataType (kind : TokenKind) : Bool :=
  kind.isIntegerVectorType || kind.isIntegerAtomType || kind.isNonIntegerType
    || kind == word .kwSigned || kind == word .kwUnsigned || kind == op .lBracket

/-- The reserved word that a kind is, if it is in a class. -/
def keywordIn? (p : Keyword → Bool) : TokenKind → Option Keyword
  | word k => if p k then some k else none
  | _ => none

/-- The kind of an identifier-shaped text: a reserved word if it is one. -/
def ofWord (text : String) : TokenKind :=
  match Keyword.ofWord? text with
  | some k => word k
  | none => identifier

end TokenKind

end SystemVerilog
