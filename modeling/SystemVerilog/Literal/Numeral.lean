import SystemVerilog.Literal.Radix

/-!
# Reading digits

`readDigits` gives the value of a digit string in a radix, as long as it stays below `valueBound`.
The digits are taken from the left, and each is checked to be a digit before the value with it is
compared to the bound: of an invalid digit and an overflow, the one further left is reported.
-/

namespace SystemVerilog

/-- Values of literals are below this bound: they fit 128 bits. -/
def valueBound : Nat := Nat.pow 2 128

/-- Why a digit string has no value. -/
inductive NumeralFault where
  | noDigits
  | invalidDigit
  | overflow
  deriving DecidableEq, Repr

/-- Continues a number by the digits to its right. -/
def readDigitsFrom (radix : Radix) (value : Nat) : List Char → Except NumeralFault Nat
  | [] => .ok value
  | c :: cs =>
    match radix.digit? c with
    | none => .error .invalidDigit
    | some digit =>
      let next := value * radix.base + digit
      if next < valueBound then readDigitsFrom radix next cs else .error .overflow

/-- The value of a digit string. One plus sign may lead it. -/
def readDigits (radix : Radix) : List Char → Except NumeralFault Nat
  | [] => .error .noDigits
  | '+' :: c :: cs => readDigitsFrom radix 0 (c :: cs)
  | c :: cs => readDigitsFrom radix 0 (c :: cs)

end SystemVerilog
