/-!
# Radices of integer literals

A based literal names its radix by a letter of either case. A digit is valid in a radix if its value
is below it; the letters for unknown and floating bits stand for digits of every radix.
-/

namespace SystemVerilog

/-- The radix of an integer literal. -/
inductive Radix where
  | binary
  | octal
  | decimal
  | hexadecimal
  deriving DecidableEq, Repr, Inhabited

/-- The value of a digit in the largest radix. -/
def digitValue? (c : Char) : Option Nat :=
  if '0' ≤ c ∧ c ≤ '9' then some (c.toNat - '0'.toNat)
  else if 'a' ≤ c ∧ c ≤ 'f' then some (c.toNat - 'a'.toNat + 10)
  else if 'A' ≤ c ∧ c ≤ 'F' then some (c.toNat - 'A'.toNat + 10)
  else none

namespace Radix

/-- The number of values of one digit. -/
def base : Radix → Nat
  | binary => 2
  | octal => 8
  | decimal => 10
  | hexadecimal => 16

/-- The radix that a letter names. -/
def ofLetter? : Char → Option Radix
  | 'b' | 'B' => some binary
  | 'o' | 'O' => some octal
  | 'd' | 'D' => some decimal
  | 'h' | 'H' => some hexadecimal
  | _ => none

/-- The value of a digit of this radix. -/
def digit? (radix : Radix) (c : Char) : Option Nat :=
  (digitValue? c).filter (· < radix.base)

end Radix

end SystemVerilog
