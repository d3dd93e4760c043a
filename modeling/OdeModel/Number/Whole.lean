import OdeModel.Text.Operand

/-!
# Whole numbers in text

Decimal digits of whole numbers, written and read.
-/

namespace OdeModel

/-- The decimal digits of a natural number. -/
def natText (n : Nat) : Text := Nat.toDigits 10 n

/-- The decimal digits of an integer, after a minus sign when it is negative. -/
def intText (n : Int) : Text :=
  if n < 0 then '-' :: natText n.natAbs else natText n.natAbs

/-- The number that a run of decimal digits stands for. -/
def digitsValue (digits : Text) : Nat :=
  digits.foldl (fun n c => 10 * n + (c.toNat - '0'.toNat)) 0

/-- Reads decimal digits, at least one and nothing else. -/
def readDigits? (s : Text) : Option Nat :=
  if !s.isEmpty && s.all Char.isDigit then some (digitsValue s) else none

/-- Reads a count: digits, perhaps after a plus sign, below `2 ^ 64`. -/
def readCount? (s : Text) : Option Nat := do
  let n ← readDigits? (if s.head? = some '+' then s.tail else s)
  if n < Nat.pow 2 64 then some n else none

/-- Reads an integer: digits, perhaps after a sign. -/
def readInt? (s : Text) : Option Int := do
  let n ← readDigits? (Text.spanSign s).2
  some (if (Text.spanSign s).1 = ['-'] then -n else n)

end OdeModel
