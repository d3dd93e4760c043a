import OdeModel.Number.Shortest

/-!
# Values

Arithmetic keeps whole numbers exact as long as they fit into 64 bits, so an
array index comes out exact. All else is a double.
-/

namespace OdeModel

/-- The result of an expression. -/
inductive Value where
  /-- A whole number, within `Value.smallest` and `Value.largest`. -/
  | whole (n : Int)
  /-- A double. -/
  | real (x : Float)

namespace Value

/-- The smallest whole number of 64 bits. -/
def smallest : Int := -Int.pow 2 63

/-- The largest whole number of 64 bits. -/
def largest : Int := Int.pow 2 63 - 1

/-- The exact result of a whole-number operation, where it fits. -/
def fit? (n : Int) : Option Value :=
  if smallest ≤ n ∧ n ≤ largest then some (whole n) else none

/-- The value as a double. -/
def toFloat : Value → Float
  | whole n => Float.ofInt n
  | real x => x

/-- The value as a whole number, if it is one. -/
def toInt? : Value → Option Int
  | whole n => some n
  | real _ => none

/-- The value in text. -/
def text : Value → Text
  | whole n => intText n
  | real x => floatText x

/-- A double without a fraction as a whole number, where it fits. -/
def ofFloat (x : Float) : Value :=
  if x.isFinite && x.abs < 9223372036854775808.0 then whole x.toInt64.toInt else real x

/-- The number with the opposite sign. -/
def neg : Value → Value
  | whole n => (fit? (-n)).getD (real (-Float.ofInt n))
  | real x => real (-x)

end Value

/-- The operators with two operands of one rank or another. -/
inductive Operator where
  | add
  | sub
  | mul
  | div
  deriving Repr, DecidableEq

namespace Operator

/-- The sign of the operator. -/
def sign : Operator → Char
  | add => '+'
  | sub => '-'
  | mul => '*'
  | div => '/'

/-- The whole-number result, where there is one. A quotient never is one. -/
def wholeResult? : Operator → Int → Int → Option Value
  | add, a, b => Value.fit? (a + b)
  | sub, a, b => Value.fit? (a - b)
  | mul, a, b => Value.fit? (a * b)
  | div, _, _ => none

/-- The result on doubles. -/
def onFloats : Operator → Float → Float → Float
  | add, x, y => x + y
  | sub, x, y => x - y
  | mul, x, y => x * y
  | div, x, y => x / y

/-- Whole numbers give a whole number where it is exact, all else a double. -/
def apply (op : Operator) (a b : Value) : Value :=
  let rounded := Value.real (op.onFloats a.toFloat b.toFloat)
  match a, b with
  | .whole m, .whole n => (op.wholeResult? m n).getD rounded
  | _, _ => rounded

end Operator

namespace Value

/-- The exact power of a whole number, where the exponent is one of 32 bits and
the power fits into 64. A base of two or more in size overflows with any
exponent above 63, so only small powers are ever formed. -/
def exactPower? (base : Int) (exponent : Int) : Option Value :=
  if exponent < 0 ∨ Int.pow 2 32 ≤ exponent then none
  else if base.natAbs ≤ 1 then
    fit? (if exponent = 0 then 1 else if exponent % 2 = 0 then base * base else base)
  else if 63 < exponent then none
  else fit? (base.pow exponent.toNat)

/-- A whole power where it is exact, else one of doubles. -/
def power (base exponent : Value) : Value :=
  let rounded := Value.real (base.toFloat.pow exponent.toFloat)
  match base, exponent with
  | .whole b, .whole e => (exactPower? b e).getD rounded
  | _, _ => rounded

end Value

end OdeModel
