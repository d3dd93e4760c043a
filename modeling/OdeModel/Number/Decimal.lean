import OdeModel.Number.Whole

/-!
# Decimal literals

A decimal literal has digits with at most one point among them, and perhaps an
exponent. The digits may be missing on one side of the point but not on both.
-/

namespace OdeModel

/-- The number `digits * 10 ^ scale`. -/
structure Decimal where
  /-- The digits before and after the point, as one number. -/
  digits : Nat
  /-- The power of ten of the last digit. -/
  scale : Int
  deriving Repr, DecidableEq

namespace Decimal

/-- Reads the exponent of a literal; an empty text stands for zero. -/
def readExponent? : Text → Option Int
  | [] => some 0
  | e :: rest => if e == 'e' || e == 'E' then readInt? rest else none

/-- Reads the digits after the point and then the exponent. -/
def readFraction? (whole rest : Text) : Option Decimal := do
  let fraction := rest.takeWhile Char.isDigit
  let exponent ← readExponent? (rest.dropWhile Char.isDigit)
  if (whole ++ fraction).isEmpty then none
  else some ⟨digitsValue (whole ++ fraction), exponent - fraction.length⟩

/-- Reads an unsigned literal. -/
def read? (s : Text) : Option Decimal :=
  let whole := s.takeWhile Char.isDigit
  match s.dropWhile Char.isDigit with
  | '.' :: rest => readFraction? whole rest
  | rest => do
      let exponent ← readExponent? rest
      if whole.isEmpty then none else some ⟨digitsValue whole, exponent⟩

/-- The double nearest to the number, the one with the even last bit where two
are equally near. A number far outside of the range of doubles is infinity or
zero at once: `digits` lies between powers of ten that its binary length gives. -/
def toFloat (d : Decimal) : Float :=
  if d.digits = 0 then 0
  else if 400 < (d.digits.log2 / 4 : Nat) + d.scale then 1.0 / 0.0
  else if (d.digits.log2 / 3 + 2 : Nat) + d.scale < -400 then 0
  else Float.ofScientific d.digits (d.scale < 0) d.scale.natAbs

end Decimal

namespace Text

/-- A number literal with or without a sign, such as `1`, `-2.5` or `.3e-4`. -/
def isNumeric (s : Text) : Bool :=
  (Decimal.read? (spanSign s).2).isSome &&
    (spanSign s).2.head?.any fun c => c.isDigit || c == '.'

end Text

end OdeModel
