import OdeModel.Text.Basic

/-!
# Doubles as exact numbers

A finite double is a whole number of units, each a power of two. Seen that way
a remainder is one of natural numbers and loses nothing.
-/

namespace OdeModel

/-- The exact size of a finite double: `units * 2 ^ exponent`. -/
structure Magnitude where
  /-- Number of units in the last place. -/
  units : Nat
  /-- The unit is two to this power. -/
  exponent : Int
  /-- The next smaller double is only half a unit away. -/
  narrowBelow : Bool

namespace Magnitude

/-- The size of a finite double. -/
def ofFloat (x : Float) : Magnitude :=
  let bits : Nat := x.toBits.toNat
  let field : Nat := bits / Nat.pow 2 52 % Nat.pow 2 11
  let fraction : Nat := bits % Nat.pow 2 52
  if field = 0 then ⟨fraction, -1074, false⟩
  else ⟨Nat.pow 2 52 + fraction, Int.ofNat field - 1075, fraction == 0 && 1 < field⟩

end Magnitude

/-- The sign bit is set; true of the negative zero too. -/
def hasMinusSign (x : Float) : Bool := Nat.pow 2 63 ≤ x.toBits.toNat

/-- What is left of `x` after taking away as many whole `y` as fit, with the
sign of `x`. -/
def truncatedRemainder (x y : Float) : Float :=
  if x.isNaN || y.isNaN || x.isInf || y == 0 then 0.0 / 0.0
  else if y.isInf then x
  else
    let a := Magnitude.ofFloat x
    let b := Magnitude.ofFloat y
    let exponent := min a.exponent b.exponent
    let inUnits := fun (m : Magnitude) => m.units * Nat.pow 2 (m.exponent - exponent).toNat
    let size := (Float.ofNat (inUnits a % inUnits b)).scaleB exponent
    if hasMinusSign x then -size else size

/-- The remainder that is never negative. -/
def euclideanRemainder (x y : Float) : Float :=
  let r := truncatedRemainder x y
  if r < 0 then r + y.abs else r

end OdeModel
