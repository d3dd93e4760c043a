import OdeModel.Number.Whole
import OdeModel.Number.Double

/-!
# Doubles in text

A double is written with the fewest digits that read back as the same double,
and of those with the ones nearest to it. The powers of ten form ever finer
grids; the coarsest grid that has a point which reads back gives the digits.
-/

namespace OdeModel

namespace Magnitude

/-- The point of the grid `10 ^ place` that is nearest to the number and reads
back as it, the upper one where two are equally near. A point reads back when it
is less than half a unit away, or just half a unit and the last bit is even.
Distances are in quarters of a unit over a common denominator. -/
def nearestOnGrid? (m : Magnitude) (place : Int) : Option Nat :=
  let unit := Nat.pow 2 m.exponent.toNat * Nat.pow 10 (-place).toNat
  let step := 4 * Nat.pow 10 place.toNat * Nat.pow 2 (-m.exponent).toNat
  let value := 4 * m.units * unit
  let lower := value / step
  let below := value - lower * step
  let above := (lower + 1) * step - value
  let readsBack := fun (distance reach : Nat) =>
    distance < reach || (m.units % 2 == 0 && distance == reach)
  let lowerReads := readsBack below (if m.narrowBelow then unit else 2 * unit)
  let upperReads := readsBack above (2 * unit)
  if upperReads && (!lowerReads || above ≤ below) then some (lower + 1)
  else if lowerReads then some lower
  else none

/-- Tries grid after grid, each ten times as fine as the one before. -/
def refine (m : Magnitude) : (grids : Nat) → (place : Int) → Nat × Int
  | 0, place => (m.units * Nat.pow 2 m.exponent.toNat * Nat.pow 10 (-place).toNat
      / (Nat.pow 10 place.toNat * Nat.pow 2 (-m.exponent).toNat), place)
  | grids + 1, place =>
      match m.nearestOnGrid? place with
      | some point => (point, place)
      | none => m.refine grids (place - 1)

/-- The shortest digits of a number that is not zero, and the power of ten of
the last one. The search starts above the number: `30103 / 100000` is the
logarithm of two to the base ten. -/
def shortest (m : Magnitude) : Nat × Int :=
  m.refine 24 (((m.units.log2 + m.exponent) * 30103).fdiv 100000 + 2)

end Magnitude

/-- Writes `digits * 10 ^ place` without an exponent: zeros fill the places up
to the point, and a point stands only where a digit follows. -/
def positionalText (digits : Nat) (place : Int) : Text :=
  let figures := natText digits
  let behind := (-place).toNat
  if behind = 0 then figures ++ List.replicate place.toNat '0'
  else
    let padded := List.replicate (behind + 1 - figures.length) '0' ++ figures
    padded.take (padded.length - behind) ++ '.' :: padded.drop (padded.length - behind)

/-- The text of a double: shortest digits, never an exponent, no point for a
whole number, a minus sign also for the negative zero. -/
def floatText (x : Float) : Text :=
  if x.isNaN then "NaN".toList
  else
    let size :=
      if x.isInf then "inf".toList
      else if x == 0 then "0".toList
      else
        let (digits, place) := (Magnitude.ofFloat x).shortest
        positionalText digits place
    if hasMinusSign x then '-' :: size else size

end OdeModel
