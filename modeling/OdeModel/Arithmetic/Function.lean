import OdeModel.Arithmetic.Value

/-!
# Built-in functions

The functions an expression may call, by name and number of arguments. There
is no result for a name that is none of them, and none where a whole number
leaves its range or is divided by zero.
-/

namespace OdeModel

namespace Value

/-- The size of a value. -/
def abs? : Value → Option Value
  | whole n => fit? n.natAbs
  | real x => some (real x.abs)

/-- One for numbers from zero on, else zero. -/
def step (x : Float) : Value := whole (if 0 ≤ x then 1 else 0)

/-- One, minus one or zero, by the sign. -/
def sign (x : Float) : Value := whole (if 0 < x then 1 else if x < 0 then -1 else 0)

/-- The greater of two doubles, the second where they are equal, as two zeros of
either sign are; a value that is no number never wins. -/
def greater (x y : Float) : Float := if y.isNaN || y < x then x else y

/-- The smaller of two doubles, the second where they are equal, as two zeros of
either sign are; a value that is no number never wins. -/
def smaller (x y : Float) : Float := if y.isNaN || x < y then x else y

/-- The greater of two values. -/
def maximum : Value → Value → Value
  | whole m, whole n => whole (max m n)
  | a, b => real (greater a.toFloat b.toFloat)

/-- The smaller of two values. -/
def minimum : Value → Value → Value
  | whole m, whole n => whole (min m n)
  | a, b => real (smaller a.toFloat b.toFloat)

/-- The remainder that is never negative. -/
def modulo? : Value → Value → Option Value
  | whole m, whole n =>
      if n = 0 ∨ (m = smallest ∧ n = -1) then none else some (whole (m % n))
  | a, b => some (real (euclideanRemainder a.toFloat b.toFloat))

/-- The functions of one argument. -/
def callOne? (name : String) (a : Value) : Option Value :=
  let x := a.toFloat
  match name with
  | "abs" => a.abs?
  | "flr" => some (ofFloat x.floor)
  | "floor" => some (ofFloat x.floor)
  | "ceil" => some (ofFloat x.ceil)
  | "round" => some (ofFloat x.round)
  | "sqrt" => some (real x.sqrt)
  | "exp" => some (real x.exp)
  | "ln" => some (real x.log)
  | "log" => some (real x.log)
  | "log10" => some (real x.log10)
  | "sin" => some (real x.sin)
  | "cos" => some (real x.cos)
  | "tan" => some (real x.tan)
  | "asin" => some (real x.asin)
  | "acos" => some (real x.acos)
  | "atan" => some (real x.atan)
  | "sinh" => some (real x.sinh)
  | "cosh" => some (real x.cosh)
  | "tanh" => some (real x.tanh)
  | "heav" => some (step x)
  | "sign" => some (sign x)
  | _ => none

/-- The functions of two arguments. -/
def callTwo? (name : String) (a b : Value) : Option Value :=
  match name with
  | "atan2" => some (real (Float.atan2 a.toFloat b.toFloat))
  | "max" => some (a.maximum b)
  | "min" => some (a.minimum b)
  | "mod" => a.modulo? b
  | _ => none

/-- The result of a function on its arguments. -/
def call? (name : Text) : List Value → Option Value
  | [a] => callOne? (String.ofList name) a
  | [a, b] => callTwo? (String.ofList name) a b
  | _ => none

end Value

end OdeModel
