import OdeModel.Arithmetic.Function
import OdeModel.Arithmetic.Token

/-!
# Expression trees and their values

An expression tree keeps the positions of its names, so an evaluation that
fails can tell where. Operands are evaluated from left to right.
-/

namespace OdeModel

/-- An expression. -/
inductive Expr where
  | number (value : Value)
  | name (offset : Nat) (text : Text)
  | negate (operand : Expr)
  | binary (op : Operator) (left right : Expr)
  | power (base exponent : Expr)
  | call (offset : Nat) (function : Text) (arguments : List Expr)

/-- The values of the names that an expression may read. -/
abbrev Environment := Text → Option Value

namespace Environment

/-- No name has a value. -/
def empty : Environment := fun _ => none

/-- One more name with a value. -/
def set (env : Environment) (name : Text) (value : Value) : Environment :=
  fun other => if other = name then some value else env other

/-- The value of a name. The circle constant has one unless it is set otherwise. -/
def valueOf? (env : Environment) (name : Text) : Option Value :=
  match env name with
  | some value => some value
  | none => if name = ['p', 'i'] then some (.real 3.141592653589793) else none

end Environment

namespace Expr

mutual

/-- The value of an expression. -/
def eval (env : Environment) : Expr → Except ArithmeticError Value
  | number value => .ok value
  | name offset text =>
      match env.valueOf? text with
      | some value => .ok value
      | none => .error ⟨offset, .unknownVariable text⟩
  | negate operand => do return (← operand.eval env).neg
  | binary op left right => do
      let a ← left.eval env
      let b ← right.eval env
      return op.apply a b
  | power base exponent => do
      let a ← base.eval env
      let b ← exponent.eval env
      return a.power b
  | call offset function arguments => do
      let values ← evalAll env arguments
      match Value.call? function values with
      | some value => .ok value
      | none => .error ⟨offset, .unknownFunction function⟩

/-- The values of several expressions, in order. -/
def evalAll (env : Environment) : List Expr → Except ArithmeticError (List Value)
  | [] => .ok []
  | first :: later => do
      let value ← first.eval env
      return value :: (← evalAll env later)

end

end Expr

end OdeModel
