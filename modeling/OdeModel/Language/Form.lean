import OdeModel.Language.Category
import OdeModel.Dictionary.Scan

/-!
# Forms of statements

A single-line statement is recognised by a mark: a leading word as in
`par a=1`, or a piece of text that is fused with the defined name, as the prime
of `x'=-x`. A statement without a mark defines a temporary.
-/

namespace OdeModel

/-- The form of a statement. -/
inductive Form where
  /-- `!name=expr` -/
  | constant
  /-- `name(t+1)=expr` -/
  | difference
  /-- `name'=expr` -/
  | prime
  /-- `dname/dt=expr` -/
  | derivative
  /-- `name(t)=expr` -/
  | integral
  /-- `volt name=expr` -/
  | volterra
  /-- `aux name=expr` -/
  | auxiliary
  /-- `par name=value` -/
  | parameter
  /-- `number name=value` -/
  | number
  /-- `name(args)=expr` -/
  | function
  /-- `init name=value` -/
  | initial
  /-- `name(0)=value` -/
  | initialValue
  /-- `bdry expr` -/
  | boundary
  /-- `0=expr` -/
  | constraint
  /-- `solve name=expr` -/
  | solve
  /-- `special name=call(args)` -/
  | special
  /-- `set name {a=1,b=2}` -/
  | assignments
  /-- `@ option=value` -/
  | setting
  /-- `export {inputs} {outputs}` -/
  | exported
  /-- `name=expr`, which has no mark -/
  | temporary
  deriving Repr, DecidableEq

namespace Form

/-- The forms that have a mark, in the order of their numbers. -/
def marked : List Form :=
  [constant, difference, prime, derivative, integral, volterra, auxiliary, parameter,
    number, function, initial, initialValue, boundary, constraint, solve, special,
    assignments, setting, exported]

/-- The form with the given number; a number past the marks stands for a temporary. -/
def ofNumber (n : Nat) : Form := marked[n]?.getD temporary

/-- The number of a form. -/
def toNumber (form : Form) : Nat := marked.idxOf form

/-- The text by which a form is recognised. -/
def mark : Form → Text
  | constant => ['!']
  | difference => "(t+1)".toList
  | prime => "'".toList
  | derivative => "/dt".toList
  | integral => "(t)".toList
  | volterra => "volt".toList
  | auxiliary => "aux".toList
  | parameter => "par".toList
  | number => "number".toList
  | function => ['(']
  | initial => "init".toList
  | initialValue => "(0)".toList
  | boundary => "bdry".toList
  | constraint => "0=".toList
  | solve => "solve".toList
  | special => "special".toList
  | assignments => "set".toList
  | setting => ['@']
  | exported => "export".toList
  | temporary => []

/-- The time marks `(t)`, `(t+1)` and `(0)`, which look like a function head. -/
def isTimeIndexed : Form → Bool
  | difference | integral | initialValue => true
  | _ => false

/-- The mark is fused with the defined name. -/
def isFused : Form → Bool
  | constant | prime | derivative | function => true
  | form => form.isTimeIndexed

/-- The mark is a word of its own at the start of the line. -/
def isLeading : Form → Bool
  | volterra | auxiliary | parameter | number | initial | boundary | solve | special
  | assignments | setting | exported => true
  | _ => false

/-- The category of the definitions that statements of the form make. -/
def category : Form → Category
  | constant => .constants
  | difference | prime | derivative => .equations
  | integral | volterra => .volterra
  | auxiliary => .auxiliary
  | parameter => .parameters
  | number => .numbers
  | function => .functions
  | initial | initialValue => .initialConditions
  | boundary => .boundaries
  | constraint | solve => .algebraic
  | special => .special
  | assignments => .sets
  | setting => .options
  | exported => .exports
  | temporary => .temporaries

/-- The form wins over those of a greater rank when several marks fit. -/
def rank : Form → Nat
  | constraint => 0
  | constant | setting => 1
  | difference | integral | initialValue => 2
  | prime | derivative => 3
  | _ => 4

/-- The dictionary of all marks; the number of a mark is that of its form. -/
def marks : Dictionary :=
  ((Dictionary.empty { }).addAll (marked.map mark)).1

end Form

end OdeModel
