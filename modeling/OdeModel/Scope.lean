import OdeModel.Error
import OdeModel.Language.Vocabulary
import OdeModel.Text.Name

/-!
# Scope

The names that a model has defined so far. A new one must be an identifier,
differ from the others, and have no fixed meaning.
-/

namespace OdeModel

/-- The names defined so far. -/
structure Scope where
  /-- A name may not be that of an option, in upper or lower case. -/
  reserveOptions : Bool
  /-- The defined names, in the order of their definition. -/
  names : List Text
  deriving Repr, DecidableEq

namespace Scope

/-- The scope without names. -/
def empty (reserveOptions : Bool) : Scope := ⟨reserveOptions, []⟩

/-- The name has been defined. -/
def isUsed (scope : Scope) (name : Text) : Bool := scope.names.contains name

/-- The name has been defined or is built in, so an expression may use it. -/
def isKnown (scope : Scope) (name : Text) : Bool :=
  scope.isUsed name || Vocabulary.isBuiltin name

/-- What forbids to define the name, if anything does. -/
def objection? (scope : Scope) (name : Text) : Option Fault :=
  if !Text.isIdentifier name then some .unknownAssignment
  else if scope.isUsed name then some .duplicatedName
  else if Vocabulary.isBuiltin name then some .reservedFunction
  else if Vocabulary.isKeyword name then some .reservedKeyword
  else if scope.reserveOptions && (Vocabulary.option? name).isSome then some .reservedOption
  else none

/-- Defines a name. -/
def define (scope : Scope) (name : Text) : Except Fault Scope :=
  match scope.objection? name with
  | some fault => .error fault
  | none => .ok { scope with names := scope.names ++ [name] }

end Scope

end OdeModel
