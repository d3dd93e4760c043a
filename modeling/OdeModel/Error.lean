import OdeModel.Number.Whole
import OdeModel.Dictionary.Basic

/-!
# Errors

What can be wrong with a model, and how it is told. An error in the text of a
model shows the line and puts a caret below the place.
-/

namespace OdeModel

/-- What is wrong at a place of a model. -/
inductive Fault where
  | duplicatedName
  | reservedKeyword
  | reservedFunction
  | reservedOption
  | unknownOption
  | unknownVariable
  | unknownName
  | missingArgument
  | missingOpeningBracket
  | missingClosingBracket
  | missingMarkovAssignment
  | expectedNumber
  | expectedListArgument
  | expectedTableAssignment
  | wrongArrayAssignment
  | wrongMarkovAssignment
  | wrongTableAssignment
  | unknownAssignment
  | circularReference
  deriving Repr, DecidableEq

namespace Fault

/-- The description of a fault. -/
def message : Fault → Text
  | duplicatedName => "Name has already been reserved".toList
  | reservedKeyword => "Given name is a reserved keyword".toList
  | reservedFunction => "Given function name is reserved".toList
  | reservedOption => "Given name is a reserved option".toList
  | unknownOption => "Unknown option chosen".toList
  | unknownVariable => "Unknown variable for initial condition".toList
  | unknownName => "Unknown name in expression".toList
  | missingArgument => "Cannot find function argument".toList
  | missingOpeningBracket => "Cannot find opening bracket".toList
  | missingClosingBracket => "Cannot find closing bracket".toList
  | missingMarkovAssignment => "Missing assignment of markov transition probability".toList
  | expectedNumber => "Cannot parse number".toList
  | expectedListArgument => "Missing argument in list".toList
  | expectedTableAssignment => "Missing value for the lookup table".toList
  | wrongArrayAssignment => "Wrong array assignment".toList
  | wrongMarkovAssignment => "Superfluous assignment of markov transition probability".toList
  | wrongTableAssignment => "Wrong assignment of table expression".toList
  | unknownAssignment => "Unknown assignment".toList
  | circularReference => "Circular reference between definitions".toList

end Fault

/-- A place in a model: a numbered piece of text and a column in it. -/
structure Place where
  /-- Line number, from one on. -/
  line : Nat
  /-- The text of the line or of an expression that came from it. -/
  text : Text
  /-- The column that is meant, from zero on. -/
  column : Nat
  deriving Repr, DecidableEq

namespace Place

/-- A caret below the column. -/
def pointer (place : Place) : Text := List.replicate place.column ' ' ++ ['^']

/-- The number, the text and the caret, on three lines. -/
def display (place : Place) : Text :=
  natText place.line ++ ":\n".toList ++ place.text ++ '\n' :: place.pointer

end Place

/-- Why a file cannot be read. -/
inductive ReadFault where
  /-- There is nothing at the path. -/
  | notFound
  /-- The path goes on behind a file. -/
  | notDirectory
  /-- The path leads to a directory. -/
  | isDirectory
  /-- The bytes of the file are no text. -/
  | notText
  deriving Repr, DecidableEq

namespace ReadFault

/-- The description of the fault. -/
def message : ReadFault → Text
  | notFound => "No such file or directory (os error 2)".toList
  | notDirectory => "Not a directory (os error 20)".toList
  | isDirectory => "Is a directory (os error 21)".toList
  | notText => "stream did not contain valid UTF-8".toList

end ReadFault

/-- Why a model cannot be built. -/
inductive ModelError where
  /-- The text is wrong at a place. -/
  | located (fault : Fault) (place : Place)
  /-- There is nothing but comments. -/
  | noStatements (name : Text)
  /-- The model file cannot be read. -/
  | unreadableModel (path : Text) (fault : ReadFault)
  /-- The file of a lookup table cannot be read. -/
  | unreadableTable (path : Text) (fault : ReadFault)
  /-- Two definitions that have to differ have the same name. -/
  | duplicateKeyword (error : DuplicateKeyword)
  deriving Repr, DecidableEq

namespace ModelError

/-- The message of an error. -/
def message : ModelError → Text
  | located fault place => fault.message ++ " in line ".toList ++ place.display
  | noStatements name => "Model '".toList ++ name ++ "' contains no statements".toList
  | unreadableModel path fault =>
      "Failed to read model file '".toList ++ path ++ "': ".toList ++ fault.message
  | unreadableTable path fault =>
      "Failed to read table file '".toList ++ path ++ "': ".toList ++ fault.message
  | duplicateKeyword error => error.message

end ModelError

end OdeModel
