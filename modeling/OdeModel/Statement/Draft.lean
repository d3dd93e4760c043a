import OdeModel.Line.Basic
import OdeModel.Scope
import OdeModel.SymbolTable.Basic
import OdeModel.Text.Bracket
import OdeModel.Text.Word

/-!
# Drafts of models

While statements are read, the definitions found so far and the names they
define are kept together. The small readers for words and lists that all
statements share stand here too.
-/

namespace OdeModel

/-- How a model file is read. -/
structure Settings where
  /-- The directory of the files with lookup tables. -/
  tableDirectory : Text := ['.']
  /-- The loop variable of arrays. -/
  arrayVariable : Text := Vocabulary.arrayVariable
  /-- A defined name may not be that of an option. -/
  reserveOptions : Bool := true

/-- A model while it is read. -/
structure Draft where
  /-- The definitions found so far. -/
  symbols : SymbolTable
  /-- The names defined so far. -/
  scope : Scope

namespace Draft

/-- The draft without definitions. -/
def empty (settings : Settings) : Draft := ⟨.empty, .empty settings.reserveOptions⟩

/-- Defines a name that stands at a column of a line. -/
def define (draft : Draft) (line : Line) (name : Text) (column : Nat) :
    Except ModelError Draft :=
  match draft.scope.define name with
  | .ok scope => .ok { draft with scope }
  | .error fault => .error (line.error fault column)

/-- Adds a definition. -/
def push (draft : Draft) (category : Category) (definition : Definition) : Draft :=
  { draft with symbols := draft.symbols.push category definition }

end Draft

namespace Line

/-- Number of bytes of the text; the column behind it. -/
def width (line : Line) : Nat := Text.width line.text

/-- The first word of the line. -/
def firstWord (line : Line) : Except ModelError Word :=
  match Text.nextWord line.text 0 with
  | some word => .ok word
  | none => .error (line.error .unknownAssignment 0)

/-- The first word at or after a column; without one, the fault is at the end. -/
def wordAfter (line : Line) (column : Nat) (fault : Fault) : Except ModelError Word :=
  match Text.nextWord line.text column with
  | some word => .ok word
  | none => .error (line.error fault line.width)

/-- The first word of the line, if a space follows it. -/
def leadingWord? (line : Line) : Option Text :=
  match Text.nextWord line.text 0 with
  | some word => if word.delimiter = some ' ' then some word.text else none
  | none => none

/-- The first opening curly bracket at or after a column. -/
def openCurly (line : Line) (column : Nat) : Except ModelError Nat :=
  match Text.find? line.text column '\x7b' with
  | some start => .ok start
  | none => .error (line.error .missingOpeningBracket line.width)

/-- The elements of the list that opens at a column, without blanks, and the
column where it closes. -/
def listAt (line : Line) (start : Nat) (isCut : Char → Bool) :
    Except ModelError (List (Nat × Text) × Nat) :=
  match Text.splitList line.text start isCut with
  | .error column => .error (line.error .expectedListArgument column)
  | .ok (items, close) =>
      .ok (items.map fun (column, item) => (column, Text.withoutBlanks item), close)

end Line

end OdeModel
