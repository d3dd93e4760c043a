import OdeModel.Error
import OdeModel.Language.Vocabulary
import OdeModel.Text.Blank

/-!
# Lines

A model file is a sequence of lines, one statement each. A line keeps the
number it has in the file while its text is prepared step by step.
-/

namespace OdeModel

/-- A line of a model. -/
structure Line where
  /-- The number of the line in the file, from one on. -/
  number : Nat
  /-- The text of the line. -/
  text : Text
  deriving Repr, DecidableEq

namespace Line

/-- The error at a column of the line. -/
def error (line : Line) (fault : Fault) (column : Nat) : ModelError :=
  .located fault ⟨line.number, line.text, column⟩

/-- The trimmed lines up to the one that ends the statements, without blank
ones; the first has the given number. -/
def statements : (number : Nat) → List Text → List Line
  | _, [] => []
  | number, raw :: later =>
      let text := Text.trim raw
      if text = Vocabulary.terminator then []
      else if text.isEmpty then statements (number + 1) later
      else ⟨number, text⟩ :: statements (number + 1) later

/-- The line holds nothing but a comment. -/
def isComment (line : Line) : Bool := line.text.head? = some '#'

/-- The lines of a model file. A file of comments is refused under its name. -/
def ofInput (name input : Text) : Except ModelError (List Line) :=
  let lines := statements 1 ((Text.fields (· == '\n') 0 input).map Prod.snd)
  if lines.all isComment then .error (.noStatements name) else .ok lines

end Line

end OdeModel
