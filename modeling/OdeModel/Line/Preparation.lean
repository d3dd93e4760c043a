import OdeModel.Line.Array
import OdeModel.Line.Balance
import OdeModel.Line.Comment
import OdeModel.Line.Spacing

/-!
# Preparation of the lines

All steps from the text of a model file to its statements.
-/

namespace OdeModel

namespace Line

/-- The statements of a model file: no comments, balanced brackets, normal
spacing, arrays expanded. -/
def prepare (name variableName input : Text) : Except ModelError (List Line) := do
  let lines := withoutComments (← ofInput name input)
  lines.forM checkBrackets
  expandArrays variableName (lines.map withNormalSpacing)

end Line

end OdeModel
