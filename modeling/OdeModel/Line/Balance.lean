import OdeModel.Line.Basic
import OdeModel.Text.Bracket

/-!
# Balance of brackets

In every line each closing bracket must belong to the last open one, and all
must be closed.
-/

namespace OdeModel

namespace Text

/-- The first bracket that breaks the balance, with its position. `stack` holds
the open brackets, the last one first: a closing bracket of another kind leaves
that one open, and so does the end of the text. -/
def imbalance? : (stack : List (Nat × Char)) → (offset : Nat) → Text → Option (Fault × Nat)
  | [], _, [] => none
  | (start, _) :: _, _, [] => some (.missingClosingBracket, start)
  | stack, offset, c :: rest =>
      if isOpening c then imbalance? ((offset, c) :: stack) (offset + c.utf8Size) rest
      else if isClosing c then
        match stack with
        | [] => some (.missingOpeningBracket, offset)
        | (start, opening) :: outer =>
            if opening = openingOf c then imbalance? outer (offset + c.utf8Size) rest
            else some (.missingClosingBracket, start)
      else imbalance? stack (offset + c.utf8Size) rest

end Text

namespace Line

/-- The brackets of the line are balanced. -/
def checkBrackets (line : Line) : Except ModelError Unit :=
  match Text.imbalance? [] 0 line.text with
  | none => .ok ()
  | some (fault, column) => .error (line.error fault column)

end Line

end OdeModel
