import OdeModel.Number.Decimal
import OdeModel.Text.Bracket

/-!
# Atomic expressions

An expression that is put into another one gets parentheses around it unless it
is a single operand already.
-/

namespace OdeModel

namespace Text

/-- The text up to its first opening parenthesis is a name, perhaps an empty
one, and that parenthesis is closed by the last character. -/
def isCall (expr : Text) : Bool :=
  match find? expr 0 '(' with
  | none => false
  | some start =>
      (takeBytes start expr).all isNameChar && matchingBracket expr start == some (width expr - 1)

/-- A name, an unsigned number, a call or a group in parentheses. -/
def isAtomic (expr : Text) : Bool :=
  !expr.isEmpty &&
    (expr.all isNameChar ||
      (isNumeric expr && expr.head? != some '+' && expr.head? != some '-') ||
      isCall expr)

/-- The expression in parentheses. -/
def parenthesized (expr : Text) : Text := '(' :: expr ++ [')']

/-- The expression as it is put into another one. `whole` tells that it takes
the place of all of it. -/
def wrap (parenthesize whole : Bool) (expr : Text) : Text :=
  if parenthesize && !whole && !isAtomic expr then parenthesized expr else expr

end Text

end OdeModel
