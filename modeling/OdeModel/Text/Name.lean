import OdeModel.Text.Basic
import OdeModel.Text.Letter
import OdeModel.Text.Numeral

/-!
# Names

A name in an expression is a run of name characters of any script. A name that
a model may define is more narrow: ASCII letters, digits and underscores, no
digit first.
-/

namespace OdeModel

/-- Characters that a name is made of: letters, numerals and the underscore. -/
def isNameChar (c : Char) : Bool := isLetter c || isNumeral c || c == '_'

/-- Characters that a name in an expression starts with. -/
def isNameStart (c : Char) : Bool := isLetter c || c == '_'

namespace Text

/-- A name that a model may define. -/
def isIdentifier : Text → Bool
  | [] => false
  | c :: rest =>
      (c.isAlpha || c == '_') && rest.all fun d => d.isAlpha || d.isDigit || d == '_'

/-- The last character before byte position `n` and the first one from there on. -/
def around (s : Text) (n : Nat) : Option Char × Option Char :=
  ((takeBytes n s).getLast?, (dropBytes n s).head?)

/-- The bytes from `start` to `stop` touch no name character on either side. -/
def isDelimited (s : Text) (start stop : Nat) : Bool :=
  !(s.around start).1.any isNameChar && !(s.around stop).2.any isNameChar

end Text

end OdeModel
