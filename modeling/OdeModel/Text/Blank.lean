import OdeModel.Text.Basic

/-!
# Blanks

The white space characters of Unicode, and texts without them.
-/

namespace OdeModel

/-- White space: the controls from tab to carriage return, the space, the
no-break spaces and the spaces and separators of the higher planes. -/
def isBlank (c : Char) : Bool :=
  let n := c.toNat
  (9 ≤ n && n ≤ 13) || n == 0x20 || n == 0x85 || n == 0xA0 || n == 0x1680 ||
    (0x2000 ≤ n && n ≤ 0x200A) || n == 0x2028 || n == 0x2029 || n == 0x202F ||
    n == 0x205F || n == 0x3000

namespace Text

/-- The text from its first character that is no blank on. -/
def trimStart (s : Text) : Text := s.dropWhile isBlank

/-- The text up to its last character that is no blank. -/
def trimEnd (s : Text) : Text := dropEndWhile isBlank s

/-- The text without blanks at either end. -/
def trim (s : Text) : Text := trimEnd (trimStart s)

/-- The text without any blank. -/
def withoutBlanks (s : Text) : Text := s.filter fun c => !isBlank c

end Text

end OdeModel
