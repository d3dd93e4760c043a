import OdeModel.Line.Basic
import OdeModel.Text.Bracket

/-!
# Spacing

Blanks only separate words, so one space is enough. There is none at either
end, inside of brackets or next to an equals sign.
-/

namespace OdeModel

namespace Text

/-- Normal spacing from inside a text: `depth` brackets are open, `pending`
tells whether a blank came last, and `last` is the last other character. -/
def respace : (depth : Nat) → (pending : Bool) → (last : Option Char) → Text → Text
  | _, _, _, [] => []
  | depth, pending, last, c :: rest =>
      if isBlank c then respace depth (depth == 0) last rest
      else
        let gap := pending && c != '=' && last.any (· != '=')
        let later := c :: respace (nest depth c) false (some c) rest
        if gap then ' ' :: later else later

/-- The text in normal spacing. -/
def normalSpacing (s : Text) : Text := respace 0 false none s

end Text

namespace Line

/-- The line in normal spacing. -/
def withNormalSpacing (line : Line) : Line :=
  { line with text := Text.normalSpacing line.text }

end Line

end OdeModel
