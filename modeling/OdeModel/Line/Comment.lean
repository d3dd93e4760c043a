import OdeModel.Line.Basic

/-!
# Comments

A comment starts at the first number sign outside of curly brackets. With it go
the blanks before it and the commas and semicolons at the end of the statement.
-/

namespace OdeModel

namespace Text

/-- The text before the first number sign outside of curly brackets. -/
def beforeComment : (depth : Nat) → Text → Text
  | _, [] => []
  | depth, c :: rest =>
      let depth :=
        if c = '\x7b' then depth + 1 else if c = '\x7d' then depth - 1 else depth
      if c = '#' ∧ depth = 0 then [] else c :: beforeComment depth rest

/-- The statement of a line: no comment, no separators and blanks at its end. -/
def statement (s : Text) : Text :=
  trimEnd (dropEndWhile (fun c => c == ',' || c == ';') (trimEnd (beforeComment 0 s)))

end Text

namespace Line

/-- The lines without comments; a line that has nothing else is left out. -/
def withoutComments (lines : List Line) : List Line :=
  (lines.map fun line => { line with text := Text.statement line.text }).filter fun line =>
    !line.text.isEmpty

end Line

end OdeModel
