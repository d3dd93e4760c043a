import OdeModel.Statement.Draft

/-!
# Assignments

A line is a statement form and one or more assignments of that form with commas
between them. Without a leading word the form of an assignment is found from
the marks in the word before its equals sign.
-/

namespace OdeModel

/-- An assignment that has been located in a line. -/
structure Assignment where
  /-- Its form. -/
  form : Form
  /-- The defined name; empty if the form has none. -/
  name : Text
  /-- The column of the name. -/
  column : Nat
  /-- The formal arguments of a function, with their columns. -/
  formals : List (Nat × Text)
  /-- The column of the character behind which the expression starts. -/
  sign : Nat
  deriving Repr, DecidableEq

namespace Form

/-- The form fits a word whose mark was found at the given place. `token` is the
word with the equals sign behind it, `size` the width of the word alone. -/
def fits (form : Form) (token : Text) (size : Nat) (found : Occurrence) : Bool :=
  match form with
  | constraint => found.start == 0 && found.stop == size + 1
  | constant | setting => found.start == 0 && 1 < size
  | derivative => 1 < found.start && found.stop == size && token.head? == some 'd'
  | function =>
      0 < found.start && Text.find? token 0 '(' == some found.start &&
        token.dropLast.getLast? == some ')'
  | prime | difference | integral | initialValue => 0 < found.start && found.stop == size
  | _ => false

/-- The better of the form found so far and the form of one more mark: a mark
that does not fit changes nothing, and of equal ranks the first one stays. -/
def better (token : Text) (size : Nat) (best : Option (Form × Occurrence))
    (found : Occurrence) : Option (Form × Occurrence) :=
  let form := Form.ofNumber found.id
  if form.fits token size found && best.all (fun (current, _) => form.rank < current.rank) then
    some (form, found)
  else best

/-- The form of a word before an equals sign, with its mark; nothing for a word
without a fitting mark. -/
def ofWord? (word : Text) : Option (Form × Occurrence) :=
  let token := word ++ ['=']
  (Form.marks.scan token).foldl (better token (Text.width word)) none

end Form

namespace Assignment

/-- The assignment of a word that stands before an equals sign. -/
def ofWord (line : Line) (word : Word) : Except ModelError Assignment :=
  match Form.ofWord? word.text with
  | none => .ok ⟨.temporary, word.text, word.start, [], word.stop⟩
  | some (form, found) =>
      match form with
      | .constant | .setting =>
          .ok ⟨form, Text.dropBytes 1 word.text, word.start + 1, [], word.stop⟩
      | .derivative =>
          .ok ⟨form, Text.slice word.text 1 found.start, word.start + 1, [], word.stop⟩
      | .constraint => .ok ⟨form, [], word.start, [], word.stop⟩
      | .function => do
          let (formals, _) ← line.listAt (word.start + found.start) (· == ',')
          return ⟨form, Text.takeBytes found.start word.text, word.start, formals, word.stop⟩
      | _ => .ok ⟨form, Text.takeBytes found.start word.text, word.start, [], word.stop⟩

/-- Locates the next assignment at or after a column. -/
def locate (line : Line) (column : Nat) (leading : Option Form) :
    Except ModelError Assignment :=
  if leading = some .boundary then .ok ⟨.boundary, [], column, [], column⟩
  else
    match Text.nextWord line.text column with
    | none => .error (line.error .unknownAssignment column)
    | some word =>
        if leading = some .assignments then
          if word.delimiter = some ' ' then
            .ok ⟨.assignments, word.text, word.start, [], word.stop⟩
          else .error (line.error .missingOpeningBracket word.stop)
        else if word.delimiter ≠ some '=' then
          .error (line.error .unknownAssignment word.stop)
        else
          match leading with
          | some form => .ok ⟨form, word.text, word.start, [], word.stop⟩
          | none => ofWord line word

end Assignment

end OdeModel
