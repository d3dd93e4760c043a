import OdeModel.Arithmetic.Reader
import OdeModel.Files
import OdeModel.Statement.Draft

/-!
# Lookup tables

A lookup table is given by an expression in `t` that is evaluated at evenly
spaced points, or by a file that holds the number of points, the bounds of the
range, and then one value per line.
-/

namespace OdeModel

namespace LookupTable

/-- The values of an expression at `count` points, the first of them with
number `index`. -/
def sample (expr : Text) (low step : Float) :
    (count index : Nat) → Except ArithmeticError (List Text)
  | 0, _ => .ok []
  | count + 1, index => do
      let point := Value.real (low + step * Float.ofNat index)
      let value ← evalText (Environment.empty.set ['t'] point) expr
      return floatText value.toFloat :: (← sample expr low step count (index + 1))

/-- The values of an expression at `count` evenly spaced points from `low` to
`high`. -/
def ofExpression (expr : Text) (count : Nat) (low high : Float) :
    Except ArithmeticError (List Text) :=
  sample expr low (if 1 < count then (high - low) / Float.ofNat (count - 1) else 0) count 0

/-- The rows of a table file: its lines without blank ones. -/
def rows (contents : Text) : List Line :=
  let raw := (Text.fields (· == '\n') 0 contents).map fun (_, text) => Text.trim text
  (raw.zipIdx 1).filterMap fun (text, number) =>
    if text.isEmpty then none else some ⟨number, text⟩

/-- The number in a row. -/
def rowValue (row : Line) : Except ModelError Float :=
  match evalText .empty row.text with
  | .ok value => .ok value.toFloat
  | .error _ => .error (row.error .expectedNumber 0)

/-- The values of the next `count` rows, and the rows behind them. When rows are
missing the fault is at the end of the statement that names the file. -/
def readValues (line : Line) : (count : Nat) → List Line → Except ModelError (List Float × List Line)
  | 0, rows => .ok ([], rows)
  | _ + 1, [] => .error (line.error .expectedTableAssignment line.width)
  | count + 1, row :: later => do
      let value ← rowValue row
      let (values, rest) ← readValues line count later
      return (value :: values, rest)

/-- The values in the contents of a table file. -/
def ofContents (line : Line) (contents : Text) : Except ModelError (List Text) :=
  match rows contents with
  | [] => .error (line.error .expectedTableAssignment line.width)
  | head :: later =>
      match (readCount? head.text).filter (0 < ·) with
      | none => .error (head.error .expectedNumber 0)
      | some count => do
          let (_, later) ← readValues line 2 later
          let (values, _) ← readValues line count later
          return values.map floatText

end LookupTable

namespace Line

/-- A word of the line that is a count from one on. -/
def countAt (line : Line) (word : Word) : Except ModelError Nat :=
  match (readCount? word.text).filter (0 < ·) with
  | some count => .ok count
  | none => .error (line.error .expectedNumber word.start)

/-- A word of the line that has a value. -/
def valueAt (line : Line) (word : Word) : Except ModelError Float :=
  match evalText .empty word.text with
  | .ok value => .ok value.toFloat
  | .error _ => .error (line.error .expectedNumber word.start)

/-- The expression and the values of a table whose statement goes on with a
count, two bounds and an expression behind the percent sign. -/
def tableByExpression (line : Line) (percent : Word) : Except ModelError (Text × List Text) := do
  let countWord ← line.wordAfter percent.stop .expectedTableAssignment
  let lowWord ← line.wordAfter countWord.stop .expectedTableAssignment
  let highWord ← line.wordAfter lowWord.stop .expectedTableAssignment
  let count ← line.countAt countWord
  let low ← line.valueAt lowWord
  let high ← line.valueAt highWord
  let expr := Text.withoutBlanks (Text.dropBytes highWord.stop line.text)
  if expr.isEmpty then .error (line.error .expectedTableAssignment line.width)
  else
    match LookupTable.ofExpression expr count low high with
    | .ok values => .ok (expr, values)
    | .error _ => .error (line.error .wrongTableAssignment (highWord.stop + 1))

/-- The values of a table in a file. -/
def tableByFile (line : Line) (directory : Text) (files : FileReader) (name : Text) :
    Except ModelError (Text × List Text) :=
  let path := Path.join directory name
  match files path with
  | .error fault => .error (.unreadableTable path fault)
  | .ok contents => do return (name, ← LookupTable.ofContents line contents)

/-- The file that a `table` statement names, if it names one. -/
def tableFile? (line : Line) : Option Text := do
  let keyword ← Text.nextWord line.text 0
  let name ← Text.nextWord line.text keyword.stop
  let source ← Text.nextWord line.text name.stop
  if line.leadingWord? = some "table".toList ∧ source.text ≠ ['%'] then some source.text
  else none

/-- `table name % count low high expr` or `table name file`. -/
def recordTable (line : Line) (directory : Text) (files : FileReader) (draft : Draft) :
    Except ModelError Draft := do
  let keyword ← line.firstWord
  let name ← line.wordAfter keyword.stop .unknownAssignment
  let source ← line.wordAfter name.stop .expectedTableAssignment
  let draft ← draft.define line name.text name.start
  let (expr, values) ←
    if source.text = ['%'] then line.tableByExpression source
    else line.tableByFile directory files source.text
  return draft.push .tables ⟨line.number, name.text, expr, values⟩

end Line

end OdeModel
