import OdeModel.Number.Decimal
import OdeModel.Statement.Assignment
import OdeModel.Text.Operand

/-!
# Definitions from assignments

An assignment is checked, its name is defined, and it becomes a definition in
the category of its form.
-/

namespace OdeModel

namespace Assignment

/-- The column where the expression starts. -/
def exprColumn (line : Line) (assignment : Assignment) : Nat :=
  min (assignment.sign + 1) line.width

/-- Checks the name of an assignment and defines it where the form does so. The
name may come back in another spelling. -/
def defineName (line : Line) (assignment : Assignment) (draft : Draft) :
    Except ModelError (Draft × Text) :=
  match assignment.form with
  | .initial | .initialValue =>
      if draft.scope.isUsed assignment.name then .ok (draft, assignment.name)
      else .error (line.error .unknownVariable assignment.column)
  | .setting =>
      match Vocabulary.option? assignment.name with
      | some option => .ok (draft, option)
      | none => .error (line.error .unknownOption assignment.column)
  | .boundary | .constraint => .ok (draft, assignment.name)
  | _ =>
      if assignment.name.isEmpty then
        .error (line.error .unknownAssignment assignment.column)
      else do
        return (← draft.define line assignment.name assignment.column, assignment.name)

/-- Checks that formal arguments differ and occur in the body. `earlier` are
the formals before these. -/
def checkFormals (line : Line) (body : List Operand) :
    (earlier : List Text) → List (Nat × Text) → Except ModelError Unit
  | _, [] => .ok ()
  | earlier, (column, formal) :: later =>
      if earlier.contains formal then .error (line.error .duplicatedName column)
      else if !body.any (fun operand => !operand.isNumber && operand.text == formal) then
        .error (line.error .missingArgument column)
      else checkFormals line body (formal :: earlier) later

/-- The elements of the list that opens at a place of the expression, which
starts at a column of the line. -/
def exprList (line : Line) (column : Nat) (expr : Text) (start : Nat) :
    Except ModelError (List Text) :=
  match Text.splitList expr start (· == ',') with
  | .error offset => .error (line.error .expectedListArgument (column + offset))
  | .ok (items, _) => .ok (items.map Prod.snd)

/-- The expression and the arguments of the definition that an assignment makes. -/
def contents (line : Line) (assignment : Assignment) (expr : Text) :
    Except ModelError (Text × List Text) :=
  let column := assignment.exprColumn line
  match assignment.form with
  | .number =>
      if Text.isNumeric expr then .ok (expr, []) else .error (line.error .expectedNumber column)
  | .function => do
      checkFormals line (Text.operands expr) [] assignment.formals
      return (expr, assignment.formals.map Prod.snd)
  | .special =>
      match Text.find? expr 0 '(' with
      | none => .error (line.error .missingOpeningBracket column)
      | some start => do return (Text.takeBytes start expr, ← exprList line column expr start)
  | .assignments =>
      if expr.head? = some '\x7b' then do return ([], ← exprList line column expr 0)
      else .error (line.error .missingOpeningBracket column)
  | _ => .ok (expr, [])

/-- Adds the definition that an assignment with the given expression makes. -/
def record (line : Line) (assignment : Assignment) (expr : Text) (draft : Draft) :
    Except ModelError Draft :=
  if expr.isEmpty then
    .error (line.error .unknownAssignment (assignment.exprColumn line))
  else do
    let (draft, name) ← assignment.defineName line draft
    let (expr, args) ← assignment.contents line expr
    return draft.push assignment.form.category ⟨line.number, name, expr, args⟩

end Assignment

namespace Line

/-- The form that the first word of the line stands for. A line whose first
word ends at an equals sign has none. -/
def leadingForm (line : Line) : Except ModelError (Option Form × Word) := do
  let first ← line.firstWord
  match first.delimiter with
  | some '=' => return (none, first)
  | some _ =>
      match Vocabulary.leadingForm? first.text with
      | some form =>
          if form.isLeading || form = .constant then return (some form, first)
          else .error (line.error .unknownAssignment first.start)
      | none => .error (line.error .unknownAssignment first.start)
  | none => .error (line.error .unknownAssignment first.stop)

/-- Adds the definitions of the assignments from a column on. Every assignment
ends behind the column where it was looked for, so there are at most as many as
characters. -/
def recordFrom (line : Line) (leading : Option Form) :
    (fuel column : Nat) → Draft → Except ModelError Draft
  | 0, _, draft => .ok draft
  | fuel + 1, column, draft => do
      let assignment ← Assignment.locate line column leading
      let (expr, comma) := Text.nextExpression line.text assignment.sign
      let draft ← assignment.record line expr draft
      match comma with
      | some next => line.recordFrom leading fuel next draft
      | none => return draft

/-- Adds the definitions of a line. -/
def record (line : Line) (draft : Draft) : Except ModelError Draft := do
  let (leading, first) ← line.leadingForm
  line.recordFrom leading (line.text.length + 1) (if leading.isSome then first.stop else 0) draft

end Line

end OdeModel
