import OdeModel.Arithmetic.Reader
import OdeModel.Line.Basic
import OdeModel.Text.Bracket

/-!
# Arrays

A line whose first square brackets hold a range stands for one line per index.
In `x[1..3]=a[j]` the line is its own template, with the loop variable in place
of the range. After `%[1..3]` the lines up to the next one with a percent sign
are the templates. In a template every group in square brackets is evaluated
with the variable bound to the index, and elsewhere the variable itself is
replaced by the index.
-/

namespace OdeModel

/-- A line with a range in its first square brackets, cut into pieces. -/
structure ArrayHeader where
  /-- What stands before the opening bracket. -/
  before : Text
  /-- The lower bound. -/
  low : Text
  /-- The upper bound. -/
  high : Text
  /-- What stands behind the closing bracket. -/
  after : Text
  deriving Repr, DecidableEq

namespace ArrayHeader

/-- Cuts a text at its first two points in a row. -/
def cutAtPoints : Text → Option (Text × Text)
  | '.' :: '.' :: high => some ([], high)
  | [] => none
  | c :: rest => (cutAtPoints rest).map fun (low, high) => (c :: low, high)

/-- Cuts a line at its first square brackets, if a range stands between them. -/
def ofText? (s : Text) : Option ArrayHeader :=
  match s.dropWhile (· != '[') with
  | [] => none
  | _ :: rest =>
      match rest.dropWhile (· != ']') with
      | [] => none
      | _ :: after =>
          (cutAtPoints (rest.takeWhile (· != ']'))).map fun (low, high) =>
            ⟨s.takeWhile (· != '['), low, high, after⟩

/-- The column of the opening bracket. -/
def bracketColumn (header : ArrayHeader) : Nat := Text.width header.before

/-- The column of the two points. -/
def pointsColumn (header : ArrayHeader) : Nat :=
  header.bracketColumn + 1 + Text.width header.low

/-- The range stands right behind a percent sign, so templates follow. -/
def opensBlock (header : ArrayHeader) : Bool := header.before.getLast? == some '%'

/-- The header as its own template: the variable stands in place of the range. -/
def template (header : ArrayHeader) (variableName : Text) : Text :=
  header.before ++ '[' :: variableName ++ ']' :: header.after

end ArrayHeader

namespace Text

/-- A piece of text with the index in place of the variable. `operands` are the
operands of the piece, which stands at position `offset`. -/
def replaceOperands (variableName index : Text) :
    (offset : Nat) → List Operand → Text → Text
  | _, [], s => s
  | offset, operand :: later, s =>
      let replaced := !operand.isNumber && operand.text == variableName
      let stop := operand.offset + width operand.text
      takeBytes (operand.offset - offset) s ++
        (if replaced then index else operand.text) ++
        replaceOperands variableName index stop later (dropBytes (stop - offset) s)

/-- A piece of text with the index in place of the variable. -/
def replaceVariable (s variableName : Text) (index : Int) : Text :=
  replaceOperands variableName (intText index) 0 (operands s) s

end Text

namespace Line

/-- The bound of a range, a whole number. -/
def bound (line : Line) (text : Text) (column : Nat) : Except ModelError Int :=
  match evalText .empty (Text.trim text) with
  | .ok (.whole n) => .ok n
  | _ => .error (line.error .expectedNumber column)

/-- The rest `s` of the template `line` for one index. -/
def instantiateFrom (line : Line) (variableName : Text) (index : Int) (offset : Nat)
    (s : Text) : Except ModelError Text :=
  let plain := s.takeWhile (· != '[')
  let start := offset + Text.width plain
  match _hclosed : Text.untilClosed 0 (s.dropWhile (· != '[')) with
  | none =>
      if (s.dropWhile (· != '[')).isEmpty then
        .ok (Text.replaceVariable plain variableName index)
      else .error (line.error .missingClosingBracket start)
  | some (group, later) =>
      match evalText (Environment.empty.set variableName (.whole index)) group.tail with
      | .ok (.whole n) => do
          let rest ← instantiateFrom line variableName index (start + Text.width group + 1) later
          return Text.replaceVariable plain variableName index ++ intText n ++ rest
      | _ => .error (line.error .wrongArrayAssignment (start + 1))
termination_by s.length
decreasing_by
  exact Nat.lt_of_lt_of_le (Text.length_lt_of_untilClosed _hclosed)
    (List.dropWhile_sublist _).length_le

/-- The line that a template stands for at the given index. -/
def instantiate (template : Line) (variableName : Text) (index : Int) :
    Except ModelError Line := do
  let text ← template.instantiateFrom variableName index 0 template.text
  return { template with text }

/-- The lines for `count` indices from `index` on, index by index. -/
def instantiateAll (templates : List Line) (variableName : Text) :
    (count : Nat) → (index : Int) → Except ModelError (List Line)
  | 0, _ => .ok []
  | count + 1, index => do
      let lines ← templates.mapM fun template => template.instantiate variableName index
      let later ← instantiateAll templates variableName count (index + 1)
      return lines ++ later

/-- The range of a header as its first index and the number of indices. -/
def range (line : Line) (header : ArrayHeader) : Except ModelError (Int × Nat) := do
  let low ← line.bound header.low (header.bracketColumn + 1)
  let high ← line.bound header.high (header.pointsColumn + 2)
  if high < low then .error (line.error .wrongArrayAssignment header.pointsColumn)
  else .ok (low, (high - low + 1).toNat)

/-- The lines with all arrays expanded. -/
def expandArrays (variableName : Text) (lines : List Line) : Except ModelError (List Line) :=
  match lines with
  | [] => .ok []
  | line :: rest =>
      match ArrayHeader.ofText? line.text with
      | none => do return line :: (← expandArrays variableName rest)
      | some header => do
          let (low, count) ← line.range header
          if header.opensBlock then
            let templates := rest.takeWhile fun next => !next.text.contains '%'
            match h : rest.dropWhile fun next => !next.text.contains '%' with
            | [] => .error (line.error .wrongArrayAssignment (header.bracketColumn - 1))
            | _ :: later => do
                let expanded ← instantiateAll templates variableName count low
                return expanded ++ (← expandArrays variableName later)
          else
            let template := { line with text := header.template variableName }
            let expanded ← instantiateAll [template] variableName count low
            return expanded ++ (← expandArrays variableName rest)
termination_by lines.length
decreasing_by
  · simp
  · have hs : (rest.dropWhile fun next => !next.text.contains '%').length ≤ rest.length :=
      (List.dropWhile_sublist _).length_le
    rw [h] at hs
    simp only [List.length_cons] at hs ⊢
    omega
  · simp

end Line

end OdeModel
