import OdeModel.Arithmetic.Value
import OdeModel.Number.Decimal
import OdeModel.Text.Blank

/-!
# Tokens of an expression

An expression is cut into numbers, names, operators, brackets and commas, each
with its position. A number is read greedily: digits, points and exponent marks
belong to it, and a sign right after an exponent mark does.
-/

namespace OdeModel

/-- A token of an expression. -/
inductive Token where
  | number (value : Value)
  | name (text : Text)
  | operator (op : Operator)
  | power
  | openParen
  | closeParen
  | comma

namespace Token

/-- How messages call a token that stands in the wrong place. -/
def label : Token → Text
  | number value => value.text
  | name text => text
  | operator op => "Op('".toList ++ op.sign :: "')".toList
  | power => "Pow".toList
  | openParen => "OpenParen".toList
  | closeParen => "CloseParen".toList
  | comma => "Comma".toList

end Token

/-- Why an expression has no value. -/
inductive ArithmeticFault where
  | unexpectedCharacter (c : Char)
  | invalidNumber (text : Text)
  | unexpectedEnd
  | expectedClosing
  | unexpectedToken (token : Token)
  | trailingInput
  | unknownVariable (name : Text)
  | unknownFunction (name : Text)

namespace ArithmeticFault

/-- The message of a fault. -/
def message : ArithmeticFault → Text
  | unexpectedCharacter c => "unexpected character '".toList ++ c :: "'".toList
  | invalidNumber text => "invalid number '".toList ++ text ++ "'".toList
  | unexpectedEnd => "unexpected end of expression".toList
  | expectedClosing => "expected CloseParen".toList
  | unexpectedToken token => "unexpected ".toList ++ token.label
  | trailingInput => "unexpected trailing input".toList
  | unknownVariable name => "unknown variable '".toList ++ name ++ "'".toList
  | unknownFunction name => "unknown function '".toList ++ name ++ "'".toList

end ArithmeticFault

/-- A fault and the position where it was found. -/
structure ArithmeticError where
  offset : Nat
  fault : ArithmeticFault

namespace ArithmeticError

/-- The message together with the position. -/
def text (error : ArithmeticError) : Text :=
  error.fault.message ++ " at offset ".toList ++ natText error.offset

end ArithmeticError

namespace Token

/-- The characters that go on with a number after the character `last`. -/
def continuesNumber (last c : Char) : Bool :=
  c.isDigit || c == '.' || c == 'e' || c == 'E' ||
    ((c == '+' || c == '-') && (last == 'e' || last == 'E'))

/-- Splits off the rest of a number whose last character so far is `last`. -/
def spanNumeral : (last : Char) → Text → Text × Text
  | _, [] => ([], [])
  | last, c :: rest =>
      if continuesNumber last c then
        (c :: (spanNumeral c rest).1, (spanNumeral c rest).2)
      else ([], c :: rest)

/-- The value of a number. Digits alone are a whole number of 64 bits. -/
def numeral? (s : Text) : Option Value :=
  if s.all Char.isDigit then do Value.fit? (← readDigits? s)
  else (Decimal.read? s).map fun d => .real d.toFloat

theorem length_spanNumeral_le (last : Char) (s : Text) :
    (spanNumeral last s).2.length ≤ s.length := by
  induction s generalizing last with
  | nil => simp [spanNumeral]
  | cons c s ih =>
      unfold spanNumeral
      split
      · exact Nat.le_succ_of_le (ih c)
      · exact Nat.le_refl _

/-- The tokens of single characters. A star is one only if no other star follows. -/
def single? : Char → Option Token
  | '*' => some (operator .mul)
  | '^' => some power
  | '+' => some (operator .add)
  | '-' => some (operator .sub)
  | '/' => some (operator .div)
  | '(' => some openParen
  | ')' => some closeParen
  | ',' => some comma
  | _ => none

/-- The tokens of a text that stands at position `offset`. -/
def scanFrom (offset : Nat) (s : Text) : Except ArithmeticError (List (Nat × Token)) :=
  match s with
  | [] => .ok []
  | '*' :: '*' :: rest => do return (offset, power) :: (← scanFrom (offset + 2) rest)
  | c :: rest =>
      if isBlank c then scanFrom (offset + c.utf8Size) rest
      else if c.isDigit || c == '.' then
        let figures := c :: (spanNumeral c rest).1
        match numeral? figures with
        | none => .error ⟨offset, .invalidNumber figures⟩
        | some value => do
            return (offset, number value) ::
              (← scanFrom (offset + Text.width figures) (spanNumeral c rest).2)
      else if isNameStart c then
        let word := (c :: rest).takeWhile isNameChar
        do
          return (offset, name word) ::
            (← scanFrom (offset + Text.width word) ((c :: rest).dropWhile isNameChar))
      else
        match single? c with
        | none => .error ⟨offset, .unexpectedCharacter c⟩
        | some token => do return (offset, token) :: (← scanFrom (offset + c.utf8Size) rest)
termination_by s.length
decreasing_by
  · simp only [List.length_cons]
    omega
  · simp
  · exact Nat.lt_succ_of_le (length_spanNumeral_le c rest)
  · exact Text.length_dropWhile_cons_lt (Text.isNameChar_of_isNameStart (by assumption))
  · simp

/-- The tokens of an expression with their positions. -/
def scan (s : Text) : Except ArithmeticError (List (Nat × Token)) := scanFrom 0 s

end Token

end OdeModel
