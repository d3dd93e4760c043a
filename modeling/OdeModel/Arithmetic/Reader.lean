import OdeModel.Arithmetic.Expr

/-!
# Reading expressions

Sums bind least, then products, then signs, then powers. Sums and products
group to the left; a power takes a signed operand as its exponent, so powers
group to the right. A reading that breaks off hands over the expressions that
were complete by then: a fault in the value of one of them comes first.
-/

namespace OdeModel

namespace Expr

/-- A reading that broke off. -/
structure Interruption where
  /-- The complete expressions before the place of the error, in order. -/
  read : List Expr
  /-- What broke the reading off. -/
  error : ArithmeticError

/-- The tokens still to be read. -/
abbrev Tokens := List (Nat × Token)

/-- The same reading after some expressions that were complete before. -/
def after {α : Type} (complete : List Expr) (reading : Except Interruption α) :
    Except Interruption α :=
  reading.mapError fun interruption =>
    { interruption with read := complete ++ interruption.read }

/-- Position of the next token; `stop` when none is left. -/
def nextOffset (stop : Nat) : Tokens → Nat
  | [] => stop
  | (offset, _) :: _ => offset

/-- Goes past a closing parenthesis that must come now. -/
def closing {α : Type} (stop : Nat) (complete : List Expr) (result : α) :
    Tokens → Except Interruption (α × Tokens)
  | (_, .closeParen) :: rest => .ok (result, rest)
  | tokens => .error ⟨complete, nextOffset stop tokens, .expectedClosing⟩

mutual

/-- Reads a sum. -/
def readSum (stop : Nat) : Nat → Tokens → Except Interruption (Expr × Tokens)
  | 0, tokens => .error ⟨[], nextOffset stop tokens, .unexpectedEnd⟩
  | fuel + 1, tokens => do
      let (left, rest) ← readProduct stop fuel tokens
      readTerms stop fuel left rest

/-- Reads the further terms of a sum. -/
def readTerms (stop : Nat) : Nat → Expr → Tokens → Except Interruption (Expr × Tokens)
  | 0, left, tokens => .error ⟨[left], nextOffset stop tokens, .unexpectedEnd⟩
  | fuel + 1, left, tokens =>
      match tokens with
      | (_, .operator .add) :: rest => do
          let (right, rest) ← after [left] (readProduct stop fuel rest)
          readTerms stop fuel (.binary .add left right) rest
      | (_, .operator .sub) :: rest => do
          let (right, rest) ← after [left] (readProduct stop fuel rest)
          readTerms stop fuel (.binary .sub left right) rest
      | _ => .ok (left, tokens)

/-- Reads a product. -/
def readProduct (stop : Nat) : Nat → Tokens → Except Interruption (Expr × Tokens)
  | 0, tokens => .error ⟨[], nextOffset stop tokens, .unexpectedEnd⟩
  | fuel + 1, tokens => do
      let (left, rest) ← readSigned stop fuel tokens
      readFactors stop fuel left rest

/-- Reads the further factors of a product. -/
def readFactors (stop : Nat) : Nat → Expr → Tokens → Except Interruption (Expr × Tokens)
  | 0, left, tokens => .error ⟨[left], nextOffset stop tokens, .unexpectedEnd⟩
  | fuel + 1, left, tokens =>
      match tokens with
      | (_, .operator .mul) :: rest => do
          let (right, rest) ← after [left] (readSigned stop fuel rest)
          readFactors stop fuel (.binary .mul left right) rest
      | (_, .operator .div) :: rest => do
          let (right, rest) ← after [left] (readSigned stop fuel rest)
          readFactors stop fuel (.binary .div left right) rest
      | _ => .ok (left, tokens)

/-- Reads signs and a power. -/
def readSigned (stop : Nat) : Nat → Tokens → Except Interruption (Expr × Tokens)
  | 0, tokens => .error ⟨[], nextOffset stop tokens, .unexpectedEnd⟩
  | fuel + 1, tokens =>
      match tokens with
      | (_, .operator .sub) :: rest => do
          let (operand, rest) ← readSigned stop fuel rest
          return (.negate operand, rest)
      | (_, .operator .add) :: rest => readSigned stop fuel rest
      | _ => readPower stop fuel tokens

/-- Reads an operand and perhaps an exponent. -/
def readPower (stop : Nat) : Nat → Tokens → Except Interruption (Expr × Tokens)
  | 0, tokens => .error ⟨[], nextOffset stop tokens, .unexpectedEnd⟩
  | fuel + 1, tokens => do
      let (base, rest) ← readOperand stop fuel tokens
      match rest with
      | (_, .power) :: rest => do
          let (exponent, rest) ← after [base] (readSigned stop fuel rest)
          return (.power base exponent, rest)
      | rest => .ok (base, rest)

/-- Reads a number, a name, a call or a group in parentheses. -/
def readOperand (stop : Nat) : Nat → Tokens → Except Interruption (Expr × Tokens)
  | 0, tokens => .error ⟨[], nextOffset stop tokens, .unexpectedEnd⟩
  | fuel + 1, tokens =>
      match tokens with
      | [] => .error ⟨[], stop, .unexpectedEnd⟩
      | (_, .number value) :: rest => .ok (.number value, rest)
      | (_, .openParen) :: rest => do
          let (inner, rest) ← readSum stop fuel rest
          closing stop [inner] inner rest
      | (offset, .name word) :: (_, .openParen) :: rest => do
          let (arguments, rest) ← readArguments stop fuel rest
          closing stop arguments (.call offset word arguments) rest
      | (offset, .name word) :: rest => .ok (.name offset word, rest)
      | (offset, token) :: _ => .error ⟨[], offset, .unexpectedToken token⟩

/-- Reads one or more arguments with commas between them. -/
def readArguments (stop : Nat) : Nat → Tokens → Except Interruption (List Expr × Tokens)
  | 0, tokens => .error ⟨[], nextOffset stop tokens, .unexpectedEnd⟩
  | fuel + 1, tokens => do
      let (first, rest) ← readSum stop fuel tokens
      match rest with
      | (_, .comma) :: rest => do
          let (later, rest) ← after [first] (readArguments stop fuel rest)
          return (first :: later, rest)
      | rest => .ok ([first], rest)

end

/-- Reads a whole expression. Between two tokens that are read at most eight
rules of the grammar are entered, which bounds the depth. -/
def ofTokens (stop : Nat) (tokens : Tokens) : Except Interruption Expr := do
  let (expr, rest) ← readSum stop (8 * (tokens.length + 1)) tokens
  match rest with
  | [] => .ok expr
  | (offset, _) :: _ => .error ⟨[expr], offset, .trailingInput⟩

end Expr

/-- The value of an expression in text. When it cannot be read to the end, a
fault in the value of a part that was complete by then is reported first. -/
def evalText (env : Environment) (s : Text) : Except ArithmeticError Value := do
  let tokens ← Token.scan s
  match Expr.ofTokens (Text.width s) tokens with
  | .ok expr => expr.eval env
  | .error interruption => do
      let _ ← Expr.evalAll env interruption.read
      .error interruption.error

end OdeModel
