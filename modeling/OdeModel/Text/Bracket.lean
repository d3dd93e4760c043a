import OdeModel.Text.Blank

/-!
# Brackets

Round, square and curly brackets nest. The functions here count them without
looking at their kind; whether kinds match is checked once for every line.
-/

namespace OdeModel

/-- The brackets `(`, `[` and `{`. -/
def isOpening (c : Char) : Bool := c == '(' || c == '[' || c == '\x7b'

/-- The brackets `)`, `]` and the closing curly one. -/
def isClosing (c : Char) : Bool := c == ')' || c == ']' || c == '\x7d'

/-- The opening bracket that a closing bracket belongs to. -/
def openingOf (c : Char) : Char :=
  if c == ')' then '(' else if c == ']' then '[' else '\x7b'

/-- Number of open brackets after reading `c`. A closing bracket without an
open one leaves it at zero. -/
def nest (depth : Nat) (c : Char) : Nat :=
  if isOpening c then depth + 1 else if isClosing c then depth - 1 else depth

namespace Text

/-- Reads on with `depth` open brackets until the last of them is closed: what
stands before that closing bracket and what follows it. There is no answer when
a bracket closes that was never opened, or when the text ends too early. -/
def untilClosed : Nat → Text → Option (Text × Text)
  | _, [] => none
  | depth, c :: rest =>
      if isOpening c then
        (untilClosed (depth + 1) rest).map fun (inside, later) => (c :: inside, later)
      else if isClosing c then
        match depth with
        | 0 => none
        | 1 => some ([], rest)
        | left + 2 =>
            (untilClosed (left + 1) rest).map fun (inside, later) => (c :: inside, later)
      else
        (untilClosed depth rest).map fun (inside, later) => (c :: inside, later)

/-- Position of the bracket that closes the one at position `start`. -/
def matchingBracket (s : Text) (start : Nat) : Option Nat :=
  (untilClosed 0 (dropBytes start s)).map fun (inside, _) => start + width inside

/-- The pieces between the cut characters that stand outside of any bracket,
each with its position. -/
def topFields (isCut : Char → Bool) : (depth offset : Nat) → Text → List (Nat × Text)
  | _, offset, [] => [(offset, [])]
  | depth, offset, c :: rest =>
      if depth = 0 ∧ isCut c ∧ !isOpening c ∧ !isClosing c then
        (offset, []) :: topFields isCut 0 (offset + c.utf8Size) rest
      else
        match topFields isCut (nest depth c) (offset + c.utf8Size) rest with
        | [] => [(offset, [c])]
        | (_, piece) :: later => (offset, c :: piece) :: later

/-- The text before the first comma outside of any bracket, and the rest from
that comma on. -/
def spanToComma : (depth : Nat) → Text → Text × Text
  | _, [] => ([], [])
  | depth, c :: rest =>
      if depth = 0 ∧ c = ',' then ([], c :: rest)
      else
        let (before, later) := spanToComma (nest depth c) rest
        (c :: before, later)

/-- The expression after the character at position `start`, usually an equals
sign: all up to the next comma outside of brackets, without blanks, and the
position of that comma. -/
def nextExpression (s : Text) (start : Nat) : Text × Option Nat :=
  let first := min (start + 1) (width s)
  let (before, later) := spanToComma 0 (dropBytes first s)
  (withoutBlanks before, if later.isEmpty then none else some (first + width before))

/-- An element of a list without the blanks around it; a blank element is
refused, with its position. -/
def trimItem : Nat × Text → Except Nat (Nat × Text)
  | (offset, piece) =>
      if (trim piece).isEmpty then .error offset
      else .ok (offset + width (piece.takeWhile isBlank), trim piece)

/-- The elements of the bracketed list that opens at position `start`, each
with its position, and the position of the closing bracket. A list that is not
closed ends with the text. The error is the position of an empty element. -/
def splitList (s : Text) (start : Nat) (isCut : Char → Bool) :
    Except Nat (List (Nat × Text) × Nat) := do
  let close := (matchingBracket s start).getD (width s)
  let items ← (topFields isCut 0 (start + 1) (slice s (start + 1) close)).mapM trimItem
  return (items, close)

/-- What follows the closing bracket is shorter than the text. -/
theorem length_lt_of_untilClosed {depth : Nat} {s inside later : Text}
    (h : untilClosed depth s = some (inside, later)) : later.length < s.length := by
  induction s generalizing depth inside with
  | nil => simp [untilClosed] at h
  | cons c s ih =>
      unfold untilClosed at h
      split at h
      · simp only [Option.map_eq_some_iff, Prod.mk.injEq, Prod.exists] at h
        obtain ⟨a, b, hab, _, rfl⟩ := h
        exact Nat.lt_succ_of_lt (ih hab)
      · split at h
        · split at h
          · simp at h
          · simp only [Option.some.injEq, Prod.mk.injEq] at h
            obtain ⟨_, rfl⟩ := h
            simp
          · simp only [Option.map_eq_some_iff, Prod.mk.injEq, Prod.exists] at h
            obtain ⟨a, b, hab, _, rfl⟩ := h
            exact Nat.lt_succ_of_lt (ih hab)
        · simp only [Option.map_eq_some_iff, Prod.mk.injEq, Prod.exists] at h
          obtain ⟨a, b, hab, _, rfl⟩ := h
          exact Nat.lt_succ_of_lt (ih hab)

end Text

end OdeModel
