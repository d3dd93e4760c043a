import OdeModel.Text.Basic

/-!
# Words

Statements are made of words. A word starts after spaces and commas and ends
before the next space or equals sign, so it may hold brackets and operators,
and it is empty where an equals sign comes first.
-/

namespace OdeModel

/-- A word of a statement. -/
structure Word where
  /-- Position of the first character. -/
  start : Nat
  /-- The word itself. -/
  text : Text
  /-- The character after the word; none at the end of the text. -/
  delimiter : Option Char
  deriving Repr, DecidableEq

namespace Word

/-- Position after the last character. -/
def stop (word : Word) : Nat := word.start + Text.width word.text

end Word

namespace Text

/-- The first word of a text that stands at position `start`. -/
def firstWord (start : Nat) (s : Text) : Option Word :=
  let skipped := s.takeWhile fun c => c == ' ' || c == ','
  let body := s.dropWhile fun c => c == ' ' || c == ','
  if body.isEmpty then none
  else
    some {
      start := start + width skipped
      text := body.takeWhile fun c => c != ' ' && c != '='
      delimiter := (body.dropWhile fun c => c != ' ' && c != '=').head? }

/-- The next word at or after position `start`. -/
def nextWord (s : Text) (start : Nat) : Option Word := (suffix? start s).bind (firstWord start)

/-- At most `count` words, each looked for where the one before it ended. After
an empty word the search goes on behind the equals sign. -/
def nextWords (s : Text) : (count start : Nat) → List Word
  | 0, _ => []
  | count + 1, start =>
      match s.nextWord start with
      | none => []
      | some word =>
          word :: nextWords s count (if word.text.isEmpty then word.stop + 1 else word.stop)

/-- All words at or after position `start`. -/
def words (s : Text) (start : Nat) : List Word :=
  s.nextWords (s.length + 1) start

/-- The pieces at or after position `start` that hold no cut character, empty
ones left out, each with its position. -/
def splitWords (s : Text) (start : Nat) (isCut : Char → Bool) : List (Nat × Text) :=
  (fields isCut start (dropBytes start s)).filter fun (_, piece) => !piece.isEmpty

end Text

end OdeModel
