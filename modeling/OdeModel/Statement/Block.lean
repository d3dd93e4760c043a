import OdeModel.Number.Whole
import OdeModel.Statement.Draft

/-!
# Block statements

Statements that are led by a keyword and hold lists, or that go on over the
following lines. A reader of such a statement gets the lines behind it and
tells how many of them it has used.
-/

namespace OdeModel

namespace Line

/-- `export {inputs} {outputs}`. The expression is the number of inputs. -/
def recordExport (line : Line) (draft : Draft) : Except ModelError Draft := do
  let (inputs, close) ← line.listAt (← line.openCurly 0) (· == ',')
  let (outputs, _) ← line.listAt (← line.openCurly (close + 1)) (· == ',')
  return draft.push .exports
    ⟨line.number, [], natText inputs.length, (inputs ++ outputs).map Prod.snd⟩

/-- Reads `count` entries of a row of a markov process from a column on, and
checks that nothing follows them. -/
def markovEntries (row : Line) : (count column : Nat) → Except ModelError (List Text)
  | 0, column =>
      let behind := Text.dropBytes column row.text
      let blanks := behind.takeWhile isBlank
      if blanks.length = behind.length then .ok []
      else .error (row.error .wrongMarkovAssignment (column + Text.width blanks))
  | count + 1, column =>
      match Text.find? row.text column '\x7b' with
      | none => .error (row.error .missingMarkovAssignment column)
      | some start =>
          match Text.matchingBracket row.text start with
          | none => .error (row.error .missingClosingBracket start)
          | some close =>
              let entry := Text.withoutBlanks (Text.slice row.text (start + 1) close)
              if entry.isEmpty then .error (row.error .missingMarkovAssignment (start + 1))
              else do return entry :: (← row.markovEntries count (close + 1))

/-- Reads `count` rows of `states` entries each from the lines behind a head. -/
def markovRows (head : Line) (states : Nat) :
    (count : Nat) → List Line → Except ModelError (List Text)
  | 0, _ => .ok []
  | _ + 1, [] => .error (head.error .missingMarkovAssignment head.width)
  | count + 1, row :: later => do
      let entries ← row.markovEntries states 0
      return entries ++ (← head.markovRows states count later)

/-- `markov name count` and as many rows of as many entries. -/
def recordMarkov (line : Line) (following : List Line) (draft : Draft) :
    Except ModelError (Draft × Nat) := do
  let keyword ← line.firstWord
  let name ← line.wordAfter keyword.stop .unknownAssignment
  let count ← line.wordAfter name.stop .expectedNumber
  match (readCount? count.text).filter (0 < ·) with
  | none => .error (line.error .expectedNumber count.start)
  | some states =>
      let draft ← draft.define line name.text name.start
      let entries ← line.markovRows states states following
      return (draft.push .markovs ⟨line.number, name.text, natText states, entries⟩, states)

/-- Defines the given processes of a `wiener` line. -/
def recordWieners (line : Line) : List (Nat × Text) → Draft → Except ModelError Draft
  | [], draft => .ok draft
  | (column, name) :: later, draft => do
      let draft ← draft.define line name column
      line.recordWieners later (draft.push .wieners ⟨line.number, name, [], []⟩)

/-- `wiener name name, name`. -/
def recordWiener (line : Line) (draft : Draft) : Except ModelError Draft := do
  let keyword ← line.firstWord
  let names := Text.splitWords line.text keyword.stop fun c => c == ' ' || c == ','
  if names.isEmpty then .error (line.error .unknownAssignment line.width)
  else line.recordWieners names draft

/-- `global sign condition {reset;reset}`. The sign is kept as the name. -/
def recordGlobal (line : Line) (draft : Draft) : Except ModelError Draft := do
  let keyword ← line.firstWord
  let sign ← line.wordAfter keyword.stop .expectedNumber
  match (readInt? sign.text).filter fun n => -1 ≤ n ∧ n ≤ 1 with
  | none => .error (line.error .expectedNumber sign.start)
  | some direction =>
      let start ← line.openCurly sign.stop
      let condition := Text.withoutBlanks (Text.slice line.text sign.stop start)
      if condition.isEmpty then .error (line.error .unknownAssignment sign.stop)
      else do
        let (resets, _) ← line.listAt start (· == ';')
        return draft.push .globals
          ⟨line.number, intText direction, condition, resets.map Prod.snd⟩

end Line

namespace Draft

/-- A reader of a block statement: the draft and the number of following lines
that belong to the statement. -/
abbrev BlockReader := Line → List Line → Draft → Except ModelError (Draft × Nat)

/-- Reads every statement led by a keyword and keeps the other lines. `used`
lines at the front belong to the statement before them. -/
def readBlocks (keyword : Text) (reader : BlockReader) :
    (used : Nat) → List Line → Draft → Except ModelError (Draft × List Line)
  | _, [], draft => .ok (draft, [])
  | used + 1, _ :: later, draft => readBlocks keyword reader used later draft
  | 0, line :: later, draft => do
      if line.leadingWord? = some keyword then
        let (draft, used) ← reader line later draft
        readBlocks keyword reader used later draft
      else
        let (draft, kept) ← readBlocks keyword reader 0 later draft
        return (draft, line :: kept)

end Draft

end OdeModel
