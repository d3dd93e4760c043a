import OdeModel.Line.Preparation
import OdeModel.Statement.Block
import OdeModel.Statement.LookupTable
import OdeModel.Statement.Record

/-!
# Extraction of the definitions

Block statements are read first, one kind after the other, then every line
that is left.
-/

namespace OdeModel

namespace Draft

/-- A reader that uses no following line. -/
def alone (reader : Line → Draft → Except ModelError Draft) : BlockReader :=
  fun line _ draft => do return (← reader line draft, 0)

/-- The definitions of all lines. -/
def recordAll : List Line → Draft → Except ModelError Draft
  | [], draft => .ok draft
  | line :: later, draft => do recordAll later (← line.record draft)

/-- The draft of the given statements. -/
def ofLines (settings : Settings) (files : FileReader) (lines : List Line) :
    Except ModelError Draft := do
  let draft := empty settings
  let (draft, lines) ← readBlocks "export".toList (alone Line.recordExport) 0 lines draft
  let (draft, lines) ← readBlocks "markov".toList Line.recordMarkov 0 lines draft
  let table := fun line => Line.recordTable line settings.tableDirectory files
  let (draft, lines) ← readBlocks "table".toList (alone table) 0 lines draft
  let (draft, lines) ← readBlocks "wiener".toList (alone Line.recordWiener) 0 lines draft
  let (draft, lines) ← readBlocks "global".toList (alone Line.recordGlobal) 0 lines draft
  recordAll lines draft

/-- The draft of a model in text; an error about the whole text calls it `name`. -/
def ofInput (settings : Settings) (files : FileReader) (name input : Text) :
    Except ModelError Draft := do
  ofLines settings files (← Line.prepare name settings.arrayVariable input)

/-- The paths of the files that the statements of a model may read. -/
def tablePaths (settings : Settings) (input : Text) : List Text :=
  match Line.prepare [] settings.arrayVariable input with
  | .error _ => []
  | .ok lines =>
      (lines.filterMap Line.tableFile?).map (Path.join settings.tableDirectory)

/-- The draft of a model in a file. -/
def ofFile (settings : Settings) (files : FileReader) (path : Text) : Except ModelError Draft :=
  match files path with
  | .error fault => .error (.unreadableModel path fault)
  | .ok input => ofInput settings files path input

end Draft

end OdeModel
