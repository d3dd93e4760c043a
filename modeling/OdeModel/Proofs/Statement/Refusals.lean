import OdeModel.Proofs.Steps
import OdeModel.Statement.Extraction
import Mathlib.Tactic.SplitIfs

/-!
# Steps that read no list

Words, names, numbers, rows of processes and tables are refused for many reasons, but an empty
element is refused in lists only.
-/

namespace OdeModel

/-- Whatever the step fails at, it is not an element of a list. -/
def SparesLists {α : Type} (x : Except ModelError α) : Prop :=
  ∀ place, x ≠ .error (.located .expectedListArgument place)

theorem SparesLists.bind {α β : Type} {x : Except ModelError α} {f : α → Except ModelError β}
    (hx : SparesLists x) (hf : ∀ a, SparesLists (f a)) : SparesLists (x >>= f) := by
  intro place h
  rcases bind_eq_error_iff.1 h with hfirst | ⟨a, -, hlater⟩
  · exact hx place hfirst
  · exact hf a place hlater

theorem sparesLists_ok {α : Type} (a : α) : SparesLists (.ok a) := fun _ h => nomatch h

theorem sparesLists_error {α : Type} {fault : Fault} (h : fault ≠ .expectedListArgument)
    (line : Line) (column : Nat) : SparesLists (α := α) (.error (line.error fault column)) := by
  rintro place ⟨⟩
  exact h rfl

theorem Scope.objection?_ne (scope : Scope) (name : Text) :
    scope.objection? name ≠ some .expectedListArgument := by
  unfold objection?
  split_ifs <;> decide

theorem Draft.sparesLists_define (draft : Draft) (line : Line) (name : Text) (column : Nat) :
    SparesLists (draft.define line name column) := by
  unfold define Scope.define
  cases hobjection : draft.scope.objection? name with
  | none => exact sparesLists_ok _
  | some fault =>
      refine sparesLists_error ?_ line column
      rintro rfl
      exact draft.scope.objection?_ne name hobjection

namespace Line

variable {line : Line} {draft : Draft}

theorem sparesLists_firstWord (line : Line) : SparesLists line.firstWord := by
  unfold firstWord
  split
  next => exact sparesLists_ok _
  next => exact sparesLists_error (by decide) _ _

theorem sparesLists_wordAfter {fault : Fault} (h : fault ≠ .expectedListArgument) (line : Line)
    (column : Nat) : SparesLists (line.wordAfter column fault) := by
  unfold wordAfter
  split
  next => exact sparesLists_ok _
  next => exact sparesLists_error h _ _

theorem sparesLists_openCurly (line : Line) (column : Nat) :
    SparesLists (line.openCurly column) := by
  unfold openCurly
  split
  next => exact sparesLists_ok _
  next => exact sparesLists_error (by decide) _ _

theorem sparesLists_markovEntries (row : Line) (count column : Nat) :
    SparesLists (row.markovEntries count column) := by
  induction count generalizing column with
  | zero =>
      unfold markovEntries
      dsimp only
      split
      next => exact sparesLists_ok _
      next => exact sparesLists_error (by decide) _ _
  | succ count ih =>
      unfold markovEntries
      split
      next => exact sparesLists_error (by decide) _ _
      next =>
        split
        next => exact sparesLists_error (by decide) _ _
        next =>
          dsimp only
          split
          next => exact sparesLists_error (by decide) _ _
          next => exact (ih _).bind fun _ => sparesLists_ok _

theorem sparesLists_markovRows (head : Line) (states count : Nat) (following : List Line) :
    SparesLists (head.markovRows states count following) := by
  induction count generalizing following with
  | zero => exact sparesLists_ok _
  | succ count ih =>
      cases following with
      | nil => exact sparesLists_error (by decide) _ _
      | cons row later =>
          exact (sparesLists_markovEntries row states 0).bind fun _ =>
            (ih later).bind fun _ => sparesLists_ok _

theorem sparesLists_recordMarkov (line : Line) (following : List Line) (draft : Draft) :
    SparesLists (line.recordMarkov following draft) := by
  refine (sparesLists_firstWord line).bind fun keyword =>
    (sparesLists_wordAfter (by decide) line _).bind fun name =>
      (sparesLists_wordAfter (by decide) line _).bind fun count => ?_
  split
  next => exact sparesLists_error (by decide) _ _
  next =>
    exact (draft.sparesLists_define line _ _).bind fun _ =>
      (sparesLists_markovRows line _ _ _).bind fun _ => sparesLists_ok _

theorem sparesLists_recordWieners (line : Line) (names : List (Nat × Text)) (draft : Draft) :
    SparesLists (line.recordWieners names draft) := by
  induction names generalizing draft with
  | nil => exact sparesLists_ok _
  | cons first later ih =>
      obtain ⟨column, name⟩ := first
      exact (draft.sparesLists_define line name column).bind fun defined => ih _

theorem sparesLists_recordWiener (line : Line) (draft : Draft) :
    SparesLists (line.recordWiener draft) := by
  refine (sparesLists_firstWord line).bind fun keyword => ?_
  dsimp only
  split
  next => exact sparesLists_error (by decide) _ _
  next => exact sparesLists_recordWieners line _ _

theorem sparesLists_tableByExpression (line : Line) (percent : Word) :
    SparesLists (line.tableByExpression percent) := by
  have hcount : ∀ word, SparesLists (line.countAt word) := by
    intro word
    unfold countAt
    split
    next => exact sparesLists_ok _
    next => exact sparesLists_error (by decide) _ _
  have hvalue : ∀ word, SparesLists (line.valueAt word) := by
    intro word
    unfold valueAt
    split
    next => exact sparesLists_ok _
    next => exact sparesLists_error (by decide) _ _
  have hword : ∀ column, SparesLists (line.wordAfter column .expectedTableAssignment) :=
    sparesLists_wordAfter (by decide) line
  refine (hword _).bind fun countWord => (hword _).bind fun lowWord =>
    (hword _).bind fun highWord => (hcount _).bind fun count => (hvalue _).bind fun low =>
      (hvalue _).bind fun high => ?_
  dsimp only
  split
  next => exact sparesLists_error (by decide) _ _
  next =>
    split
    next => exact sparesLists_ok _
    next => exact sparesLists_error (by decide) _ _

theorem sparesLists_readValues (line : Line) (count : Nat) (rows : List Line) :
    SparesLists (LookupTable.readValues line count rows) := by
  induction count generalizing rows with
  | zero => exact sparesLists_ok _
  | succ count ih =>
      cases rows with
      | nil => exact sparesLists_error (by decide) _ _
      | cons row later =>
          have hrow : SparesLists (LookupTable.rowValue row) := by
            unfold LookupTable.rowValue
            split
            next => exact sparesLists_ok _
            next => exact sparesLists_error (by decide) _ _
          exact hrow.bind fun _ => (ih later).bind fun _ => sparesLists_ok _

theorem sparesLists_tableByFile (line : Line) (directory : Text) (files : FileReader)
    (name : Text) : SparesLists (line.tableByFile directory files name) := by
  have hcontents : ∀ contents, SparesLists (LookupTable.ofContents line contents) := by
    intro contents
    unfold LookupTable.ofContents
    split
    next => exact sparesLists_error (by decide) _ _
    next =>
      split
      next => exact sparesLists_error (by decide) _ _
      next =>
        exact (sparesLists_readValues line _ _).bind fun _ =>
          (sparesLists_readValues line _ _).bind fun _ => sparesLists_ok _
  unfold tableByFile
  dsimp only
  split
  next =>
    intro place h
    cases h
  next => exact (hcontents _).bind fun _ => sparesLists_ok _

theorem sparesLists_recordTable (line : Line) (directory : Text) (files : FileReader)
    (draft : Draft) : SparesLists (line.recordTable directory files draft) := by
  refine (sparesLists_firstWord line).bind fun keyword =>
    (sparesLists_wordAfter (by decide) line _).bind fun name =>
      (sparesLists_wordAfter (by decide) line _).bind fun source =>
        (draft.sparesLists_define line _ _).bind fun defined => ?_
  dsimp only
  split
  next => exact (sparesLists_tableByExpression line _).bind fun _ => sparesLists_ok _
  next => exact (sparesLists_tableByFile line _ _ _).bind fun _ => sparesLists_ok _

theorem sparesLists_leadingForm (line : Line) : SparesLists line.leadingForm := by
  refine (sparesLists_firstWord line).bind fun first => ?_
  split
  next => exact sparesLists_ok _
  next =>
    split
    next =>
      split
      next => exact sparesLists_ok _
      next => exact sparesLists_error (by decide) _ _
    next => exact sparesLists_error (by decide) _ _
  next => exact sparesLists_error (by decide) _ _

end Line

namespace Assignment

variable {line : Line} {assignment : Assignment}

theorem sparesLists_defineName (line : Line) (assignment : Assignment) (draft : Draft) :
    SparesLists (assignment.defineName line draft) := by
  unfold defineName
  split
  case h_1 | h_2 | h_3 =>
    split
    next => exact sparesLists_ok _
    next => exact sparesLists_error (by decide) _ _
  case h_4 | h_5 => exact sparesLists_ok _
  case h_6 =>
    split
    next => exact sparesLists_error (by decide) _ _
    next => exact (draft.sparesLists_define line _ _).bind fun _ => sparesLists_ok _

theorem sparesLists_checkFormals (line : Line) (body : List Operand) (earlier : List Text)
    (formals : List (Nat × Text)) : SparesLists (checkFormals line body earlier formals) := by
  induction formals generalizing earlier with
  | nil => exact sparesLists_ok _
  | cons first later ih =>
      obtain ⟨column, formal⟩ := first
      unfold checkFormals
      split
      next => exact sparesLists_error (by decide) _ _
      next =>
        split
        next => exact sparesLists_error (by decide) _ _
        next => exact ih _

end Assignment

end OdeModel
