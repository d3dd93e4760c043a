import OdeModel.Proofs.Line.Brackets
import OdeModel.Proofs.Statement.Made

/-!
# What is recorded

The expressions of a draft are cut out of settled lines, so they are settled; only the name
of a special function may end inside of a bracket, but no parenthesis stands in it. The
definitions without a name of their own are recorded under the empty name, and those of
global flags under a sign.
-/

namespace OdeModel

open Text

/-- What holds of every definition that a statement makes; of some only if the lines of the
text are settled. -/
structure Definition.IsRecorded (settled : Prop) (category : Category) (definition : Definition) :
    Prop where
  unnamed : category ∈ [.boundaries, .exports] → definition.name = []
  sign : category = .globals → isIdentifier definition.name = false
  formals : category = .functions → definition.args.Nodup
  expr : settled → category ∈ Category.expanded → category ≠ .special → Settled definition.expr
  special : category = .special → ParensClosed definition.expr
  entries : category = .markovs → ∀ entry ∈ definition.args, Settled entry

/-- All definitions of the table are recorded so. -/
def SymbolTable.IsRecorded (settled : Prop) (table : SymbolTable) : Prop :=
  ∀ category, ∀ definition ∈ table.get category, definition.IsRecorded settled category

variable {settled : Prop}

namespace SymbolTable.IsRecorded

theorem empty : empty.IsRecorded settled := by
  intro category definition hmem
  simp at hmem

theorem push {table : SymbolTable} (h : table.IsRecorded settled) {category : Category}
    {definition : Definition} (hdefinition : definition.IsRecorded settled category) :
    (table.push category definition).IsRecorded settled := by
  intro other entry hmem
  rcases mem_get_push_iff.1 hmem with hmem | ⟨rfl, rfl⟩
  · exact h other entry hmem
  · exact hdefinition

end SymbolTable.IsRecorded

/-- Of most definitions nothing has to hold. -/
theorem Definition.isRecorded_of_not_mem {category : Category} (definition : Definition)
    (h : category ∉ .boundaries :: .exports :: .globals :: .markovs :: Category.expanded) :
    definition.IsRecorded settled category := by
  simp only [List.mem_cons, not_or] at h
  obtain ⟨hboundaries, hexports, hglobals, hmarkovs, hexpanded⟩ := h
  have hin : ∀ category ∈ [Category.functions, .special], category ∈ Category.expanded := by decide
  constructor
  case unnamed => simp [hboundaries, hexports]
  case sign => exact fun h => absurd h hglobals
  case formals => exact fun h => absurd (hin category (by simp [h])) hexpanded
  case expr => exact fun _ h => absurd h hexpanded
  case special => exact fun h => absurd (hin category (by simp [h])) hexpanded
  case entries => exact fun h => absurd h hmarkovs

namespace Text

variable {s t : Text}

theorem takeBytes_append_dropBytes (n : Nat) (s : Text) : takeBytes n s ++ dropBytes n s = s := by
  induction s generalizing n with
  | nil => rfl
  | cons c s ih =>
      rw [takeBytes, dropBytes]
      split
      · rfl
      · rw [List.cons_append, ih]

theorem Settled.dropBytes (h : Settled s) (n : Nat) : Settled (dropBytes n s) :=
  Settled.of_append ((takeBytes_append_dropBytes n s).symm ▸ h)

theorem Settled.withoutBlanks (h : Settled s) : Settled (withoutBlanks s) :=
  h.congr (brackets_withoutBlanks s).symm

/-- An expression of a settled line is settled, wherever it starts. -/
theorem Settled.nextExpression (h : Settled s) (start : Nat) :
    Settled (nextExpression s start).1 :=
  Settled.withoutBlanks (level_spanToComma (h.dropBytes _))

theorem settled_of_isRow {entries : List Text} (h : IsRow s entries) :
    ∀ entry ∈ entries, Settled entry := by
  induction h with
  | nil => exact List.forall_mem_nil _
  | cons _ hclosed _ ih =>
      exact List.forall_mem_cons.2 ⟨(settled_of_untilClosed hclosed).withoutBlanks, ih⟩

/-- A sign is written with digits only, perhaps behind a minus. -/
theorem isIdentifier_intText (n : Int) : isIdentifier (intText n) = false := by
  have hdigits : ∀ m : Nat, (natText m).head?.any isNameStart = false := by
    intro m
    cases hhead : (natText m).head? with
    | none => rfl
    | some c =>
        exact isNameStart_of_isDigit (Nat.isDigit_of_mem_toDigits (by decide) (by decide)
          (List.mem_of_head? hhead))
  by_contra hidentifier
  have hstart := (isNameText_of_isIdentifier (Bool.not_eq_false _ ▸ hidentifier)).1
  unfold intText at hstart
  split at hstart
  · contradiction
  · rw [hdigits] at hstart
    contradiction

/-- Up to the first parenthesis none opens. -/
theorem not_mem_takeBytes_of_find? {c : Char} {found : Nat} (h : find? s 0 c = some found) :
    c ∉ takeBytes found s := by
  have hstart : find? ([] ++ s) (width []) c = some found := h
  obtain ⟨gap, after, rfl, hgap, rfl⟩ := find?_eq_some_iff.1 hstart
  rwa [List.nil_append, takeBytes_width_append]

end Text

/-! ### Readers of statements -/

namespace Line

variable {line : Line} {draft recorded : Draft}

theorem recordExport_isRecorded (h : line.recordExport draft = .ok recorded)
    (hdraft : draft.symbols.IsRecorded settled) : recorded.symbols.IsRecorded settled := by
  unfold recordExport at h
  obtain ⟨inputsStart, -, h⟩ := bind_eq_ok_iff.1 h
  obtain ⟨⟨inputs, close⟩, -, h⟩ := bind_eq_ok_iff.1 h
  obtain ⟨outputsStart, -, h⟩ := bind_eq_ok_iff.1 h
  obtain ⟨⟨outputs, _⟩, -, h⟩ := bind_eq_ok_iff.1 h
  cases h
  exact hdraft.push ⟨fun _ => rfl, by simp, by simp,
    fun _ hexpanded => absurd hexpanded (by decide), by simp, by simp⟩

theorem recordMarkov_isRecorded {following : List Line} {used : Nat}
    (h : line.recordMarkov following draft = .ok (recorded, used))
    (hdraft : draft.symbols.IsRecorded settled) : recorded.symbols.IsRecorded settled := by
  obtain ⟨-, definition, -, ⟨-, -, grid, hargs, hgrid⟩, hsymbols⟩ := recordMarkov_spec h
  rw [hsymbols]
  refine hdraft.push ⟨by simp, by simp, by simp, fun _ hexpanded => absurd hexpanded (by decide),
    by simp, fun _ => ?_⟩
  rw [hargs]
  intro entry hentry
  obtain ⟨row, hrow, hentry⟩ := List.mem_flatten.1 hentry
  obtain ⟨source, -, -, -, hisRow⟩ := exists_of_forall₂_mem hgrid hrow
  exact settled_of_isRow hisRow entry hentry

theorem recordTable_isRecorded {directory : Text} {files : FileReader}
    (h : line.recordTable directory files draft = .ok recorded)
    (hdraft : draft.symbols.IsRecorded settled) : recorded.symbols.IsRecorded settled := by
  obtain ⟨definition, -, hsymbols⟩ := recordTable_spec h
  rw [hsymbols]
  exact hdraft.push (definition.isRecorded_of_not_mem (by decide))

theorem recordWieners_isRecorded {names : List (Nat × Text)}
    (h : line.recordWieners names draft = .ok recorded)
    (hdraft : draft.symbols.IsRecorded settled) : recorded.symbols.IsRecorded settled := by
  induction names generalizing draft with
  | nil =>
      cases h
      exact hdraft
  | cons first later ih =>
      obtain ⟨column, name⟩ := first
      unfold recordWieners at h
      obtain ⟨defined, hdefine, h⟩ := bind_eq_ok_iff.1 h
      refine ih h ?_
      rw [Draft.push, Draft.define_symbols hdefine]
      exact hdraft.push (Definition.isRecorded_of_not_mem _ (by decide))

theorem recordWiener_isRecorded (h : line.recordWiener draft = .ok recorded)
    (hdraft : draft.symbols.IsRecorded settled) : recorded.symbols.IsRecorded settled := by
  unfold recordWiener at h
  obtain ⟨keyword, -, h⟩ := bind_eq_ok_iff.1 h
  dsimp only at h
  split at h
  next => contradiction
  next => exact recordWieners_isRecorded h hdraft

theorem recordGlobal_isRecorded (h : line.recordGlobal draft = .ok recorded)
    (hdraft : draft.symbols.IsRecorded settled) : recorded.symbols.IsRecorded settled := by
  unfold recordGlobal at h
  obtain ⟨keyword, -, h⟩ := bind_eq_ok_iff.1 h
  obtain ⟨sign, -, h⟩ := bind_eq_ok_iff.1 h
  split at h
  next => contradiction
  next direction _ =>
    obtain ⟨start, -, h⟩ := bind_eq_ok_iff.1 h
    dsimp only at h
    split at h
    next => contradiction
    next =>
      obtain ⟨⟨resets, _⟩, -, h⟩ := bind_eq_ok_iff.1 h
      cases h
      exact hdraft.push ⟨by simp, fun _ => isIdentifier_intText direction, by simp,
        fun _ hexpanded => absurd hexpanded (by decide), by simp, by simp⟩

end Line

namespace Assignment

variable {line : Line} {assignment : Assignment} {draft recorded : Draft}

/-- A boundary condition has no name. -/
theorem locate_boundary {column : Nat} {leading : Option Form}
    (h : locate line column leading = .ok assignment) (hform : assignment.form = .boundary) :
    assignment.name = [] := by
  have hfits : ∀ (token : Text) (size : Nat) (found : Occurrence),
      Form.boundary.fits token size found = false := fun _ _ _ => rfl
  unfold locate at h
  split at h
  next =>
    cases h
    rfl
  next hleading =>
    split at h
    next => contradiction
    next word _ =>
      split at h
      next =>
        split at h
        next =>
          cases h
          contradiction
        next => contradiction
      next =>
        split at h
        next => contradiction
        next =>
          split at h
          next form =>
            cases h
            exact absurd (congrArg some hform) hleading
          next =>
            -- no mark in a word stands for a boundary condition
            unfold ofWord at h
            split at h
            next =>
              cases h
              contradiction
            next form found hword =>
              have hmark := Form.fits_of_ofWord? hword
              split at h
              case h_5 =>
                obtain ⟨⟨formals, _⟩, -, h⟩ := bind_eq_ok_iff.1 h
                cases h
                contradiction
              all_goals
                cases h
                dsimp only at hform
                first
                | contradiction
                | rw [hform, hfits] at hmark
                  contradiction

/-- Formal arguments differ from each other and from those before. -/
theorem checkFormals_nodup {body : List Operand} {earlier : List Text}
    {formals : List (Nat × Text)} (h : checkFormals line body earlier formals = .ok ()) :
    (formals.map Prod.snd).Nodup ∧ ∀ formal ∈ formals.map Prod.snd, formal ∉ earlier := by
  induction formals generalizing earlier with
  | nil => simp
  | cons first later ih =>
      obtain ⟨column, formal⟩ := first
      unfold checkFormals at h
      split at h
      next => contradiction
      next hnew =>
        split at h
        next => contradiction
        next =>
          obtain ⟨hnodup, hlater⟩ := ih h
          rw [List.map_cons, List.nodup_cons, List.forall_mem_cons]
          refine ⟨⟨fun hmem => hlater formal hmem List.mem_cons_self, hnodup⟩,
            by simpa using hnew, fun other hmem hearlier => ?_⟩
          exact hlater other hmem (List.mem_cons_of_mem _ hearlier)

/-- An expression that is kept as it is. -/
theorem isRecorded_of_settled {definition : Definition} {form : Form}
    (hexpr : settled → Settled definition.expr) (hfunction : form ≠ .function)
    (hspecial : form ≠ .special) (hexported : form ≠ .exported)
    (hname : form = .boundary → definition.name = []) :
    definition.IsRecorded settled form.category := by
  constructor
  case unnamed =>
    intro hmem
    cases form <;>
      first | exact hname rfl | exact absurd rfl hexported | exact absurd hmem (by decide)
  case sign =>
    intro hglobals
    cases form <;> contradiction
  case formals => exact fun hfunctions => absurd (Form.eq_function_of_category hfunctions) hfunction
  case expr => exact fun hsettled _ _ => hexpr hsettled
  case special =>
    intro hcategory
    cases form <;> contradiction
  case entries => exact fun hmarkovs => absurd hmarkovs form.category_ne_markovs

theorem contents_isRecorded {expr expr' name : Text} {args : List Text}
    (h : assignment.contents line expr = .ok (expr', args)) (hexpr : settled → Settled expr)
    (hname : assignment.form = .boundary → name = []) (hexported : assignment.form ≠ .exported) :
    Definition.IsRecorded settled assignment.form.category ⟨line.number, name, expr', args⟩ := by
  unfold contents at h
  dsimp only at h
  split at h
  next hform =>
    split at h
    next =>
      cases h
      exact isRecorded_of_settled hexpr (by simp [hform]) (by simp [hform]) hexported hname
    next => contradiction
  next hform =>
    obtain ⟨⟨⟩, hcheck, h⟩ := bind_eq_ok_iff.1 h
    cases h
    rw [hform]
    exact ⟨by simp [Form.category], by simp [Form.category], fun _ => (checkFormals_nodup hcheck).1,
      fun hsettled _ _ => hexpr hsettled, by simp [Form.category], by simp [Form.category]⟩
  next hform =>
    split at h
    next => contradiction
    next start hstart =>
      obtain ⟨items, -, h⟩ := bind_eq_ok_iff.1 h
      cases h
      rw [hform]
      exact ⟨by simp [Form.category], by simp [Form.category], by simp [Form.category],
        by simp [Form.category],
        fun _ => ParensClosed.of_not_mem (not_mem_takeBytes_of_find? hstart),
        by simp [Form.category]⟩
  next hform =>
    split at h
    next =>
      obtain ⟨items, -, h⟩ := bind_eq_ok_iff.1 h
      cases h
      rw [hform]
      exact Definition.isRecorded_of_not_mem _ (by decide)
    next => contradiction
  next _ hfunction hspecial _ =>
    cases h
    exact isRecorded_of_settled hexpr hfunction hspecial hexported hname

theorem defineName_boundary {defined : Draft} {name : Text}
    (h : assignment.defineName line draft = .ok (defined, name))
    (hform : assignment.form = .boundary) : name = assignment.name := by
  unfold defineName at h
  rw [hform] at h
  cases h
  rfl

theorem record_isRecorded {leading : Option Form} {column : Nat}
    (hlocate : locate line column leading = .ok assignment)
    (hexported : assignment.form ≠ .exported)
    {expr : Text} (hexpr : settled → Settled expr)
    (h : assignment.record line expr draft = .ok recorded)
    (hdraft : draft.symbols.IsRecorded settled) : recorded.symbols.IsRecorded settled := by
  unfold record at h
  split at h
  next => contradiction
  next =>
    obtain ⟨⟨defined, name⟩, hname, h⟩ := bind_eq_ok_iff.1 h
    obtain ⟨⟨expr', args⟩, hcontents, h⟩ := bind_eq_ok_iff.1 h
    cases h
    rw [Draft.push, defineName_symbols hname]
    refine hdraft.push (contents_isRecorded hcontents hexpr (fun hform => ?_) hexported)
    rw [defineName_boundary hname hform, locate_boundary hlocate hform]

end Assignment

namespace Line

variable {line : Line} {draft recorded : Draft}

theorem recordFrom_isRecorded (hline : settled → Settled line.text) {leading : Option Form}
    (hexported : leading ≠ some .exported) (hconstraint : leading ≠ some .constraint)
    {fuel column : Nat} (h : line.recordFrom leading fuel column draft = .ok recorded)
    (hdraft : draft.symbols.IsRecorded settled) : recorded.symbols.IsRecorded settled := by
  induction fuel generalizing column draft with
  | zero =>
      cases h
      exact hdraft
  | succ fuel ih =>
      unfold recordFrom at h
      obtain ⟨assignment, hlocate, h⟩ := bind_eq_ok_iff.1 h
      obtain ⟨entered, hentered, h⟩ := bind_eq_ok_iff.1 h
      have hsingle := Assignment.locate_isSingle hexported hconstraint hlocate
      have hfirst := Assignment.record_isRecorded hlocate hsingle.not_exported
        (fun hsettled => (hline hsettled).nextExpression assignment.sign) hentered hdraft
      split at h
      next => exact ih h hfirst
      next =>
        cases h
        exact hfirst

theorem record_isRecorded (hline : settled → Settled line.text)
    (hexport : line.leadingWord? ≠ some "export".toList) (h : line.record draft = .ok recorded)
    (hdraft : draft.symbols.IsRecorded settled) : recorded.symbols.IsRecorded settled := by
  unfold record at h
  obtain ⟨⟨leading, first⟩, hleading, h⟩ := bind_eq_ok_iff.1 h
  obtain ⟨hexported, hconstraint⟩ := leadingForm_spec hexport hleading
  exact recordFrom_isRecorded hline hexported hconstraint h hdraft

end Line

namespace Draft

/-- A reader of block statements makes only definitions that are recorded so. -/
def KeepsRecorded (settled : Prop) (reader : BlockReader) : Prop :=
  ∀ ⦃line following draft recorded used⦄, reader line following draft = .ok (recorded, used) →
    draft.symbols.IsRecorded settled → recorded.symbols.IsRecorded settled

theorem KeepsRecorded.alone {reader : Line → Draft → Except ModelError Draft}
    (hreader : ∀ ⦃line draft recorded⦄, reader line draft = .ok recorded →
      draft.symbols.IsRecorded settled → recorded.symbols.IsRecorded settled) :
    KeepsRecorded settled (alone reader) := by
  intro line following draft recorded used h
  unfold Draft.alone at h
  obtain ⟨read, hread, h⟩ := bind_eq_ok_iff.1 h
  cases h
  exact hreader hread

theorem KeepsRecorded.readBlocks {keyword : Text} {reader : BlockReader}
    (hreader : KeepsRecorded settled reader) {used : Nat} {lines kept : List Line}
    {draft recorded : Draft}
    (h : readBlocks keyword reader used lines draft = .ok (recorded, kept))
    (hdraft : draft.symbols.IsRecorded settled) : recorded.symbols.IsRecorded settled := by
  induction lines generalizing used draft kept with
  | nil =>
      rw [Draft.readBlocks] at h
      cases h
      exact hdraft
  | cons line later ih =>
      cases used with
      | succ used =>
          rw [Draft.readBlocks] at h
          exact ih h hdraft
      | zero =>
          rw [Draft.readBlocks] at h
          split at h
          next =>
            obtain ⟨⟨read, used⟩, hread, h⟩ := bind_eq_ok_iff.1 h
            exact ih h (hreader hread hdraft)
          next =>
            obtain ⟨⟨rest, kept⟩, hrest, h⟩ := bind_eq_ok_iff.1 h
            cases h
            exact ih hrest hdraft

theorem recordAll_isRecorded {lines : List Line} (hlines : settled → Line.AllSettled lines)
    (hexport : ∀ line ∈ lines, line.leadingWord? ≠ some "export".toList) {draft recorded : Draft}
    (h : recordAll lines draft = .ok recorded) (hdraft : draft.symbols.IsRecorded settled) :
    recorded.symbols.IsRecorded settled := by
  induction lines generalizing draft with
  | nil =>
      cases h
      exact hdraft
  | cons line later ih =>
      rw [List.forall_mem_cons] at hexport
      have hline := fun hsettled => List.forall_mem_cons.1 (hlines hsettled)
      unfold recordAll at h
      obtain ⟨read, hread, h⟩ := bind_eq_ok_iff.1 h
      exact ih (fun hsettled => (hline hsettled).2) hexport.2 h
        (Line.record_isRecorded (fun hsettled => (hline hsettled).1) hexport.1 hread hdraft)

theorem ofLines_isRecorded {settings : Settings} {files : FileReader} {lines : List Line}
    (hlines : settled → Line.AllSettled lines) {draft : Draft}
    (h : ofLines settings files lines = .ok draft) : draft.symbols.IsRecorded settled := by
  unfold ofLines at h
  obtain ⟨⟨exports, lines⟩, hexports, h⟩ := bind_eq_ok_iff.1 h
  obtain ⟨⟨markovs, lines⟩, hmarkovs, h⟩ := bind_eq_ok_iff.1 h
  obtain ⟨⟨tables, lines⟩, htables, h⟩ := bind_eq_ok_iff.1 h
  obtain ⟨⟨wieners, lines⟩, hwieners, h⟩ := bind_eq_ok_iff.1 h
  obtain ⟨⟨globals, lines⟩, hglobals, h⟩ := bind_eq_ok_iff.1 h
  have hsubset : ∀ line ∈ lines, _ := fun line hmem =>
    (readBlocks_kept hmarkovs).1.subset ((readBlocks_kept htables).1.subset
      ((readBlocks_kept hwieners).1.subset ((readBlocks_kept hglobals).1.subset hmem)))
  have hleft : ∀ line ∈ lines, line.leadingWord? ≠ some "export".toList := fun line hmem =>
    (readBlocks_kept hexports).2 line (hsubset line hmem)
  have hsettled : settled → Line.AllSettled lines := fun hsettled line hmem =>
    hlines hsettled line ((readBlocks_kept hexports).1.subset (hsubset line hmem))
  have hafterExports : exports.symbols.IsRecorded settled :=
    (KeepsRecorded.alone fun _ _ _ => Line.recordExport_isRecorded).readBlocks hexports
      SymbolTable.IsRecorded.empty
  have hafterMarkovs := KeepsRecorded.readBlocks
    (fun _ _ _ _ _ => Line.recordMarkov_isRecorded) hmarkovs hafterExports
  have hafterTables :=
    (KeepsRecorded.alone fun _ _ _ => Line.recordTable_isRecorded).readBlocks htables hafterMarkovs
  have hafterWieners :=
    (KeepsRecorded.alone fun _ _ _ => Line.recordWiener_isRecorded).readBlocks hwieners hafterTables
  have hafterGlobals :=
    (KeepsRecorded.alone fun _ _ _ => Line.recordGlobal_isRecorded).readBlocks hglobals
      hafterWieners
  exact recordAll_isRecorded hsettled hleft h hafterGlobals

/-- The definitions of a model that has been read are recorded so; their expressions are
settled when the loop variable of arrays is a name. -/
theorem ofInput_isRecorded {settings : Settings} {files : FileReader} {name input : Text}
    {draft : Draft} (h : ofInput settings files name input = .ok draft) :
    draft.symbols.IsRecorded (IsNameText settings.arrayVariable) := by
  unfold ofInput at h
  obtain ⟨lines, hlines, h⟩ := bind_eq_ok_iff.1 h
  exact ofLines_isRecorded (fun hvariable => Line.prepare_settled hvariable hlines) h

end Draft

end OdeModel
