import OdeModel.Proofs.Steps
import OdeModel.Proofs.Text.Operands
import OdeModel.Statement.Extraction
import Mathlib.Logic.Relation

/-!
# Entries of a draft

Every statement adds definitions to the draft, one after the other. Most of them
enter under a name that the scope accepts as new; only some categories hold
definitions that define no name.
-/

namespace OdeModel

/-- The categories all of whose definitions define a name. -/
def Category.defining : List Category :=
  [.constants, .temporaries, .numbers, .functions, .auxiliary, .equations, .special,
    .volterra, .parameters, .markovs, .tables, .wieners, .sets]

/-- A word ends at a space or an equals sign, or where the text does. -/
theorem Text.delimiter_of_nextWord {s : Text} {start : Nat} {word : Word}
    (h : Text.nextWord s start = some word) {c : Char} (hc : word.delimiter = some c) :
    word.delimiter = some ' ' ∨ c = '=' := by
  obtain ⟨rest, -, hword⟩ := Option.bind_eq_some_iff.1 h
  dsimp only [firstWord] at hword
  split at hword
  next => contradiction
  next =>
    cases hword
    have hstop := List.head?_dropWhile_not (fun c => c != ' ' && c != '=')
      (rest.dropWhile fun c => c == ' ' || c == ',')
    dsimp only at hc ⊢
    rw [hc] at hstop ⊢
    simpa [imp_iff_not_or] using hstop

theorem SymbolTable.mem_get_push_iff {table : SymbolTable} {category entered : Category}
    {definition entry : Definition} :
    definition ∈ (table.push entered entry).get category ↔
      definition ∈ table.get category ∨ category = entered ∧ definition = entry := by
  by_cases hsame : category = entered
  · subst hsame
    simp
  · simp [SymbolTable.get_push_of_ne _ _ hsame, hsame]

theorem Scope.define_eq_ok_iff {scope defined : Scope} {name : Text} :
    scope.define name = .ok defined ↔
      scope.objection? name = none ∧ defined = { scope with names := scope.names ++ [name] } := by
  unfold define
  cases scope.objection? name with
  | none => simp [eq_comm]
  | some fault => simp

/-- A name may be defined when it is an identifier and has neither been defined before
nor a meaning of its own. -/
theorem Scope.objection?_eq_none_iff {scope : Scope} {name : Text} :
    scope.objection? name = none ↔ Text.isIdentifier name = true ∧ scope.isUsed name = false ∧
      Vocabulary.isBuiltin name = false ∧ Vocabulary.isKeyword name = false ∧
        (scope.reserveOptions && (Vocabulary.option? name).isSome) = false := by
  unfold objection?
  cases Text.isIdentifier name <;> cases scope.isUsed name <;>
    cases Vocabulary.isBuiltin name <;> cases Vocabulary.isKeyword name <;>
      cases (scope.reserveOptions && (Vocabulary.option? name).isSome) <;> simp

namespace Draft

/-- One definition enters a draft. -/
inductive Enters : Draft → Draft → Prop
  /-- The definition has a name that is new in the scope. The formal arguments of a
  function are names that its body may mention. -/
  | named {draft : Draft} {category : Category} {definition : Definition} {scope : Scope}
      (hcategory : category ∈ Category.defining ∨ category = .algebraic)
      (hformals : category = .functions →
        ∀ formal ∈ definition.args, formal ≠ [] ∧ Text.IsNameText formal)
      (hdefine : draft.scope.define definition.name = .ok scope) :
      Enters draft ⟨draft.symbols.push category definition, scope⟩
  /-- The definition is of a kind that defines no name. -/
  | bare {draft : Draft} {category : Category} {definition : Definition}
      (hcategory : category ∈ [.boundaries, .exports, .globals] ∨
        category = .algebraic ∧ definition.name = []) :
      Enters draft (draft.push category definition)
  /-- The definition gives a value to a name of the scope. -/
  | initial {draft : Draft} {definition : Definition}
      (hused : draft.scope.isUsed definition.name = true) :
      Enters draft (draft.push .initialConditions definition)
  /-- The definition sets an option. -/
  | setting {draft : Draft} {definition : Definition}
      (hoption : definition.name ∈ Vocabulary.options) :
      Enters draft (draft.push .options definition)

/-- Any number of definitions enter a draft. -/
abbrev Grows : Draft → Draft → Prop := Relation.ReflTransGen Enters

theorem define_eq_ok_iff {draft defined : Draft} {line : Line} {name : Text} {column : Nat} :
    draft.define line name column = .ok defined ↔
      ∃ scope, draft.scope.define name = .ok scope ∧ defined = { draft with scope } := by
  unfold define
  cases draft.scope.define name with
  | error fault => simp
  | ok scope => simp [eq_comm]

theorem Enters.of_define {draft defined : Draft} {line : Line} {name : Text} {column : Nat}
    (h : draft.define line name column = .ok defined) {category : Category}
    (hcategory : category ∈ Category.defining ∨ category = .algebraic)
    {definition : Definition} (hname : definition.name = name)
    (hformals : category = .functions →
      ∀ formal ∈ definition.args, formal ≠ [] ∧ Text.IsNameText formal) :
    Enters draft (defined.push category definition) := by
  obtain ⟨scope, hdefine, rfl⟩ := define_eq_ok_iff.1 h
  subst hname
  exact Enters.named hcategory hformals hdefine

/-- A definition enters under its name, when its category is no exception and no
function. -/
theorem Enters.of_define_other {draft defined : Draft} {line : Line} {name : Text}
    {column : Nat} (h : draft.define line name column = .ok defined) {category : Category}
    (hcategory : category ∈ Category.defining) (hother : category ≠ .functions)
    {definition : Definition} (hname : definition.name = name) :
    Enters draft (defined.push category definition) :=
  Enters.of_define h (Or.inl hcategory) hname fun hfunctions => absurd hfunctions hother

end Draft

namespace Form

/-- A form that was found from a mark fits it. -/
theorem fits_of_ofWord? {word : Text} {form : Form} {found : Occurrence}
    (h : ofWord? word = some (form, found)) :
    form.fits (word ++ ['=']) (Text.width word) found = true := by
  have hfold : ∀ (marks : List Occurrence) (best : Option (Form × Occurrence)),
      (∀ choice, best = some choice →
        choice.1.fits (word ++ ['=']) (Text.width word) choice.2 = true) →
      ∀ choice, marks.foldl (better (word ++ ['=']) (Text.width word)) best = some choice →
        choice.1.fits (word ++ ['=']) (Text.width word) choice.2 = true := by
    intro marks
    induction marks with
    | nil => exact fun best hbest => hbest
    | cons mark marks ih =>
        intro best hbest
        refine ih _ fun choice hchoice => ?_
        dsimp only [better] at hchoice
        split at hchoice
        next hfits =>
          cases hchoice
          exact (Bool.and_eq_true _ _ ▸ hfits).1
        next => exact hbest choice hchoice
  exact hfold _ none (by simp) (form, found) h

/-- A statement defines a name, but for a few forms. -/
theorem category_defining {form : Form}
    (h : form ∉ [initial, initialValue, setting, boundary, exported]) :
    form.category ∈ Category.defining ∨ form.category = .algebraic := by
  cases form <;> first | exact Or.inr rfl | exact Or.inl (by decide) | exact absurd (by decide) h

theorem eq_function_of_category {form : Form} (h : form.category = .functions) :
    form = function := by
  cases form <;> first | rfl | contradiction

end Form

namespace Assignment

open Draft

variable {line : Line} {assignment : Assignment}

/-- The form is not that of an export, and it has no name where it is an equation
without one. -/
structure IsSingle (assignment : Assignment) : Prop where
  not_exported : assignment.form ≠ .exported
  constraint : assignment.form = .constraint → assignment.name = []

theorem ofWord_isSingle {word : Word} (h : ofWord line word = .ok assignment) :
    assignment.IsSingle := by
  unfold ofWord at h
  split at h
  next =>
    cases h
    exact ⟨by simp, by simp⟩
  next form found hform =>
    have hfits := Form.fits_of_ofWord? hform
    split at h
    case h_5 =>
      obtain ⟨⟨formals, _⟩, -, h⟩ := bind_eq_ok_iff.1 h
      cases h
      exact ⟨by simp, by simp⟩
    case h_6 hne _ _ hconstraint _ =>
      cases h
      refine ⟨?_, fun h => absurd h hconstraint⟩
      rintro rfl
      contradiction
    all_goals
      cases h
      exact ⟨by simp, by simp⟩

theorem locate_isSingle {column : Nat} {leading : Option Form}
    (hexported : leading ≠ some .exported) (hconstraint : leading ≠ some .constraint)
    (h : locate line column leading = .ok assignment) : assignment.IsSingle := by
  unfold locate at h
  split at h
  next =>
    cases h
    exact ⟨by simp, by simp⟩
  next =>
    split at h
    next => contradiction
    next word _ =>
      split at h
      next =>
        split at h
        next =>
          cases h
          exact ⟨by simp, by simp⟩
        next => contradiction
      next =>
        split at h
        next => contradiction
        next =>
          split at h
          next form _ =>
            cases h
            exact ⟨fun hform => hexported (congrArg some hform),
              fun hform => absurd (congrArg some hform) hconstraint⟩
          next => exact ofWord_isSingle h

/-- Formal arguments are names, since they occur as such in the body. -/
theorem checkFormals_spec {body : List Operand} {earlier : List Text}
    {formals : List (Nat × Text)} (h : checkFormals line body earlier formals = .ok ()) :
    ∀ formal ∈ formals, ∃ operand ∈ body, operand.isNumber = false ∧
      operand.text = formal.2 := by
  induction formals generalizing earlier with
  | nil => simp
  | cons first later ih =>
      obtain ⟨column, formal⟩ := first
      unfold checkFormals at h
      split at h
      next => contradiction
      next =>
        split at h
        next => contradiction
        next hused =>
          rw [List.forall_mem_cons]
          refine ⟨?_, ih h⟩
          simpa using hused

theorem contents_formals {expr expr' : Text} {args : List Text}
    (h : assignment.contents line expr = .ok (expr', args))
    (hcategory : assignment.form.category = .functions) :
    ∀ formal ∈ args, formal ≠ [] ∧ Text.IsNameText formal := by
  have hform := Form.eq_function_of_category hcategory
  unfold contents at h
  rw [hform] at h
  obtain ⟨⟨⟩, hcheck, h⟩ := bind_eq_ok_iff.1 h
  cases h
  intro formal hmem
  obtain ⟨entry, hentry, rfl⟩ := List.mem_map.1 hmem
  obtain ⟨operand, hoperand, hname, htext⟩ := checkFormals_spec hcheck entry hentry
  obtain ⟨before, after, -, -, hfits⟩ := Text.exists_of_mem_operandsFrom 0 expr operand hoperand
  rw [← htext]
  exact ⟨hfits.ne_nil, (hfits.name hname).2.1⟩

/-- An assignment enters with the name that comes back from checking it. -/
theorem defineName_enters (hsingle : assignment.IsSingle) {draft defined : Draft} {name : Text}
    (h : assignment.defineName line draft = .ok (defined, name)) {definition : Definition}
    (hname : definition.name = name)
    (hformals : assignment.form.category = .functions →
      ∀ formal ∈ definition.args, formal ≠ [] ∧ Text.IsNameText formal) :
    Enters draft (defined.push assignment.form.category definition) := by
  unfold defineName at h
  split at h
  case h_1 hform =>
    split at h
    next hused =>
      cases h
      rw [hform]
      exact Enters.initial (hname ▸ hused)
    next => contradiction
  case h_2 hform =>
    split at h
    next hused =>
      cases h
      rw [hform]
      exact Enters.initial (hname ▸ hused)
    next => contradiction
  case h_3 hform =>
    split at h
    next option hoption =>
      cases h
      rw [hform]
      exact Enters.setting (hname ▸ List.mem_of_find?_eq_some hoption)
    next => contradiction
  case h_4 hform =>
    cases h
    rw [hform]
    exact Enters.bare (Or.inl (by decide))
  case h_5 hform =>
    cases h
    rw [hform]
    exact Enters.bare (Or.inr ⟨rfl, hname.trans (hsingle.constraint hform)⟩)
  case h_6 hinitial hinitialValue hsetting hboundary _ =>
    split at h
    next => contradiction
    next =>
      obtain ⟨next, hnext, hpure⟩ := bind_eq_ok_iff.1 h
      cases hpure
      refine Enters.of_define hnext (Form.category_defining ?_) hname hformals
      simpa using ⟨hinitial, hinitialValue, hsetting, hboundary, hsingle.not_exported⟩

theorem record_enters (hsingle : assignment.IsSingle) {expr : Text} {draft recorded : Draft}
    (h : assignment.record line expr draft = .ok recorded) : Enters draft recorded := by
  unfold record at h
  split at h
  next => contradiction
  next =>
    obtain ⟨⟨defined, name⟩, hname, h⟩ := bind_eq_ok_iff.1 h
    obtain ⟨⟨expr, args⟩, hcontents, h⟩ := bind_eq_ok_iff.1 h
    cases h
    exact defineName_enters hsingle hname rfl (contents_formals hcontents)

end Assignment

namespace Line

open Draft

variable {line : Line} {draft recorded : Draft}

theorem recordFrom_grows {leading : Option Form} (hexported : leading ≠ some .exported)
    (hconstraint : leading ≠ some .constraint) {fuel column : Nat}
    (h : line.recordFrom leading fuel column draft = .ok recorded) : Grows draft recorded := by
  induction fuel generalizing column draft with
  | zero =>
      cases h
      exact Relation.ReflTransGen.refl
  | succ fuel ih =>
      unfold recordFrom at h
      obtain ⟨assignment, hlocate, h⟩ := bind_eq_ok_iff.1 h
      obtain ⟨entered, hentered, h⟩ := bind_eq_ok_iff.1 h
      have hfirst := Assignment.record_enters
        (Assignment.locate_isSingle hexported hconstraint hlocate) hentered
      split at h
      next => exact Relation.ReflTransGen.head hfirst (ih h)
      next =>
        cases h
        exact Relation.ReflTransGen.single hfirst

/-- The leading word of a statement that may stand in a line of its own is not that of an
export, which is a block. -/
theorem leadingForm_spec (hline : line.leadingWord? ≠ some "export".toList)
    {leading : Option Form} {first : Word} (h : line.leadingForm = .ok (leading, first)) :
    leading ≠ some .exported ∧ leading ≠ some .constraint := by
  unfold leadingForm firstWord at h
  unfold leadingWord? at hline
  obtain ⟨word, hword, h⟩ := bind_eq_ok_iff.1 h
  cases hnext : Text.nextWord line.text 0 with
  | none => simp [hnext] at hword
  | some next =>
      simp only [hnext, Except.ok.injEq] at hword hline
      subst hword
      split at h
      next =>
        cases h
        exact ⟨by simp, by simp⟩
      next c hc hdelimiter =>
        have hspace : next.delimiter = some ' ' :=
          (Text.delimiter_of_nextWord hnext hdelimiter).resolve_right fun h => hc (h ▸ rfl)
        rw [if_pos hspace] at hline
        split at h
        next form hform =>
          have hmark : form.mark = next.text := by
            simpa using List.find?_some hform
          split at h
          next hleads =>
            cases h
            refine ⟨?_, ?_⟩
            · rintro ⟨⟩
              exact hline (congrArg some hmark.symm)
            · rintro ⟨⟩
              contradiction
          next => contradiction
        next => contradiction
      next => contradiction

theorem record_grows (hline : line.leadingWord? ≠ some "export".toList)
    (h : line.record draft = .ok recorded) : Grows draft recorded := by
  unfold record at h
  obtain ⟨⟨leading, first⟩, hleading, h⟩ := bind_eq_ok_iff.1 h
  obtain ⟨hexported, hconstraint⟩ := leadingForm_spec hline hleading
  exact recordFrom_grows hexported hconstraint h

theorem recordExport_enters (h : line.recordExport draft = .ok recorded) :
    Enters draft recorded := by
  unfold recordExport at h
  obtain ⟨inputsStart, -, h⟩ := bind_eq_ok_iff.1 h
  obtain ⟨⟨inputs, close⟩, -, h⟩ := bind_eq_ok_iff.1 h
  obtain ⟨outputsStart, -, h⟩ := bind_eq_ok_iff.1 h
  obtain ⟨⟨outputs, _⟩, -, h⟩ := bind_eq_ok_iff.1 h
  cases h
  exact Enters.bare (Or.inl (by decide))

theorem recordMarkov_enters {following : List Line} {used : Nat}
    (h : line.recordMarkov following draft = .ok (recorded, used)) : Enters draft recorded := by
  unfold recordMarkov at h
  obtain ⟨keyword, -, h⟩ := bind_eq_ok_iff.1 h
  obtain ⟨name, -, h⟩ := bind_eq_ok_iff.1 h
  obtain ⟨count, -, h⟩ := bind_eq_ok_iff.1 h
  split at h
  next => contradiction
  next states _ =>
    obtain ⟨defined, hdefine, h⟩ := bind_eq_ok_iff.1 h
    obtain ⟨entries, -, h⟩ := bind_eq_ok_iff.1 h
    cases h
    exact Enters.of_define_other hdefine (by decide) (by decide) rfl

theorem recordTable_enters {directory : Text} {files : FileReader}
    (h : line.recordTable directory files draft = .ok recorded) : Enters draft recorded := by
  unfold recordTable at h
  obtain ⟨keyword, -, h⟩ := bind_eq_ok_iff.1 h
  obtain ⟨name, -, h⟩ := bind_eq_ok_iff.1 h
  obtain ⟨source, -, h⟩ := bind_eq_ok_iff.1 h
  obtain ⟨defined, hdefine, h⟩ := bind_eq_ok_iff.1 h
  dsimp only at h
  split at h
  all_goals
    obtain ⟨⟨expr, values⟩, -, h⟩ := bind_eq_ok_iff.1 h
    cases h
    exact Enters.of_define_other hdefine (by decide) (by decide) rfl

theorem recordWieners_grows {names : List (Nat × Text)}
    (h : line.recordWieners names draft = .ok recorded) : Grows draft recorded := by
  induction names generalizing draft with
  | nil =>
      cases h
      exact Relation.ReflTransGen.refl
  | cons first later ih =>
      obtain ⟨column, name⟩ := first
      unfold recordWieners at h
      obtain ⟨defined, hdefine, h⟩ := bind_eq_ok_iff.1 h
      exact Relation.ReflTransGen.head
        (Enters.of_define_other hdefine (by decide) (by decide) rfl) (ih h)

theorem recordWiener_grows (h : line.recordWiener draft = .ok recorded) :
    Grows draft recorded := by
  unfold recordWiener at h
  obtain ⟨keyword, -, h⟩ := bind_eq_ok_iff.1 h
  dsimp only at h
  split at h
  next => contradiction
  next => exact recordWieners_grows h

theorem recordGlobal_enters (h : line.recordGlobal draft = .ok recorded) :
    Enters draft recorded := by
  unfold recordGlobal at h
  obtain ⟨keyword, -, h⟩ := bind_eq_ok_iff.1 h
  obtain ⟨sign, -, h⟩ := bind_eq_ok_iff.1 h
  split at h
  next => contradiction
  next =>
    obtain ⟨start, -, h⟩ := bind_eq_ok_iff.1 h
    dsimp only at h
    split at h
    next => contradiction
    next =>
      obtain ⟨⟨resets, _⟩, -, h⟩ := bind_eq_ok_iff.1 h
      cases h
      exact Enters.bare (Or.inl (by decide))

end Line

namespace Draft

/-- A reader of block statements only adds entries. -/
def AddsEntries (reader : BlockReader) : Prop :=
  ∀ ⦃line following draft recorded used⦄,
    reader line following draft = .ok (recorded, used) → Grows draft recorded

theorem AddsEntries.alone {reader : Line → Draft → Except ModelError Draft}
    (hreader : ∀ line draft recorded, reader line draft = .ok recorded → Grows draft recorded) :
    AddsEntries (alone reader) := by
  intro line following draft recorded used h
  unfold Draft.alone at h
  obtain ⟨read, hread, h⟩ := bind_eq_ok_iff.1 h
  cases h
  exact hreader line draft recorded hread

theorem AddsEntries.readBlocks {keyword : Text} {reader : BlockReader}
    (hreader : AddsEntries reader) {used : Nat} {lines kept : List Line} {draft recorded : Draft}
    (h : readBlocks keyword reader used lines draft = .ok (recorded, kept)) :
    Grows draft recorded := by
  induction lines generalizing used draft kept with
  | nil =>
      rw [Draft.readBlocks] at h
      cases h
      exact Relation.ReflTransGen.refl
  | cons line later ih =>
      cases used with
      | succ used =>
          rw [Draft.readBlocks] at h
          exact ih h
      | zero =>
          rw [Draft.readBlocks] at h
          split at h
          next =>
            obtain ⟨⟨read, used⟩, hread, h⟩ := bind_eq_ok_iff.1 h
            exact (hreader hread).trans (ih h)
          next =>
            obtain ⟨⟨rest, kept⟩, hrest, h⟩ := bind_eq_ok_iff.1 h
            cases h
            exact ih hrest

/-- The lines that are kept are lines of the text, and none of them is led by the keyword. -/
theorem readBlocks_kept {keyword : Text} {reader : BlockReader} {used : Nat}
    {lines kept : List Line} {draft recorded : Draft}
    (h : readBlocks keyword reader used lines draft = .ok (recorded, kept)) :
    kept.Sublist lines ∧ ∀ line ∈ kept, line.leadingWord? ≠ some keyword := by
  induction lines generalizing used draft kept with
  | nil =>
      rw [Draft.readBlocks] at h
      cases h
      exact ⟨List.Sublist.refl _, by simp⟩
  | cons line later ih =>
      cases used with
      | succ used =>
          rw [Draft.readBlocks] at h
          obtain ⟨hsublist, hkept⟩ := ih h
          exact ⟨hsublist.cons line, hkept⟩
      | zero =>
          rw [Draft.readBlocks] at h
          split at h
          next =>
            obtain ⟨⟨read, used⟩, -, h⟩ := bind_eq_ok_iff.1 h
            obtain ⟨hsublist, hkept⟩ := ih h
            exact ⟨hsublist.cons line, hkept⟩
          next hother =>
            obtain ⟨⟨rest, kept⟩, hrest, h⟩ := bind_eq_ok_iff.1 h
            cases h
            obtain ⟨hsublist, hkept⟩ := ih hrest
            exact ⟨hsublist.cons_cons line, List.forall_mem_cons.2 ⟨hother, hkept⟩⟩

theorem recordAll_grows {lines : List Line}
    (hlines : ∀ line ∈ lines, line.leadingWord? ≠ some "export".toList) {draft recorded : Draft}
    (h : recordAll lines draft = .ok recorded) : Grows draft recorded := by
  induction lines generalizing draft with
  | nil =>
      cases h
      exact Relation.ReflTransGen.refl
  | cons line later ih =>
      rw [List.forall_mem_cons] at hlines
      unfold recordAll at h
      obtain ⟨read, hread, h⟩ := bind_eq_ok_iff.1 h
      exact (Line.record_grows hlines.1 hread).trans (ih hlines.2 h)

/-- The draft of some lines is made of entries only. -/
theorem ofLines_grows {settings : Settings} {files : FileReader} {lines : List Line}
    {draft : Draft} (h : ofLines settings files lines = .ok draft) :
    Grows (empty settings) draft := by
  unfold ofLines at h
  obtain ⟨⟨exports, lines⟩, hexports, h⟩ := bind_eq_ok_iff.1 h
  obtain ⟨⟨markovs, lines⟩, hmarkovs, h⟩ := bind_eq_ok_iff.1 h
  obtain ⟨⟨tables, lines⟩, htables, h⟩ := bind_eq_ok_iff.1 h
  obtain ⟨⟨wieners, lines⟩, hwieners, h⟩ := bind_eq_ok_iff.1 h
  obtain ⟨⟨globals, lines⟩, hglobals, h⟩ := bind_eq_ok_iff.1 h
  have hexport : AddsEntries (alone Line.recordExport) :=
    AddsEntries.alone fun line draft recorded h =>
      Relation.ReflTransGen.single (Line.recordExport_enters h)
  have hmarkov : AddsEntries Line.recordMarkov := fun line following draft recorded used h =>
    Relation.ReflTransGen.single (Line.recordMarkov_enters h)
  have htable : AddsEntries (alone fun line =>
      Line.recordTable line settings.tableDirectory files) :=
    AddsEntries.alone fun line draft recorded h =>
      Relation.ReflTransGen.single (Line.recordTable_enters h)
  have hwiener : AddsEntries (alone Line.recordWiener) :=
    AddsEntries.alone fun line draft recorded h => Line.recordWiener_grows h
  have hglobal : AddsEntries (alone Line.recordGlobal) :=
    AddsEntries.alone fun line draft recorded h =>
      Relation.ReflTransGen.single (Line.recordGlobal_enters h)
  -- no line of an export is left for the last pass
  have hleft : ∀ line ∈ lines, line.leadingWord? ≠ some "export".toList := fun line hmem =>
    (readBlocks_kept hexports).2 line ((readBlocks_kept hmarkovs).1.subset
      ((readBlocks_kept htables).1.subset ((readBlocks_kept hwieners).1.subset
        ((readBlocks_kept hglobals).1.subset hmem))))
  calc
    Grows (empty settings) exports := hexport.readBlocks hexports
    Grows _ markovs := hmarkov.readBlocks hmarkovs
    Grows _ tables := htable.readBlocks htables
    Grows _ wieners := hwiener.readBlocks hwieners
    Grows _ globals := hglobal.readBlocks hglobals
    Grows _ draft := recordAll_grows hleft h

/-- What holds of the empty draft and is kept by every entry holds of every draft. -/
theorem induction_on_entries_ofLines {p : Draft → Prop} {settings : Settings}
    {files : FileReader} {lines : List Line} {draft : Draft}
    (h : ofLines settings files lines = .ok draft) (hempty : p (empty settings))
    (hstep : ∀ old new, Enters old new → p old → p new) : p draft := by
  have hgrows := ofLines_grows h
  clear h
  induction hgrows with
  | refl => exact hempty
  | tail _ henters ih => exact hstep _ _ henters ih

theorem induction_on_entries {p : Draft → Prop} {settings : Settings} {files : FileReader}
    {name input : Text} {draft : Draft} (h : ofInput settings files name input = .ok draft)
    (hempty : p (empty settings)) (hstep : ∀ old new, Enters old new → p old → p new) :
    p draft := by
  unfold ofInput at h
  obtain ⟨lines, -, h⟩ := bind_eq_ok_iff.1 h
  exact induction_on_entries_ofLines h hempty hstep

/-- All names in a category that defines them are identifiers. -/
theorem isIdentifier_of_mem {settings : Settings} {files : FileReader} {name input : Text}
    {draft : Draft} (h : ofInput settings files name input = .ok draft) :
    ∀ category ∈ Category.defining, ∀ definition ∈ draft.symbols.get category,
      Text.isIdentifier definition.name = true := by
  apply induction_on_entries (p := fun draft => ∀ category ∈ Category.defining,
    ∀ definition ∈ draft.symbols.get category, Text.isIdentifier definition.name = true) h
  · intro category _ definition hmem
    simp [empty] at hmem
  · intro old new henters ih category hcategory definition hmem
    have hentry : ∀ {entered : Category} {entry : Definition}, entered ∉ Category.defining →
        definition ∈ (old.symbols.push entered entry).get category →
          Text.isIdentifier definition.name = true := by
      intro entered entry hentered hmem
      rcases SymbolTable.mem_get_push_iff.1 hmem with hmem | ⟨rfl, -⟩
      · exact ih category hcategory definition hmem
      · exact absurd hcategory hentered
    cases henters with
    | named _ _ hdefine =>
        rcases SymbolTable.mem_get_push_iff.1 hmem with hmem | ⟨-, rfl⟩
        · exact ih category hcategory definition hmem
        · exact (Scope.objection?_eq_none_iff.1 (Scope.define_eq_ok_iff.1 hdefine).1).1
    | @bare entered entry hbare =>
        refine hentry ?_ hmem
        have hother : ∀ category ∈ [.boundaries, .exports, .globals],
            category ∉ Category.defining := by decide
        rcases hbare with hbare | ⟨rfl, -⟩
        · exact hother entered hbare
        · decide
    | initial => exact hentry (by decide) hmem
    | setting => exact hentry (by decide) hmem

end Draft

end OdeModel
