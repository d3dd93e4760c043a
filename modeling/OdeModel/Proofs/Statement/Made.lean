import OdeModel.Proofs.Statement.Entries
import OdeModel.Proofs.Text.Places

/-!
# What statements make

A statement that is read adds definitions at the end of the symbol table: at least one,
and all of them with the number of its line. Only the head of a markov process takes
following lines with it; they are the rows of the one definition that it makes.
-/

namespace OdeModel

theorem natText_injective : Function.Injective natText := by
  intro m n h
  have hread : ∀ k, Nat.ofDigitChars 10 (natText k) 0 = k := fun k =>
    Nat.ofDigitChars_toDigits (by decide) (by decide)
  rw [← hread m, h, hread n]

namespace SymbolTable

/-- The table with more definitions, entered one after the other. -/
def pushAll (table : SymbolTable) (entries : List (Category × Definition)) : SymbolTable :=
  entries.foldl (fun table entry => table.push entry.1 entry.2) table

variable (table : SymbolTable) (entry : Category × Definition)
  (entries later : List (Category × Definition))

@[simp] theorem pushAll_nil : table.pushAll [] = table := rfl

@[simp] theorem pushAll_cons :
    table.pushAll (entry :: entries) = (table.push entry.1 entry.2).pushAll entries := rfl

theorem pushAll_append :
    table.pushAll (entries ++ later) = (table.pushAll entries).pushAll later :=
  List.foldl_append

/-- Each category gets its own definitions, in their order. -/
theorem get_pushAll (category : Category) :
    (table.pushAll entries).get category =
      table.get category ++ (entries.filter fun entry => entry.1 = category).map Prod.snd := by
  induction entries generalizing table with
  | nil => simp
  | cons entry entries ih =>
      rw [pushAll_cons, ih]
      by_cases hsame : entry.1 = category
      · subst hsame
        simp
      · rw [get_push_of_ne _ _ (Ne.symm hsame), List.filter_cons_of_neg (by simpa using hsame)]

end SymbolTable

theorem Draft.define_symbols {draft defined : Draft} {line : Line} {name : Text} {column : Nat}
    (h : draft.define line name column = .ok defined) : defined.symbols = draft.symbols := by
  obtain ⟨scope, -, rfl⟩ := Draft.define_eq_ok_iff.1 h
  rfl

/-! ### Rows of a markov process -/

namespace Text

/-- The row holds the entries one after the other, each in brackets of its own, and nothing
behind them. An entry is what its brackets hold, without blanks. -/
inductive IsRow : Text → List Text → Prop
  /-- Blanks may follow the last entry. -/
  | nil {blanks : Text} (hblank : ∀ c ∈ blanks, isBlank c = true) : IsRow blanks []
  /-- An entry starts at the first curly bracket, and ends where that one is closed. -/
  | cons {gap rest inside later : Text} {entries : List Text} (hgap : '\x7b' ∉ gap)
      (hclosed : untilClosed 1 rest = some (inside, later)) (hlater : IsRow later entries) :
      IsRow (gap ++ '\x7b' :: rest) (withoutBlanks inside :: entries)

end Text

namespace Line

open Text

variable {line row head : Line} {draft recorded : Draft}

theorem markovEntries_spec {count : Nat} {before rest : Text} {entries : List Text}
    (htext : row.text = before ++ rest)
    (h : row.markovEntries count (Text.width before) = .ok entries) :
    entries.length = count ∧ (∀ entry ∈ entries, entry ≠ []) ∧ IsRow rest entries := by
  induction count generalizing before rest entries with
  | zero =>
      unfold markovEntries at h
      rw [htext, dropBytes_width_append] at h
      dsimp only at h
      split at h
      next hblank =>
        cases h
        have hall : rest.takeWhile isBlank = rest :=
          (List.takeWhile_prefix isBlank).eq_of_length hblank
        refine ⟨rfl, by simp, IsRow.nil fun c hc => ?_⟩
        rw [← hall] at hc
        exact List.mem_takeWhile_imp hc
      next => contradiction
  | succ count ih =>
      unfold markovEntries at h
      rw [htext] at h
      split at h
      next => contradiction
      next start hstart =>
        obtain ⟨gap, behind, rfl, hgap, rfl⟩ := find?_eq_some_iff.1 hstart
        rw [← List.append_assoc] at h htext
        split at h
        next => contradiction
        next close hclose =>
          obtain ⟨inside, later, hclosed, rfl⟩ := (matchingBracket_eq_some_iff rfl).1 hclose
          obtain ⟨c, hc, rfl⟩ := exists_of_untilClosed hclosed
          have hbehind : Text.width (before ++ gap ++ '\x7b' :: inside) + 1 =
              Text.width (before ++ gap ++ '\x7b' :: (inside ++ [c])) := by
            simp [(isClosing_spec hc).1, Nat.add_assoc]
          dsimp only at h
          rw [slice_inside rfl, hbehind] at h
          split at h
          next => contradiction
          next hne =>
            obtain ⟨others, hothers, h⟩ := bind_eq_ok_iff.1 h
            cases h
            have hsplit : row.text = before ++ gap ++ '\x7b' :: (inside ++ [c]) ++ later := by
              simp [htext]
            obtain ⟨hcount, hfilled, hrow⟩ := ih hsplit hothers
            refine ⟨by rw [List.length_cons, hcount], ?_, IsRow.cons hgap hclosed hrow⟩
            exact List.forall_mem_cons.2 ⟨by simpa using hne, hfilled⟩

/-- The entries of as many rows stand behind each other. -/
theorem markovRows_spec {states count : Nat} {following : List Line} {entries : List Text}
    (h : head.markovRows states count following = .ok entries) :
    count ≤ following.length ∧ ∃ grid : List (List Text), entries = grid.flatten ∧
      List.Forall₂ (fun row entries => entries.length = states ∧
        (∀ entry ∈ entries, entry ≠ []) ∧ IsRow row.text entries) (following.take count) grid := by
  induction count generalizing following entries with
  | zero =>
      rw [markovRows] at h
      cases h
      exact ⟨Nat.zero_le _, [], rfl, List.Forall₂.nil⟩
  | succ count ih =>
      cases following with
      | nil => contradiction
      | cons row later =>
          rw [markovRows] at h
          obtain ⟨first, hfirst, h⟩ := bind_eq_ok_iff.1 h
          obtain ⟨others, hothers, h⟩ := bind_eq_ok_iff.1 h
          cases h
          obtain ⟨hcount, grid, rfl, hgrid⟩ := ih hothers
          have hrow := markovEntries_spec (List.nil_append row.text).symm hfirst
          exact ⟨Nat.succ_le_succ hcount, first :: grid, rfl, List.Forall₂.cons hrow hgrid⟩

end Line

/-- The definition is that of a process with one state for each of the rows. Its arguments
are the entries of the rows, row by row; each row holds as many as there are states, and
none of them is empty. -/
def Definition.IsProcess (definition : Definition) (rows : List Line) : Prop :=
  0 < rows.length ∧ definition.expr = natText rows.length ∧
    ∃ grid : List (List Text), definition.args = grid.flatten ∧
      List.Forall₂ (fun row entries => entries.length = rows.length ∧
        (∀ entry ∈ entries, entry ≠ []) ∧ Text.IsRow row.text entries) rows grid

/-- A process has an entry for each pair of states. -/
theorem Definition.IsProcess.length_args {definition : Definition} {rows : List Line}
    (h : definition.IsProcess rows) : definition.args.length = rows.length * rows.length := by
  obtain ⟨-, -, grid, hargs, hgrid⟩ := h
  have hlengths : ∀ entries ∈ grid, entries.length = rows.length := by
    intro entries hmem
    obtain ⟨row, -, hentries, -⟩ := exists_of_forall₂_mem hgrid hmem
    exact hentries
  rw [hargs, List.length_flatten, List.map_congr_left hlengths, List.map_const']
  simp [hgrid.length_eq]

/-! ### Readers of statements -/

namespace Line

variable {line : Line} {draft recorded : Draft}

theorem recordExport_spec (h : line.recordExport draft = .ok recorded) :
    ∃ definition, definition.line = line.number ∧
      recorded.symbols = draft.symbols.push .exports definition := by
  unfold recordExport at h
  obtain ⟨inputsStart, -, h⟩ := bind_eq_ok_iff.1 h
  obtain ⟨⟨inputs, close⟩, -, h⟩ := bind_eq_ok_iff.1 h
  obtain ⟨outputsStart, -, h⟩ := bind_eq_ok_iff.1 h
  obtain ⟨⟨outputs, _⟩, -, h⟩ := bind_eq_ok_iff.1 h
  cases h
  exact ⟨_, rfl, rfl⟩

theorem recordMarkov_spec {following : List Line} {used : Nat}
    (h : line.recordMarkov following draft = .ok (recorded, used)) :
    used ≤ following.length ∧ ∃ definition, definition.line = line.number ∧
      definition.IsProcess (following.take used) ∧
      recorded.symbols = draft.symbols.push .markovs definition := by
  unfold recordMarkov at h
  obtain ⟨keyword, -, h⟩ := bind_eq_ok_iff.1 h
  obtain ⟨name, -, h⟩ := bind_eq_ok_iff.1 h
  obtain ⟨count, -, h⟩ := bind_eq_ok_iff.1 h
  split at h
  next => contradiction
  next states hstates =>
    obtain ⟨defined, hdefine, h⟩ := bind_eq_ok_iff.1 h
    obtain ⟨entries, hentries, h⟩ := bind_eq_ok_iff.1 h
    cases h
    obtain ⟨hle, grid, rfl, hgrid⟩ := markovRows_spec hentries
    have hlength : (following.take used).length = used := List.length_take_of_le hle
    have hpos : 0 < used := by simpa using (Option.filter_eq_some_iff.1 hstates).2
    refine ⟨hle, ⟨line.number, name.text, natText used, grid.flatten⟩, rfl, ?_, ?_⟩
    · exact ⟨by rwa [hlength], by rw [hlength], grid, rfl, by rwa [hlength]⟩
    · rw [Draft.push, Draft.define_symbols hdefine]

theorem recordTable_spec {directory : Text} {files : FileReader}
    (h : line.recordTable directory files draft = .ok recorded) :
    ∃ definition, definition.line = line.number ∧
      recorded.symbols = draft.symbols.push .tables definition := by
  unfold recordTable at h
  obtain ⟨keyword, -, h⟩ := bind_eq_ok_iff.1 h
  obtain ⟨name, -, h⟩ := bind_eq_ok_iff.1 h
  obtain ⟨source, -, h⟩ := bind_eq_ok_iff.1 h
  obtain ⟨defined, hdefine, h⟩ := bind_eq_ok_iff.1 h
  dsimp only at h
  split at h
  all_goals
    obtain ⟨⟨expr, values⟩, -, h⟩ := bind_eq_ok_iff.1 h
    cases h
    exact ⟨_, rfl, by rw [Draft.push, Draft.define_symbols hdefine]⟩

theorem recordGlobal_spec (h : line.recordGlobal draft = .ok recorded) :
    ∃ definition, definition.line = line.number ∧
      recorded.symbols = draft.symbols.push .globals definition := by
  unfold recordGlobal at h
  obtain ⟨keyword, -, h⟩ := bind_eq_ok_iff.1 h
  obtain ⟨sign, -, h⟩ := bind_eq_ok_iff.1 h
  split at h
  next => contradiction
  next =>
    obtain ⟨start, -, h⟩ := bind_eq_ok_iff.1 h
    dsimp only at h
    split at h
    next => contradiction
    next =>
      obtain ⟨⟨resets, _⟩, -, h⟩ := bind_eq_ok_iff.1 h
      cases h
      exact ⟨_, rfl, rfl⟩

/-- A line that stands for itself makes definitions, at least one. They have its number,
and none is that of a process. -/
structure Makes (line : Line) (made : List (Category × Definition)) : Prop where
  ne_nil : made ≠ []
  numbered : ∀ entry ∈ made, entry.2.line = line.number
  not_process : ∀ entry ∈ made, entry.1 ≠ .markovs

namespace Makes

theorem singleton {category : Category} {definition : Definition}
    (hline : definition.line = line.number) (hcategory : category ≠ .markovs) :
    line.Makes [(category, definition)] :=
  ⟨by simp, by simpa using hline, by simpa using hcategory⟩

theorem cons {category : Category} {definition : Definition}
    {later : List (Category × Definition)} (hline : definition.line = line.number)
    (hcategory : category ≠ .markovs) (hlater : line.Makes later) :
    line.Makes ((category, definition) :: later) :=
  ⟨by simp, List.forall_mem_cons.2 ⟨hline, hlater.numbered⟩,
    List.forall_mem_cons.2 ⟨hcategory, hlater.not_process⟩⟩

end Makes

theorem recordWieners_spec {names : List (Nat × Text)} (hne : names ≠ [])
    (h : line.recordWieners names draft = .ok recorded) :
    ∃ made, line.Makes made ∧ recorded.symbols = draft.symbols.pushAll made := by
  induction names generalizing draft with
  | nil => contradiction
  | cons first later ih =>
      obtain ⟨column, name⟩ := first
      unfold recordWieners at h
      obtain ⟨defined, hdefine, h⟩ := bind_eq_ok_iff.1 h
      cases later with
      | nil =>
          cases h
          refine ⟨[(.wieners, ⟨line.number, name, [], []⟩)], Makes.singleton rfl (by decide), ?_⟩
          rw [Draft.push, Draft.define_symbols hdefine]
          rfl
      | cons second later =>
          obtain ⟨made, hmade, hsymbols⟩ := ih (by simp) h
          refine ⟨(.wieners, ⟨line.number, name, [], []⟩) :: made,
            Makes.cons rfl (by decide) hmade, ?_⟩
          rw [hsymbols, Draft.push, Draft.define_symbols hdefine]
          rfl

theorem recordWiener_spec (h : line.recordWiener draft = .ok recorded) :
    ∃ made, line.Makes made ∧ recorded.symbols = draft.symbols.pushAll made := by
  unfold recordWiener at h
  obtain ⟨keyword, -, h⟩ := bind_eq_ok_iff.1 h
  dsimp only at h
  split at h
  next => contradiction
  next hne => exact recordWieners_spec (by simpa using hne) h

end Line

namespace Assignment

variable {line : Line} {assignment : Assignment} {draft recorded : Draft}

theorem defineName_symbols {defined : Draft} {name : Text}
    (h : assignment.defineName line draft = .ok (defined, name)) :
    defined.symbols = draft.symbols := by
  unfold defineName at h
  split at h
  case h_6 =>
    split at h
    next => contradiction
    next =>
      obtain ⟨next, hnext, hpure⟩ := bind_eq_ok_iff.1 h
      cases hpure
      exact Draft.define_symbols hnext
  all_goals
    first
    | cases h
      rfl
    | split at h
      · cases h
        rfl
      · contradiction

/-- An assignment makes one definition in the category of its form. -/
theorem record_spec {expr : Text} (h : assignment.record line expr draft = .ok recorded) :
    ∃ definition, definition.line = line.number ∧
      recorded.symbols = draft.symbols.push assignment.form.category definition := by
  unfold record at h
  split at h
  next => contradiction
  next =>
    obtain ⟨⟨defined, name⟩, hname, h⟩ := bind_eq_ok_iff.1 h
    obtain ⟨⟨expr, args⟩, -, h⟩ := bind_eq_ok_iff.1 h
    cases h
    exact ⟨_, rfl, by rw [Draft.push, defineName_symbols hname]⟩

end Assignment

theorem Form.category_ne_markovs (form : Form) : form.category ≠ .markovs := by
  cases form <;> decide

namespace Line

variable {line : Line} {draft recorded : Draft}

theorem recordFrom_spec {leading : Option Form} {fuel column : Nat}
    (h : line.recordFrom leading (fuel + 1) column draft = .ok recorded) :
    ∃ made, line.Makes made ∧ recorded.symbols = draft.symbols.pushAll made := by
  induction fuel generalizing column draft with
  | zero =>
      unfold recordFrom at h
      obtain ⟨assignment, -, h⟩ := bind_eq_ok_iff.1 h
      obtain ⟨entered, hentered, h⟩ := bind_eq_ok_iff.1 h
      obtain ⟨definition, hline, hsymbols⟩ := Assignment.record_spec hentered
      refine ⟨[(assignment.form.category, definition)],
        Makes.singleton hline (Form.category_ne_markovs _), ?_⟩
      split at h
      all_goals
        cases h
        exact hsymbols
  | succ fuel ih =>
      unfold recordFrom at h
      obtain ⟨assignment, -, h⟩ := bind_eq_ok_iff.1 h
      obtain ⟨entered, hentered, h⟩ := bind_eq_ok_iff.1 h
      obtain ⟨definition, hline, hsymbols⟩ := Assignment.record_spec hentered
      split at h
      next =>
        obtain ⟨made, hmade, hlater⟩ := ih h
        refine ⟨(assignment.form.category, definition) :: made,
          Makes.cons hline (Form.category_ne_markovs _) hmade, ?_⟩
        rw [hlater, hsymbols]
        rfl
      next =>
        cases h
        exact ⟨[(assignment.form.category, definition)],
          Makes.singleton hline (Form.category_ne_markovs _), hsymbols⟩

theorem record_spec (h : line.record draft = .ok recorded) :
    ∃ made, line.Makes made ∧ recorded.symbols = draft.symbols.pushAll made := by
  unfold record at h
  obtain ⟨⟨leading, first⟩, -, h⟩ := bind_eq_ok_iff.1 h
  exact recordFrom_spec h

end Line

end OdeModel
