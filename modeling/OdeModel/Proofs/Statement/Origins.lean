import OdeModel.Proofs.Statement.Accounts

/-!
# Where definitions come from

Every definition of a draft was added by the one reader of the line that its statement
starts with. So what holds of all that the readers add holds of the whole symbol table.
-/

namespace OdeModel

namespace SymbolTable

/-- The definitions of a table do not tell in which order those of different categories have
been entered, but they tell which ones. -/
theorem mem_of_pushAll_eq {table : SymbolTable} {made made' : List (Category × Definition)}
    (h : table.pushAll made = table.pushAll made') {entry : Category × Definition}
    (hentry : entry ∈ made) : entry ∈ made' := by
  have hget := congrArg (fun table => table.get entry.1) h
  simp only [get_pushAll] at hget
  have hmem : entry.2 ∈ (made.filter fun other => other.1 = entry.1).map Prod.snd :=
    List.mem_map_of_mem (List.mem_filter.2 ⟨hentry, by simp⟩)
  rw [List.append_cancel_left hget] at hmem
  obtain ⟨⟨category, definition⟩, hother, hsame⟩ := List.mem_map.1 hmem
  obtain ⟨hother, hcategory⟩ := List.mem_filter.1 hother
  rwa [show entry = (category, definition) from
    Prod.ext (of_decide_eq_true hcategory).symm hsame.symm]

end SymbolTable

namespace Draft

/-- All definitions that are new in the second draft are as required. -/
def AddsOnly (P : Category → Definition → Prop) (old new : Draft) : Prop :=
  ∃ made, new.symbols = old.symbols.pushAll made ∧ ∀ entry ∈ made, P entry.1 entry.2

namespace AddsOnly

variable {P : Category → Definition → Prop} {old middle new : Draft}

theorem of_symbols_eq (h : new.symbols = old.symbols) : old.AddsOnly P new :=
  ⟨[], h, by simp⟩

theorem push {category : Category} {definition : Definition}
    (h : new.symbols = old.symbols.push category definition) (hnew : P category definition) :
    old.AddsOnly P new :=
  ⟨[(category, definition)], h, by simpa using hnew⟩

theorem mono {Q : Category → Definition → Prop}
    (hPQ : ∀ category definition, P category definition → Q category definition)
    (h : old.AddsOnly P new) : old.AddsOnly Q new := by
  obtain ⟨made, hmade, hP⟩ := h
  exact ⟨made, hmade, fun entry hentry => hPQ _ _ (hP entry hentry)⟩

theorem trans (h : old.AddsOnly P middle) (h' : middle.AddsOnly P new) : old.AddsOnly P new := by
  obtain ⟨made, hmade, hP⟩ := h
  obtain ⟨later, hlater, hP'⟩ := h'
  refine ⟨made ++ later, ?_, List.forall_mem_append.2 ⟨hP, hP'⟩⟩
  rw [hlater, hmade, SymbolTable.pushAll_append]

end AddsOnly

/-- The readers add only definitions that are as required when they read the given lines. -/
structure ReadersAdd (P : Category → Definition → Prop) (settings : Settings)
    (files : FileReader) (lines : List Line) : Prop where
  exports : ∀ line ∈ lines, line.isLedBy "export".toList = true →
    ∀ ⦃old new⦄, line.recordExport old = .ok new → old.AddsOnly P new
  markovs : ∀ line ∈ lines, line.isLedBy "markov".toList = true →
    ∀ ⦃following old new used⦄, line.recordMarkov following old = .ok (new, used) →
      (∀ row ∈ following.take used, row ∈ lines) → old.AddsOnly P new
  tables : ∀ line ∈ lines, line.isLedBy "table".toList = true → ∀ ⦃old new⦄,
    line.recordTable settings.tableDirectory files old = .ok new → old.AddsOnly P new
  wieners : ∀ line ∈ lines, line.isLedBy "wiener".toList = true →
    ∀ ⦃old new⦄, line.recordWiener old = .ok new → old.AddsOnly P new
  globals : ∀ line ∈ lines, line.isLedBy "global".toList = true →
    ∀ ⦃old new⦄, line.recordGlobal old = .ok new → old.AddsOnly P new
  singles : ∀ line ∈ lines, (∀ keyword ∈ Vocabulary.blocks, line.isLedBy keyword = false) →
    ∀ ⦃old new⦄, line.record old = .ok new → old.AddsOnly P new

namespace ReadersAdd

variable {P : Category → Definition → Prop} {settings : Settings} {files : FileReader}
  {lines : List Line}

/-- The one reader of a line. -/
theorem readerOf (h : ReadersAdd P settings files lines) {line : Line} (hline : line ∈ lines)
    {following : List Line} {old new : Draft} {used : Nat}
    (hrows : ∀ row ∈ following.take used, row ∈ lines)
    (hread : Draft.readerOf settings files line.leadingWord? line following old =
      .ok (new, used)) : old.AddsOnly P new := by
  have halone : ∀ {reader : Line → Draft → Except ModelError Draft},
      alone reader line following old = .ok (new, used) → reader line old = .ok new := by
    intro reader hread
    obtain ⟨read, hreader, hpair⟩ := bind_eq_ok_iff.1 hread
    cases hpair
    exact hreader
  by_cases hblock : ∀ keyword ∈ Vocabulary.blocks, line.isLedBy keyword = false
  · rw [readerOf_other hblock] at hread
    exact h.singles line hline hblock (halone hread)
  · obtain ⟨keyword, hkeyword, hled⟩ : ∃ keyword ∈ Vocabulary.blocks,
        line.isLedBy keyword = true := by simpa using hblock
    obtain ⟨⟨_, reader⟩, hreader, rfl⟩ :=
      List.mem_map.1 (show keyword ∈ (blockReaders settings files).map Prod.fst from hkeyword)
    rw [readerOf_keyword hreader hled] at hread
    simp only [blockReaders, List.mem_cons, List.not_mem_nil, or_false, Prod.mk.injEq] at hreader
    rcases hreader with ⟨rfl, rfl⟩ | ⟨rfl, rfl⟩ | ⟨rfl, rfl⟩ | ⟨rfl, rfl⟩ | ⟨rfl, rfl⟩
    · exact h.exports line hline hled (halone hread)
    · exact h.markovs line hline hled hread hrows
    · exact h.tables line hline hled (halone hread)
    · exact h.wieners line hline hled (halone hread)
    · exact h.globals line hline hled (halone hread)

/-- All definitions of the draft are as required. -/
theorem forall_mem (h : ReadersAdd P settings files lines) {draft : Draft}
    (hdraft : ofLines settings files lines = .ok draft) (category : Category) :
    ∀ definition ∈ draft.symbols.get category, P category definition := by
  intro definition hmem
  obtain ⟨exports, statements, hextents, hlines, hread, hsymbols, -⟩ := ofLines_accounts hdraft
  rw [hsymbols, SymbolTable.get_pushAll, SymbolTable.get_empty, List.nil_append] at hmem
  obtain ⟨⟨_, _⟩, hentry, rfl⟩ := List.mem_map.1 hmem
  obtain ⟨hmade, hcategory⟩ := List.mem_filter.1 hentry
  obtain rfl := of_decide_eq_true hcategory
  obtain ⟨statement, hstatement, hmade⟩ := List.mem_flatMap.1 hmade
  rw [mem_byKeywords] at hstatement
  -- the lines of the statement are lines of the text
  have hown : ∀ line ∈ statement.lines, line ∈ lines := by
    intro line hline
    rcases List.mem_append.1 hstatement with hexport | hother
    · have hextent := List.mem_map_of_mem (f := Statement.extent) hexport
      rw [hextents] at hextent
      obtain ⟨head, hhead, hpair⟩ := List.mem_map.1 hextent
      obtain ⟨rfl, hrows⟩ := Prod.mk.inj hpair
      rw [Statement.lines, ← hrows, List.mem_singleton] at hline
      exact hline ▸ (List.mem_filter.1 hhead).1
    · have hin := List.mem_flatMap.2 ⟨statement, hother, hline⟩
      rw [hlines] at hin
      exact (List.mem_filter.1 hin).1
  obtain ⟨following, old, new, hreader, hnew⟩ := (hread statement hstatement).read
  obtain ⟨made, hadded, hP⟩ := h.readerOf (hown _ List.mem_cons_self)
    (fun row hrow => hown row (List.mem_cons_of_mem _ (by simpa using hrow))) hreader
  exact hP _ (SymbolTable.mem_of_pushAll_eq (hnew.symm.trans hadded) hmade)

end ReadersAdd

end Draft

/-! ### Readers of one line -/

open Draft

variable {P : Category → Definition → Prop} {line : Line} {draft recorded : Draft}

/-- A process enters under its name, a definition for each name. -/
theorem Line.recordWiener_addsOnly (hP : ∀ name, P .wieners ⟨line.number, name, [], []⟩)
    (h : line.recordWiener draft = .ok recorded) : draft.AddsOnly P recorded := by
  have hnames : ∀ {names : List (Nat × Text)} {draft}, line.recordWieners names draft =
      .ok recorded → draft.AddsOnly P recorded := by
    intro names
    induction names with
    | nil =>
        intro draft h
        cases h
        exact AddsOnly.of_symbols_eq rfl
    | cons first later ih =>
        intro draft h
        obtain ⟨column, name⟩ := first
        unfold recordWieners at h
        obtain ⟨defined, hdefine, h⟩ := bind_eq_ok_iff.1 h
        refine (AddsOnly.push ?_ (hP name)).trans (ih h)
        rw [Draft.push, define_symbols hdefine]
  unfold recordWiener at h
  obtain ⟨keyword, -, h⟩ := bind_eq_ok_iff.1 h
  dsimp only at h
  split at h
  next => contradiction
  next => exact hnames h

/-- An assignment adds the definition that its contents make. -/
theorem Assignment.record_addsOnly {assignment : Assignment} {expr : Text}
    (hP : ∀ name expr' args, assignment.contents line expr = .ok (expr', args) →
      P assignment.form.category ⟨line.number, name, expr', args⟩)
    (h : assignment.record line expr draft = .ok recorded) : draft.AddsOnly P recorded := by
  unfold record at h
  split at h
  next => contradiction
  next =>
    obtain ⟨⟨defined, name⟩, hname, h⟩ := bind_eq_ok_iff.1 h
    obtain ⟨⟨expr', args⟩, hcontents, h⟩ := bind_eq_ok_iff.1 h
    cases h
    refine AddsOnly.push ?_ (hP name expr' args hcontents)
    rw [Draft.push, defineName_symbols hname]

/-- What holds of all that the assignments of a line add holds of all that the line adds. -/
theorem Line.recordFrom_addsOnly {leading : Option Form} {fuel column : Nat}
    (hstep : ∀ ⦃column assignment old new⦄,
      Assignment.locate line column leading = .ok assignment →
        assignment.record line (Text.nextExpression line.text assignment.sign).1 old = .ok new →
          old.AddsOnly P new)
    (h : line.recordFrom leading fuel column draft = .ok recorded) :
    draft.AddsOnly P recorded := by
  induction fuel generalizing column draft with
  | zero =>
      cases h
      exact AddsOnly.of_symbols_eq rfl
  | succ fuel ih =>
      unfold recordFrom at h
      obtain ⟨assignment, hlocate, h⟩ := bind_eq_ok_iff.1 h
      obtain ⟨entered, hentered, h⟩ := bind_eq_ok_iff.1 h
      have hfirst := hstep hlocate hentered
      split at h
      next => exact hfirst.trans (ih h)
      next =>
        cases h
        exact hfirst

end OdeModel
