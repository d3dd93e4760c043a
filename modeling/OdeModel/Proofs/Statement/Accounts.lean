import OdeModel.Proofs.Statement.Made

/-!
# Accounts of all lines

The statements that are read share out the lines of a text: every line is either the head of
one statement or a row of one, and every statement makes definitions. Blocks are read
keyword by keyword, so a statement is in its place in the text when all lines that an
earlier reader has left are in theirs.
-/

namespace OdeModel

/-- A statement that has been read. -/
structure Statement where
  /-- The line that starts it. -/
  head : Line
  /-- The lines behind that one which belong to it. -/
  rows : List Line
  /-- The definitions that it has made. -/
  made : List (Category × Definition)

/-- A space follows the first word of the line, which is the keyword. -/
def Line.isLedBy (keyword : Text) (line : Line) : Bool := line.leadingWord? == some keyword

namespace Draft

/-- The keywords of block statements with their readers, in the order of reading. -/
def blockReaders (settings : Settings) (files : FileReader) : List (Text × BlockReader) :=
  [("export".toList, alone Line.recordExport),
    ("markov".toList, Line.recordMarkov),
    ("table".toList, alone fun line => Line.recordTable line settings.tableDirectory files),
    ("wiener".toList, alone Line.recordWiener),
    ("global".toList, alone Line.recordGlobal)]

/-- The one reader of the lines that a word leads. -/
def readerOf (settings : Settings) (files : FileReader) (leading : Option Text) : BlockReader :=
  match (blockReaders settings files).find? fun entry => leading == some entry.1 with
  | some (_, reader) => reader
  | none => alone Line.record

end Draft

namespace Statement

/-- All lines of the statement. -/
def lines (statement : Statement) : List Line := statement.head :: statement.rows

/-- The statement without what it has made. -/
def extent (statement : Statement) : Line × List Line := (statement.head, statement.rows)

/-- The statements keyword by keyword, and then all others; those of one keyword stay in
their order. -/
def byKeywords : List Text → List Statement → List Statement
  | [], statements => statements
  | keyword :: keywords, statements =>
      (statements.filter fun statement => statement.head.isLedBy keyword) ++
        byKeywords keywords (statements.filter fun statement => !statement.head.isLedBy keyword)

/-- The statement is what the one reader of its head has made of it. It has made at least
one definition, and all of them have the number of its head. Only the head of a process
takes rows, and it makes the definition of that process. -/
structure IsRead (settings : Settings) (files : FileReader) (statement : Statement) : Prop where
  read : ∃ (following : List Line) (old new : Draft),
    Draft.readerOf settings files statement.head.leadingWord? statement.head
      (statement.rows ++ following) old = .ok (new, statement.rows.length) ∧
    new.symbols = old.symbols.pushAll statement.made
  ne_nil : statement.made ≠ []
  numbered : ∀ entry ∈ statement.made, entry.2.line = statement.head.number
  rows : statement.rows ≠ [] → statement.head.isLedBy "markov".toList = true
  process : ∀ definition, (.markovs, definition) ∈ statement.made →
    statement.made = [(.markovs, definition)] ∧ definition.IsProcess statement.rows

end Statement

open Statement

/-! ### Readers -/

section Readers

variable {settings : Settings} {files : FileReader} {line : Line}

/-- A line that no keyword of a block leads is read for itself. -/
theorem readerOf_other (h : ∀ keyword ∈ Vocabulary.blocks, line.isLedBy keyword = false) :
    Draft.readerOf settings files line.leadingWord? = Draft.alone Line.record := by
  have hnone : (Draft.blockReaders settings files).find?
      (fun entry => line.leadingWord? == some entry.1) = none := by
    rw [List.find?_eq_none]
    intro entry hentry
    exact Bool.eq_false_iff.1 (h entry.1 (List.mem_map_of_mem (f := Prod.fst) hentry))
  rw [Draft.readerOf, hnone]

theorem readerOf_keyword {keyword : Text} {reader : Draft.BlockReader}
    (hreader : (keyword, reader) ∈ Draft.blockReaders settings files)
    (h : line.isLedBy keyword = true) :
    Draft.readerOf settings files line.leadingWord? = reader := by
  have hword : line.leadingWord? = some keyword := by simpa [Line.isLedBy] using h
  simp only [Draft.blockReaders, List.mem_cons, List.not_mem_nil, or_false,
    Prod.mk.injEq] at hreader
  rcases hreader with ⟨rfl, rfl⟩ | ⟨rfl, rfl⟩ | ⟨rfl, rfl⟩ | ⟨rfl, rfl⟩ | ⟨rfl, rfl⟩
  all_goals simp [Draft.readerOf, Draft.blockReaders, hword]

variable {reader : Line → Draft → Except ModelError Draft} {draft recorded : Draft}

theorem IsRead.of_alone {made : List (Category × Definition)}
    (hreader : Draft.readerOf settings files line.leadingWord? = Draft.alone reader)
    (hrun : reader line draft = .ok recorded) (hmade : line.Makes made)
    (hsymbols : recorded.symbols = draft.symbols.pushAll made) :
    IsRead settings files ⟨line, [], made⟩ where
  read := ⟨[], draft, recorded, by rw [hreader, Draft.alone, hrun]; rfl, hsymbols⟩
  ne_nil := hmade.ne_nil
  numbered := hmade.numbered
  rows := fun h => absurd rfl h
  process := fun _ hmem => absurd rfl (hmade.not_process _ hmem)

end Readers

namespace Draft

/-- The reader makes statements of the lines that the keyword leads. -/
def MakesStatements (settings : Settings) (files : FileReader) (keyword : Text)
    (reader : BlockReader) : Prop :=
  ∀ ⦃line following draft recorded used⦄, line.isLedBy keyword = true →
    reader line following draft = .ok (recorded, used) →
      ∃ made, recorded.symbols = draft.symbols.pushAll made ∧
        IsRead settings files ⟨line, following.take used, made⟩

section Blocks

variable {settings : Settings} {files : FileReader} {keyword : Text}

theorem MakesStatements.alone {reader : Line → Draft → Except ModelError Draft}
    (hreader : (keyword, Draft.alone reader) ∈ blockReaders settings files)
    (hmakes : ∀ ⦃line draft recorded⦄, reader line draft = .ok recorded →
      ∃ made, line.Makes made ∧ recorded.symbols = draft.symbols.pushAll made) :
    MakesStatements settings files keyword (Draft.alone reader) := by
  intro line following draft recorded used hled h
  unfold Draft.alone at h
  obtain ⟨read, hread, h⟩ := bind_eq_ok_iff.1 h
  cases h
  obtain ⟨made, hmade, hsymbols⟩ := hmakes hread
  exact ⟨made, hsymbols, IsRead.of_alone (readerOf_keyword hreader hled) hread hmade hsymbols⟩

/-- A reader that makes one definition in its own category. -/
theorem MakesStatements.single {reader : Line → Draft → Except ModelError Draft}
    (hreader : (keyword, Draft.alone reader) ∈ blockReaders settings files)
    {category : Category} (hcategory : category ≠ .markovs)
    (hmakes : ∀ ⦃line draft recorded⦄, reader line draft = .ok recorded →
      ∃ definition, definition.line = line.number ∧
        recorded.symbols = draft.symbols.push category definition) :
    MakesStatements settings files keyword (Draft.alone reader) :=
  MakesStatements.alone hreader fun _ _ _ h =>
    let ⟨definition, hline, hsymbols⟩ := hmakes h
    ⟨[(category, definition)], Line.Makes.singleton hline hcategory, hsymbols⟩

theorem MakesStatements.markov :
    MakesStatements settings files "markov".toList Line.recordMarkov := by
  intro line following draft recorded used hled h
  obtain ⟨hused, definition, hline, hprocess, hsymbols⟩ := Line.recordMarkov_spec h
  refine ⟨[(.markovs, definition)], hsymbols, ?_⟩
  constructor
  case read =>
    refine ⟨following.drop used, draft, recorded, ?_, hsymbols⟩
    have hreader : ("markov".toList, Line.recordMarkov) ∈ blockReaders settings files := by
      simp [blockReaders]
    rw [readerOf_keyword hreader hled, List.take_append_drop, List.length_take_of_le hused]
    exact h
  case ne_nil => simp
  case numbered => simpa using hline
  case rows => exact fun _ => hled
  case process =>
    intro other hmem
    obtain rfl : other = definition := by simpa using hmem
    exact ⟨rfl, hprocess⟩

theorem MakesStatements.export :
    MakesStatements settings files "export".toList (Draft.alone Line.recordExport) :=
  MakesStatements.single (by simp [blockReaders]) (by decide) fun _ _ _ h =>
    Line.recordExport_spec h

theorem MakesStatements.table : MakesStatements settings files "table".toList
    (Draft.alone fun line => Line.recordTable line settings.tableDirectory files) :=
  MakesStatements.single (by simp [blockReaders]) (by decide) fun _ _ _ h =>
    Line.recordTable_spec h

theorem MakesStatements.wiener :
    MakesStatements settings files "wiener".toList (Draft.alone Line.recordWiener) :=
  MakesStatements.alone (by simp [blockReaders]) fun _ _ _ h => Line.recordWiener_spec h

theorem MakesStatements.global :
    MakesStatements settings files "global".toList (Draft.alone Line.recordGlobal) :=
  MakesStatements.single (by simp [blockReaders]) (by decide) fun _ _ _ h =>
    Line.recordGlobal_spec h

/-- One pass over the lines: the statements that the keyword leads are read, and the lines
that belong to none of them are left. -/
theorem MakesStatements.readBlocks {reader : BlockReader}
    (hreader : MakesStatements settings files keyword reader) {used : Nat}
    {lines kept : List Line} {draft recorded : Draft}
    (h : readBlocks keyword reader used lines draft = .ok (recorded, kept)) :
    ∃ (extents : List (Line × List Line)) (statements : List Statement),
      lines.drop used = extents.flatMap (fun extent => extent.1 :: extent.2) ∧
      statements.map Statement.extent =
        extents.filter (fun extent => extent.1.isLedBy keyword) ∧
      kept.map (·, []) = extents.filter (fun extent => !extent.1.isLedBy keyword) ∧
      (∀ statement ∈ statements, statement.IsRead settings files) ∧
      recorded.symbols = draft.symbols.pushAll (statements.flatMap Statement.made) := by
  induction lines generalizing used draft kept with
  | nil =>
      rw [Draft.readBlocks] at h
      cases h
      exact ⟨[], [], by simp, rfl, rfl, by simp, rfl⟩
  | cons line later ih =>
      cases used with
      | succ used =>
          rw [Draft.readBlocks] at h
          exact ih h
      | zero =>
          rw [Draft.readBlocks] at h
          split at h
          next hled =>
            replace hled : line.isLedBy keyword = true := by simpa [Line.isLedBy] using hled
            obtain ⟨⟨read, used⟩, hread, h⟩ := bind_eq_ok_iff.1 h
            obtain ⟨made, hmade, hisRead⟩ := hreader hled hread
            obtain ⟨extents, statements, hlines, hmine, hkept, hall, hsymbols⟩ := ih h
            refine ⟨(line, later.take used) :: extents, ⟨line, later.take used, made⟩ :: statements,
              ?_, ?_, ?_, List.forall_mem_cons.2 ⟨hisRead, hall⟩, ?_⟩
            · rw [List.flatMap_cons, ← hlines, List.cons_append, List.take_append_drop]
              rfl
            · rw [List.map_cons, hmine, List.filter_cons_of_pos (by simp [hled])]
              rfl
            · rw [hkept, List.filter_cons_of_neg (by simp [hled])]
            · rw [hsymbols, hmade, List.flatMap_cons, SymbolTable.pushAll_append]
          next hother =>
            replace hother : line.isLedBy keyword = false := by simpa [Line.isLedBy] using hother
            obtain ⟨⟨rest, left⟩, hrest, h⟩ := bind_eq_ok_iff.1 h
            cases h
            obtain ⟨extents, statements, hlines, hmine, hkept, hall, hsymbols⟩ := ih hrest
            refine ⟨(line, []) :: extents, statements, ?_, ?_, ?_, hall, hsymbols⟩
            · rw [List.flatMap_cons, ← hlines]
              rfl
            · rw [hmine, List.filter_cons_of_neg (by simp [hother])]
            · rw [List.map_cons, hkept, List.filter_cons_of_pos (by simp [hother])]

end Blocks

end Draft

/-! ### Statements in their places -/

/-- Two lists that share out the elements of a third one by a property of them can be put
together in the order of that one. -/
theorem exists_merge {α β : Type} (p : α → Bool) (f : β → α) {places : List α}
    {mine others : List β} (hmine : mine.map f = places.filter p)
    (hothers : others.map f = places.filter fun place => !p place) :
    ∃ all : List β, all.map f = places ∧ all.filter (fun b => p (f b)) = mine ∧
      all.filter (fun b => !p (f b)) = others := by
  induction places generalizing mine others with
  | nil =>
      obtain rfl : mine = [] := by simpa using hmine
      obtain rfl : others = [] := by simpa using hothers
      exact ⟨[], rfl, rfl, rfl⟩
  | cons place places ih =>
      cases hp : p place with
      | true =>
          rw [List.filter_cons_of_pos hp] at hmine
          rw [List.filter_cons_of_neg (by simp [hp])] at hothers
          obtain ⟨first, rest, rfl, hfirst, hrest⟩ := List.map_eq_cons_iff.1 hmine
          obtain ⟨all, hall, rfl, rfl⟩ := ih hrest hothers
          have hpfirst : p (f first) = true := hfirst ▸ hp
          exact ⟨first :: all, by rw [List.map_cons, hfirst, hall],
            List.filter_cons_of_pos hpfirst, List.filter_cons_of_neg (by simp [hpfirst])⟩
      | false =>
          rw [List.filter_cons_of_neg (by simp [hp])] at hmine
          rw [List.filter_cons_of_pos (by simp [hp])] at hothers
          obtain ⟨first, rest, rfl, hfirst, hrest⟩ := List.map_eq_cons_iff.1 hothers
          obtain ⟨all, hall, rfl, rfl⟩ := ih hmine hrest
          have hpfirst : p (f first) = false := hfirst ▸ hp
          exact ⟨first :: all, by rw [List.map_cons, hfirst, hall],
            List.filter_cons_of_neg (by simp [hpfirst]),
            List.filter_cons_of_pos (by simp [hpfirst])⟩

/-- The statements account for the lines: these are theirs, in their order, and reading
them has added what they have made, keyword by keyword. -/
structure Accounts (settings : Settings) (files : FileReader) (keywords : List Text)
    (lines : List Line) (draft recorded : Draft) (statements : List Statement) : Prop where
  lines : statements.flatMap Statement.lines = lines
  isRead : ∀ statement ∈ statements, statement.IsRead settings files
  symbols : recorded.symbols =
    draft.symbols.pushAll ((byKeywords keywords statements).flatMap Statement.made)

namespace Accounts

open Draft

variable {settings : Settings} {files : FileReader} {keywords : List Text}
  {lines kept : List Line} {draft middle recorded : Draft} {statements : List Statement}

/-- A line that is read for itself accounts for itself. -/
theorem recordAll (hlines : ∀ line ∈ lines, ∀ keyword ∈ Vocabulary.blocks,
    line.isLedBy keyword = false) (h : recordAll lines draft = .ok recorded) :
    ∃ statements, Accounts settings files [] lines draft recorded statements := by
  induction lines generalizing draft with
  | nil =>
      cases h
      exact ⟨[], rfl, by simp, rfl⟩
  | cons line later ih =>
      rw [List.forall_mem_cons] at hlines
      unfold Draft.recordAll at h
      obtain ⟨read, hread, h⟩ := bind_eq_ok_iff.1 h
      obtain ⟨made, hmade, hfirst⟩ := Line.record_spec hread
      obtain ⟨statements, hlater, hall, hsymbols⟩ := ih hlines.2 h
      have hisRead : IsRead settings files ⟨line, [], made⟩ :=
        IsRead.of_alone (readerOf_other hlines.1) hread hmade hfirst
      refine ⟨⟨line, [], made⟩ :: statements, ?_, List.forall_mem_cons.2 ⟨hisRead, hall⟩, ?_⟩
      · rw [List.flatMap_cons, hlater]
        rfl
      · rw [hsymbols, hfirst, byKeywords, byKeywords, List.flatMap_cons,
          SymbolTable.pushAll_append]

/-- Without heads of processes no statement has rows. -/
theorem extents_eq (h : Accounts settings files keywords lines draft recorded statements)
    (hlines : ∀ line ∈ lines, line.isLedBy "markov".toList = false) :
    statements.map Statement.extent = lines.map (·, []) := by
  have hrows : ∀ statement ∈ statements, statement.rows = [] := by
    intro statement hmem
    by_contra hne
    have hhead : statement.head ∈ lines := by
      rw [← h.lines]
      exact List.mem_flatMap.2 ⟨statement, hmem, List.mem_cons_self⟩
    exact Bool.eq_false_iff.1 (hlines _ hhead) ((h.isRead _ hmem).rows hne)
  have hheads : statements.map Statement.head = lines := by
    rw [← h.lines, List.map_eq_flatMap]
    exact List.flatMap_congr fun statement hmem => by rw [Statement.lines, hrows _ hmem]
  calc
    statements.map Statement.extent
      = (statements.map Statement.head).map (·, []) := by
        rw [List.map_map]
        exact List.map_congr_left fun statement hmem =>
          congrArg (statement.head, ·) (hrows _ hmem)
    _ = lines.map (·, []) := by rw [hheads]

/-- A pass puts the statements that it reads in front of all others, and everything is in
its place when the lines that it leaves are accounted for. -/
theorem pass {keyword : Text} {reader : BlockReader}
    (hreader : MakesStatements settings files keyword reader)
    (h : readBlocks keyword reader 0 lines draft = .ok (middle, kept))
    (hkept : ∀ line ∈ kept, line.isLedBy "markov".toList = false)
    (hothers : ∃ statements, Accounts settings files keywords kept middle recorded statements) :
    ∃ statements, Accounts settings files (keyword :: keywords) lines draft recorded
      statements := by
  obtain ⟨extents, mine, hlines, hmine, hleft, hall, hsymbols⟩ := hreader.readBlocks h
  obtain ⟨others, hothers⟩ := hothers
  obtain ⟨statements, hextents, rfl, rfl⟩ :=
    exists_merge (fun extent : Line × List Line => extent.1.isLedBy keyword) Statement.extent
      hmine ((hothers.extents_eq hkept).trans hleft)
  refine ⟨statements, ?_, fun statement hmem => ?_, ?_⟩
  · rw [List.drop_zero] at hlines
    rw [hlines, ← hextents, List.flatMap_map]
    rfl
  · cases hled : statement.head.isLedBy keyword with
    | true => exact hall statement (List.mem_filter.2 ⟨hmem, hled⟩)
    | false =>
        exact hothers.isRead statement (List.mem_filter.2 ⟨hmem, by simp [extent, hled]⟩)
  · rw [hothers.symbols, hsymbols, byKeywords, List.flatMap_append, SymbolTable.pushAll_append]
    rfl

end Accounts

namespace Draft

theorem isLedBy_of_mem_kept {keyword : Text} {reader : BlockReader} {lines kept : List Line}
    {draft recorded : Draft} (h : readBlocks keyword reader 0 lines draft = .ok (recorded, kept)) :
    ∀ line ∈ kept, line.isLedBy keyword = false := fun line hmem => by
  simpa [Line.isLedBy] using (readBlocks_kept h).2 line hmem

theorem mem_byKeywords {keywords : List Text} {statements : List Statement}
    {statement : Statement} :
    statement ∈ byKeywords keywords statements ↔ statement ∈ statements := by
  induction keywords generalizing statements with
  | nil => exact Iff.rfl
  | cons keyword keywords ih =>
      rw [byKeywords, List.mem_append, ih, List.mem_filter, List.mem_filter]
      cases statement.head.isLedBy keyword <;> simp

theorem byKeywords_append {keyword : Text} {keywords : List Text} {mine others : List Statement}
    (hmine : ∀ statement ∈ mine, statement.head.isLedBy keyword = true)
    (hothers : ∀ statement ∈ others, statement.head.isLedBy keyword = false) :
    byKeywords (keyword :: keywords) (mine ++ others) = mine ++ byKeywords keywords others := by
  have hmine' : ∀ statement ∈ mine, ¬ (!statement.head.isLedBy keyword) = true := by
    simpa using hmine
  have hothers' : ∀ statement ∈ others, ¬ statement.head.isLedBy keyword = true := by
    simpa using hothers
  rw [byKeywords, List.filter_append, List.filter_append, List.filter_eq_self.2 hmine,
    List.filter_eq_nil_iff.2 hothers', List.filter_eq_nil_iff.2 hmine',
    List.filter_eq_self.2 (by simpa using hothers), List.append_nil, List.nil_append]

/-- Where no statement of a pass takes rows, the lines are the heads and what is left. -/
theorem extents_of_rows_nil {extents : List (Line × List Line)}
    (h : ∀ extent ∈ extents, extent.2 = []) :
    extents = (extents.flatMap fun extent => extent.1 :: extent.2).map (·, []) := by
  induction extents with
  | nil => rfl
  | cons extent extents ih =>
      obtain ⟨head, rows⟩ := extent
      obtain ⟨rfl, hlater⟩ := List.forall_mem_cons.1 h
      rw [List.flatMap_cons, List.map_append, ← ih hlater]
      rfl

variable {settings : Settings} {files : FileReader}

/-- A pass whose statements take no rows reads the lines that the keyword leads, and leaves
the other ones. -/
theorem MakesStatements.readBlocks_of_ne {keyword : Text} {reader : BlockReader}
    (hreader : MakesStatements settings files keyword reader) (hne : keyword ≠ "markov".toList)
    {lines kept : List Line} {draft recorded : Draft}
    (h : Draft.readBlocks keyword reader 0 lines draft = .ok (recorded, kept)) :
    kept = (lines.filter fun line => !line.isLedBy keyword) ∧ ∃ statements : List Statement,
      statements.map Statement.extent =
        (lines.filter fun line => line.isLedBy keyword).map (·, []) ∧
      (∀ statement ∈ statements, statement.IsRead settings files) ∧
      recorded.symbols = draft.symbols.pushAll (statements.flatMap Statement.made) := by
  obtain ⟨extents, statements, hlines, hmine, hkept, hall, hsymbols⟩ := hreader.readBlocks h
  have hrows : ∀ extent ∈ extents, extent.2 = [] := by
    intro extent hmem
    cases hled : extent.1.isLedBy keyword with
    | false =>
        have hleft : extent ∈ kept.map (·, []) := by
          rw [hkept]
          exact List.mem_filter.2 ⟨hmem, by simp [hled]⟩
        obtain ⟨line, -, rfl⟩ := List.mem_map.1 hleft
        rfl
    | true =>
        have hread : extent ∈ statements.map Statement.extent := by
          rw [hmine]
          exact List.mem_filter.2 ⟨hmem, hled⟩
        obtain ⟨statement, hstatement, rfl⟩ := List.mem_map.1 hread
        by_contra hrows
        have hmarkov := (hall statement hstatement).rows hrows
        rw [Line.isLedBy, beq_iff_eq] at hmarkov hled
        exact hne (Option.some.inj (hled.symm.trans hmarkov))
  have hextents := extents_of_rows_nil hrows
  rw [← hlines, List.drop_zero] at hextents
  rw [hextents, List.filter_map] at hmine hkept
  exact ⟨List.map_injective_iff.2 (fun _ _ heq => (Prod.mk.inj heq).1) hkept,
    statements, hmine, hall, hsymbols⟩

/-- The exports are read first, and what is left when they are is accounted for by the other
passes, one after the other. -/
theorem exists_accounts {lines : List Line} {draft : Draft}
    (h : ofLines settings files lines = .ok draft) :
    ∃ (exports statements : List Statement) (middle : Draft),
      exports.map Statement.extent =
        (lines.filter fun line => line.isLedBy "export".toList).map (·, []) ∧
      (∀ statement ∈ exports, statement.IsRead settings files) ∧
      middle.symbols = SymbolTable.empty.pushAll (exports.flatMap Statement.made) ∧
      Accounts settings files Vocabulary.blocks.tail
        (lines.filter fun line => !line.isLedBy "export".toList) middle draft statements := by
  unfold ofLines at h
  obtain ⟨⟨afterExports, keptExports⟩, hexports, h⟩ := bind_eq_ok_iff.1 h
  obtain ⟨⟨afterMarkovs, keptMarkovs⟩, hmarkovs, h⟩ := bind_eq_ok_iff.1 h
  obtain ⟨⟨afterTables, keptTables⟩, htables, h⟩ := bind_eq_ok_iff.1 h
  obtain ⟨⟨afterWieners, keptWieners⟩, hwieners, h⟩ := bind_eq_ok_iff.1 h
  obtain ⟨⟨afterGlobals, keptGlobals⟩, hglobals, h⟩ := bind_eq_ok_iff.1 h
  -- what a pass leaves has been left by all passes before it
  have hsubMarkovs := (readBlocks_kept hmarkovs).1.subset
  have hsubTables := (readBlocks_kept htables).1.subset
  have hsubWieners := (readBlocks_kept hwieners).1.subset
  have hsubGlobals := (readBlocks_kept hglobals).1.subset
  have hheadsMarkovs := isLedBy_of_mem_kept hmarkovs
  have hheadsTables := fun line hmem => hheadsMarkovs line (hsubTables hmem)
  have hheadsWieners := fun line hmem => hheadsTables line (hsubWieners hmem)
  have hheadsGlobals := fun line hmem => hheadsWieners line (hsubGlobals hmem)
  have hleft : ∀ line ∈ keptGlobals, ∀ keyword ∈ Vocabulary.blocks,
      line.isLedBy keyword = false := by
    intro line hmem
    have hmemWieners := hsubGlobals hmem
    have hmemTables := hsubWieners hmemWieners
    have hmemMarkovs := hsubTables hmemTables
    have hmemExports := hsubMarkovs hmemMarkovs
    simp only [Vocabulary.blocks, List.map_cons, List.map_nil, List.forall_mem_cons]
    exact ⟨isLedBy_of_mem_kept hexports line hmemExports, hheadsGlobals line hmem,
      isLedBy_of_mem_kept htables line hmemTables, isLedBy_of_mem_kept hwieners line hmemWieners,
      isLedBy_of_mem_kept hglobals line hmem, by simp⟩
  -- the passes behind the first one, from the last to the first
  have hfromSingles : ∃ statements,
      Accounts settings files [] keptGlobals afterGlobals draft statements :=
    Accounts.recordAll hleft h
  have hfromGlobals := Accounts.pass MakesStatements.global hglobals hheadsGlobals hfromSingles
  have hfromWieners := Accounts.pass MakesStatements.wiener hwieners hheadsWieners hfromGlobals
  have hfromTables := Accounts.pass MakesStatements.table htables hheadsTables hfromWieners
  obtain ⟨statements, hstatements⟩ :=
    Accounts.pass MakesStatements.markov hmarkovs hheadsMarkovs hfromTables
  obtain ⟨rfl, exports, hextents, hall, hsymbols⟩ :=
    MakesStatements.export.readBlocks_of_ne (by decide) hexports
  exact ⟨exports, statements, afterExports, hextents, hall, hsymbols, hstatements⟩

/-- No line is lost. Once the statements of a model are read, the lines of an export are
statements of their own, and the other lines are shared out among statements in their
order: a head, and behind it its rows, if it is that of a process. Each statement has been
read by the one reader of its head and has made definitions with the number of that line.
The symbol table holds what the statements have made and nothing else, keyword by
keyword. A process with `n` states has been made by a statement with `n` rows, which hold
its `n * n` entries, none of them empty. -/
theorem ofLines_accounts {lines : List Line} {draft : Draft}
    (h : ofLines settings files lines = .ok draft) :
    ∃ exports statements : List Statement,
      exports.map Statement.extent =
        (lines.filter fun line => line.isLedBy "export".toList).map (·, []) ∧
      statements.flatMap Statement.lines =
        (lines.filter fun line => !line.isLedBy "export".toList) ∧
      (∀ statement ∈ exports ++ statements, statement.IsRead settings files) ∧
      draft.symbols = SymbolTable.empty.pushAll
        ((byKeywords Vocabulary.blocks (exports ++ statements)).flatMap Statement.made) ∧
      ∀ definition ∈ draft.symbols.get .markovs, ∃ statement ∈ statements,
        statement.made = [(.markovs, definition)] ∧ definition.IsProcess statement.rows ∧
          ∀ n, definition.expr = natText n →
            statement.rows.length = n ∧ definition.args.length = n * n := by
  obtain ⟨exports, statements, middle, hextents, hexports, hmiddle, haccounts⟩ :=
    exists_accounts h
  have hall : ∀ statement ∈ exports ++ statements, statement.IsRead settings files :=
    List.forall_mem_append.2 ⟨hexports, haccounts.isRead⟩
  have hexport : ∀ statement ∈ exports,
      statement.rows = [] ∧ statement.head.isLedBy "export".toList = true := by
    intro statement hmem
    have hextent := List.mem_map_of_mem (f := Statement.extent) hmem
    rw [hextents] at hextent
    obtain ⟨line, hline, heq⟩ := List.mem_map.1 hextent
    obtain ⟨hhead, hrows⟩ := Prod.mk.inj heq
    exact ⟨hrows.symm, hhead ▸ (List.mem_filter.1 hline).2⟩
  have hother : ∀ statement ∈ statements, statement.head.isLedBy "export".toList = false := by
    intro statement hmem
    have hhead : statement.head ∈ statements.flatMap Statement.lines :=
      List.mem_flatMap.2 ⟨statement, hmem, List.mem_cons_self⟩
    rw [haccounts.lines] at hhead
    simpa using (List.mem_filter.1 hhead).2
  have hsymbols : draft.symbols = SymbolTable.empty.pushAll
      ((byKeywords Vocabulary.blocks (exports ++ statements)).flatMap Statement.made) := by
    have horder : byKeywords Vocabulary.blocks (exports ++ statements) =
        exports ++ byKeywords Vocabulary.blocks.tail statements :=
      byKeywords_append (fun statement hmem => (hexport statement hmem).2) hother
    rw [haccounts.symbols, hmiddle, horder, List.flatMap_append, SymbolTable.pushAll_append]
  refine ⟨exports, statements, hextents, haccounts.lines, hall, hsymbols, fun definition hmem => ?_⟩
  rw [hsymbols, SymbolTable.get_pushAll, SymbolTable.get_empty, List.nil_append] at hmem
  obtain ⟨⟨category, entry⟩, hentry, rfl⟩ := List.mem_map.1 hmem
  obtain ⟨hmade, hcategory⟩ := List.mem_filter.1 hentry
  obtain rfl : category = .markovs := by simpa using hcategory
  obtain ⟨statement, hstatement, hmade⟩ := List.mem_flatMap.1 hmade
  rw [mem_byKeywords] at hstatement
  obtain ⟨hsingle, hprocess⟩ := (hall statement hstatement).process entry hmade
  have hplace : statement ∈ statements := by
    rcases List.mem_append.1 hstatement with hmem | hmem
    · exact absurd hprocess.1 (by simp [(hexport statement hmem).1])
    · exact hmem
  refine ⟨statement, hplace, hsingle, hprocess, fun n hexpr => ?_⟩
  have hstates : statement.rows.length = n := natText_injective (hprocess.2.1.symm.trans hexpr)
  exact ⟨hstates, hstates ▸ hprocess.length_args⟩

/-- The lines of an export may stand between the rows of a process. -/
theorem ofLines_accounts_interleaved :
    ∃ (draft : Draft) (exports statements : List Statement),
      ofLines { } (fun _ => .error .notFound)
        [⟨1, "par b=2,a=3".toList⟩, ⟨2, "markov z 2".toList⟩, ⟨3, "\x7b0\x7d \x7b1\x7d".toList⟩,
          ⟨4, "export \x7ba\x7d \x7bb\x7d".toList⟩, ⟨5, "\x7ba\x7d\x7bb\x7d".toList⟩,
          ⟨6, "wiener w".toList⟩] = .ok draft ∧
      exports.map Statement.extent = [(⟨4, "export \x7ba\x7d \x7bb\x7d".toList⟩, [])] ∧
      statements.flatMap Statement.lines =
        [⟨1, "par b=2,a=3".toList⟩, ⟨2, "markov z 2".toList⟩, ⟨3, "\x7b0\x7d \x7b1\x7d".toList⟩,
          ⟨5, "\x7ba\x7d\x7bb\x7d".toList⟩, ⟨6, "wiener w".toList⟩] ∧
      draft.symbols.get .markovs =
        [⟨2, ['z'], ['2'], [['0'], ['1'], ['a'], ['b']]⟩] := by
  have hrun : (do
      let draft ← ofLines { } (fun _ => .error .notFound)
        [⟨1, "par b=2,a=3".toList⟩, ⟨2, "markov z 2".toList⟩, ⟨3, "\x7b0\x7d \x7b1\x7d".toList⟩,
          ⟨4, "export \x7ba\x7d \x7bb\x7d".toList⟩, ⟨5, "\x7ba\x7d\x7bb\x7d".toList⟩,
          ⟨6, "wiener w".toList⟩]
      return draft.symbols.get .markovs) =
        .ok [⟨2, ['z'], ['2'], [['0'], ['1'], ['a'], ['b']]⟩] := by
    decide +kernel
  obtain ⟨draft, hdraft, hrun⟩ := bind_eq_ok_iff.1 hrun
  obtain ⟨exports, statements, hexports, hstatements, -⟩ := ofLines_accounts hdraft
  refine ⟨draft, exports, statements, hdraft, hexports.trans ?_, hstatements.trans ?_,
    pure_eq_ok_iff.1 hrun⟩
  · decide +kernel
  · decide +kernel

end Draft

end OdeModel
