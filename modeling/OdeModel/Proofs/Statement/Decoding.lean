import OdeModel.Proofs.Statement.Writing

/-!
# Decoding of assignments

A written line of assignments gives back what was written: as many definitions, in their
order, in the categories of their forms, with their names, expressions and arguments.
-/

namespace OdeModel

open Text

/-- The assignment was found in what the clause says. -/
structure Assignment.Reads (assignment : Assignment) (clause : Clause) : Prop where
  form : assignment.form = clause.form
  name : assignment.name = clause.name
  formals : assignment.form = .function → assignment.formals.map Prod.snd = clause.args

namespace Clause

variable {clause : Clause} {line : Line} {scope : Scope} {before rest : Text}

/-- The formal arguments are found in their list. -/
theorem listAt_args (hcomplete : clause.IsComplete) (hform : clause.form = .function)
    (htext : line.text = before ++ '(' :: (joined clause.args ++ ')' :: rest)) :
    ∃ formals close, line.listAt (width before) (· == ',') = .ok (formals, close) ∧
      formals.map Prod.snd = clause.args := by
  obtain ⟨hne, -, hargs⟩ := args_of_function hcomplete hform
  have hitems : ∀ arg ∈ clause.args, IsItem arg := fun arg harg =>
    IsItem.of_isIdentifier (hargs arg harg)
  obtain ⟨entries, close, hsplit, hentries⟩ :=
    IsItem.splitList_joined (o := '(') (c := ')') rfl rfl hne hitems before rest
  have hlist : line.listAt (width before) (· == ',') =
      .ok (entries.map fun entry => (entry.1, withoutBlanks entry.2), close) := by
    rw [Line.listAt, htext, ← List.cons_append, ← List.append_assoc, hsplit]
  refine ⟨_, close, hlist, ?_⟩
  rw [List.map_map, ← hentries]
  refine List.map_congr_left fun entry hentry => withoutBlanks_of_no_blank ?_
  exact (hitems _ (hentries ▸ List.mem_map_of_mem hentry)).no_blank

/-- The form of the word is that of the clause, and no other one. -/
theorem ofWord?_word (hform : clause.form ∈ Form.under none) (hnamed : clause.IsNamed scope)
    (hcomplete : clause.IsComplete) :
    Form.ofWord? (clause.word []) = if clause.form = .temporary then none
      else some (clause.form, clause.form.occurrence clause.front) := by
  have hunique := fun other before =>
    @marks_word_unique clause scope hform hnamed hcomplete other before
  split
  next htemporary =>
    refine Form.ofWord?_eq_none fun other before hmarks => ?_
    rcases hunique other before hmarks with ⟨heq, -⟩ | hrank
    · rw [heq, htemporary] at hmarks
      exact hmarks
    · rw [htemporary] at hrank
      revert hrank
      cases other <;> decide
  next hmarked => exact Form.ofWord?_eq_some (marks_word hform hmarked hnamed) hunique

/-- The word before the equals sign tells the form and the name. -/
theorem ofWord_word (word : Word) (hform : clause.form ∈ Form.under none)
    (hnamed : clause.IsNamed scope) (hcomplete : clause.IsComplete)
    (hword : word.text = clause.word []) (hstart : word.start = width before)
    (htext : line.text = before ++ (clause.word [] ++ rest)) :
    ∃ assignment, Assignment.ofWord line word = .ok assignment ∧ assignment.Reads clause ∧
      assignment.sign = word.stop := by
  have hfound := ofWord?_word hform hnamed hcomplete
  unfold Assignment.ofWord
  rw [hword, hfound]
  cases hkind : clause.form
  case constant =>
    refine ⟨_, rfl, ⟨hkind.symm, ?_, by simp⟩, rfl⟩
    rw [Clause.word, hkind]
    exact dropBytes_width_append Form.constant.mark clause.name
  case setting =>
    refine ⟨_, rfl, ⟨hkind.symm, ?_, by simp⟩, rfl⟩
    rw [Clause.word, hkind]
    exact dropBytes_width_append Form.setting.mark clause.name
  case derivative =>
    refine ⟨_, rfl, ⟨hkind.symm, ?_, by simp⟩, rfl⟩
    rw [Clause.word, front, hkind]
    exact slice_width_append ['d'] clause.name Form.derivative.mark
  case constraint =>
    refine ⟨_, rfl, ⟨hkind.symm, ?_, by simp⟩, rfl⟩
    rw [IsNamed, hkind] at hnamed
    exact hnamed.symm
  case temporary =>
    refine ⟨_, rfl, ⟨hkind.symm, ?_, by simp⟩, rfl⟩
    rw [Clause.word, hkind]
    exact List.append_nil _
  case function =>
    have hfront : clause.front = clause.name := by rw [front, hkind]
    have hsplit : line.text =
        (before ++ clause.name) ++ '(' :: (joined clause.args ++ ')' :: rest) := by
      rw [htext, Clause.word, hkind]
      simp
    obtain ⟨formals, close, hlist, hargs⟩ := listAt_args hcomplete hkind hsplit
    have hplace : word.start + (Form.function.occurrence clause.front).start =
        width (before ++ clause.name) := by
      rw [hstart, Form.occurrence_start, hfront, width_append]
    refine ⟨⟨.function, clause.name, word.start, formals, word.stop⟩, ?_,
      ⟨hkind.symm, rfl, fun _ => hargs⟩, rfl⟩
    dsimp only
    rw [if_neg (by decide)]
    dsimp only
    rw [hplace, hlist, Form.occurrence_start, hfront, Clause.word, hkind]
    dsimp only
    rw [takeBytes_width_append]
    rfl
  case difference | prime | integral =>
    refine ⟨_, rfl, ⟨hkind.symm, ?_, by simp⟩, rfl⟩
    rw [Clause.word, front, hkind]
    exact takeBytes_width_append clause.name _
  all_goals simp [hkind, Form.under] at hform

/-! ### Places of assignments -/

/-- What separates an assignment from the text before it: nothing if no mark leads it and it
comes first, else a space or a comma. -/
def IsSeparator (leading : Option Form) (gap : Text) : Prop :=
  leading = none ∧ gap = [] ∨ gap = [' '] ∨ gap = [',']

theorem IsSeparator.isGap {leading : Option Form} {gap : Text} (h : IsSeparator leading gap) :
    IsGap gap := by
  rcases h with ⟨-, rfl⟩ | rfl | rfl <;> simp [IsGap]

/-- A word with a space or an equals sign behind it is found behind a gap. -/
theorem nextWord_written (before rest : Text) {gap word : Text} {sign : Char} (hgap : IsGap gap)
    (hword : ∀ c ∈ word, c ≠ ' ' ∧ c ≠ '=') (hfirst : ∀ c ∈ word.head?, c ≠ ',')
    (hsign : sign = '=' ∨ sign = ' ' ∧ word ≠ []) :
    nextWord (before ++ (gap ++ (word ++ sign :: rest))) (width before) =
      some ⟨width (before ++ gap), word, some sign⟩ := by
  refine nextWord_eq_some_iff.2 ⟨gap, sign :: rest, rfl, hgap, by simp, ?_, hword, ?_, rfl, rfl⟩
  · dsimp only
    cases word with
    | nil =>
        rcases hsign with rfl | ⟨-, hne⟩
        · simp
        · exact absurd rfl hne
    | cons c word =>
        have hc : c ≠ ' ' ∧ c ≠ '=' := hword c List.mem_cons_self
        have hcomma : c ≠ ',' := hfirst c rfl
        simpa using ⟨hc.1, hcomma⟩
  · rcases hsign with rfl | ⟨rfl, -⟩ <;> simp

/-- A word that stands first in a line is found where the line begins. -/
theorem nextWord_written_first (rest : Text) {word : Text} {sign : Char}
    (hword : ∀ c ∈ word, c ≠ ' ' ∧ c ≠ '=') (hfirst : ∀ c ∈ word.head?, c ≠ ',')
    (hsign : sign = '=' ∨ sign = ' ' ∧ word ≠ []) :
    nextWord (word ++ sign :: rest) 0 = some ⟨0, word, some sign⟩ := by
  have hgap : IsGap [] := by simp [IsGap]
  simpa using nextWord_written [] rest hgap hword hfirst hsign

/-- The assignment is found at the place in what the clause says, and the text stands one
character behind its sign. -/
def LocatedAt (line : Line) (leading : Option Form) (place : Nat) (clause : Clause)
    (later : Text) : Prop :=
  ∃ assignment behind sign, Assignment.locate line place leading = .ok assignment ∧
    assignment.Reads clause ∧ assignment.sign = width behind ∧ sign.utf8Size = 1 ∧
    line.text = behind ++ sign :: later

/-- An assignment with a word of its own is found in that word. -/
theorem locatedAt_word (hform : clause.form ∈ Form.under none) (hnamed : clause.IsNamed scope)
    (hcomplete : clause.IsComplete) {gap : Text} (hgap : IsGap gap)
    (htext : line.text = before ++ (gap ++ (clause.word [] ++ '=' :: rest))) :
    LocatedAt line none (width before) clause rest := by
  obtain ⟨hword, hfirst⟩ := mem_word hform hnamed hcomplete
  have hnext := nextWord_written before rest hgap hword hfirst (Or.inl rfl)
  rw [← htext] at hnext
  rw [← List.append_assoc] at htext
  obtain ⟨assignment, hassignment, hreads, hsign⟩ :=
    ofWord_word ⟨_, clause.word [], some '='⟩ hform hnamed hcomplete rfl rfl htext
  refine ⟨assignment, before ++ gap ++ clause.word [], '=', ?_, hreads, ?_, rfl, ?_⟩
  · rw [Assignment.locate, if_neg (by simp), hnext]
    dsimp only
    rw [if_neg (by simp), if_neg (by simp)]
    exact hassignment
  · rw [hsign, Word.stop, ← width_append]
  · rw [htext]
    simp

/-- A boundary condition has no name and follows the separator. -/
theorem locatedAt_boundary (hform : clause.form = .boundary) (hname : clause.name = [])
    {sign : Char} (hsize : sign.utf8Size = 1) (htext : line.text = before ++ sign :: rest) :
    LocatedAt line (some .boundary) (width before) clause rest :=
  ⟨⟨.boundary, [], width before, [], width before⟩, before, sign, if_pos rfl,
    ⟨hform.symm, hname.symm, nofun⟩, rfl, hsize, htext⟩

/-- An assignment with a name behind the separator is found by that name. -/
theorem locatedAt_name (hboundary : clause.form ≠ .boundary) (hfunction : clause.form ≠ .function)
    (hne : clause.name ≠ []) (hname : IsNameText clause.name) {gap : Text} (hgap : IsGap gap)
    {sign : Char} (hsign : sign = if clause.form = .assignments then ' ' else '=')
    (htext : line.text = before ++ (gap ++ (clause.name ++ sign :: rest))) :
    LocatedAt line (some clause.form) (width before) clause rest := by
  have hends : sign = '=' ∨ sign = ' ' ∧ clause.name ≠ [] := by
    by_cases hassignments : clause.form = .assignments <;> simp [hsign, hassignments, hne]
  have hnext := nextWord_written before rest hgap
    (fun c hc => ⟨(ne_of_mem_name hname hc).1, (ne_of_mem_name hname hc).2.1⟩)
    (fun c hc => (ne_of_mem_name hname (List.mem_of_mem_head? hc)).2.2) hends
  rw [← htext] at hnext
  refine ⟨⟨clause.form, clause.name, width (before ++ gap), [],
    width (before ++ gap ++ clause.name)⟩, before ++ gap ++ clause.name, sign, ?_,
    ⟨rfl, rfl, fun hkind => absurd hkind hfunction⟩, rfl, ?_, ?_⟩
  · rw [Assignment.locate, if_neg (by simpa using hboundary), hnext, width_append _ clause.name]
    by_cases hassignments : clause.form = .assignments <;> simp [hassignments, hsign, Word.stop]
  · rcases hends with rfl | ⟨rfl, -⟩ <;> rfl
  · rw [htext]
    simp

/-- An assignment is found behind the separator, and its expression behind one character. -/
theorem locatedAt_written {leading : Option Form} (hform : clause.form ∈ Form.under leading)
    (hnamed : clause.IsNamed scope) (hcomplete : clause.IsComplete) {gap : Text}
    (hgap : IsSeparator leading gap)
    (htext : line.text = before ++ (gap ++ (clause.textWith leading.isSome [] ++ rest))) :
    LocatedAt line leading (width before) clause (clause.source [] ++ rest) := by
  cases leading with
  | none =>
      refine locatedAt_word hform hnamed hcomplete hgap.isGap ?_
      simpa [textWith, opening] using htext
  | some form =>
      obtain rfl : form = clause.form := (Form.mem_under_some_iff.1 hform).1.symm
      have hled : ∀ form ∈ Form.leads, form ≠ .constraint ∧ form ≠ .function := by decide
      obtain ⟨hconstraint, hfunction⟩ := hled _ (Form.mem_under_some_iff.1 hform).2
      by_cases hboundary : clause.form = .boundary
      · rw [IsNamed, hboundary] at hnamed
        obtain ⟨sign, rfl, hsize⟩ : ∃ sign : Char, gap = [sign] ∧ sign.utf8Size = 1 := by
          rcases hgap with ⟨hnone, -⟩ | rfl | rfl
          · contradiction
          · exact ⟨' ', rfl, rfl⟩
          · exact ⟨',', rfl, rfl⟩
        rw [hboundary]
        refine locatedAt_boundary hboundary hnamed hsize ?_
        simpa [textWith, opening, hboundary] using htext
      · obtain ⟨hne, hname⟩ := hnamed.isNameText ⟨hboundary, hconstraint⟩
        refine locatedAt_name hboundary hfunction hne hname hgap.isGap rfl ?_
        have hopening : clause.opening true [] =
            clause.name ++ [if clause.form = .assignments then ' ' else '='] := by
          cases hkind : clause.form <;> simp [opening, hkind]
          exact absurd hkind hboundary
        simpa [textWith, hopening] using htext

/-! ### Definitions of assignments -/

/-- Formal arguments that differ and occur in the body pass the check. -/
theorem checkFormals_eq_ok {body : List Operand} {earlier : List Text}
    {formals : List (Nat × Text)} (hnodup : (earlier.reverse ++ formals.map Prod.snd).Nodup)
    (hbody : ∀ formal ∈ formals.map Prod.snd, ∃ operand ∈ body,
      operand.isNumber = false ∧ operand.text = formal) :
    Assignment.checkFormals line body earlier formals = .ok () := by
  induction formals generalizing earlier with
  | nil => rfl
  | cons first later ih =>
      obtain ⟨column, formal⟩ := first
      rw [List.map_cons] at hnodup hbody
      obtain ⟨⟨operand, hoperand, hname, rfl⟩, hlater⟩ := List.forall_mem_cons.1 hbody
      have hnew : operand.text ∉ earlier := by
        intro hmem
        exact List.disjoint_of_nodup_append hnodup (List.mem_reverse.2 hmem) List.mem_cons_self
      have hused : (body.any fun other => !other.isNumber && other.text == operand.text) = true :=
        List.any_eq_true.2 ⟨operand, hoperand, by simp [hname]⟩
      rw [Assignment.checkFormals, if_neg (by simpa using hnew), if_neg (by simp [hused])]
      exact ih (by simpa using hnodup) hlater

/-- The elements of a list in the expression are read as they are written. -/
theorem exprList_joined (line : Line) (column : Nat) {o c : Char} (ho : isOpening o = true)
    (hc : isClosing c = true) {items : List Text} (hne : items ≠ [])
    (hitems : ∀ item ∈ items, IsItem item) (before after : Text) :
    Assignment.exprList line column (before ++ o :: joined items ++ c :: after) (width before) =
      .ok items := by
  obtain ⟨entries, close, hsplit, rfl⟩ := IsItem.splitList_joined ho hc hne hitems before after
  rw [Assignment.exprList, hsplit]

/-- The expression is taken apart again. -/
theorem contents_source (hcomplete : clause.IsComplete) {assignment : Assignment}
    (hreads : assignment.Reads clause) :
    assignment.contents line (clause.source []) = .ok (clause.expr, clause.args) := by
  unfold Assignment.contents
  rw [hreads.form]
  dsimp only
  cases hkind : clause.form
  case number =>
    rw [IsComplete, hkind] at hcomplete
    obtain ⟨-, hnumeric, hargs⟩ := hcomplete
    dsimp only
    rw [source, hkind, if_pos hnumeric, hargs]
  case function =>
    rw [IsComplete, hkind] at hcomplete
    obtain ⟨-, -, -, hnodup, hargs⟩ := hcomplete
    have hformals := hreads.formals (hreads.form.trans hkind)
    rw [← hformals] at hnodup hargs
    have hcheck := @checkFormals_eq_ok line (operands clause.expr) [] assignment.formals hnodup
      fun formal hformal => (hargs formal hformal).2
    dsimp only
    rw [source, hkind]
    dsimp only
    rw [hcheck, hformals]
    rfl
  case special =>
    rw [IsComplete, hkind] at hcomplete
    obtain ⟨hexpr, hne, hargs⟩ := hcomplete
    have hopen : '(' ∉ clause.expr := fun hmem =>
      ne_of_isNameChar ((isNameText_of_isIdentifier hexpr).2.2 _ hmem) (by decide) rfl
    have hsource : clause.source [] = clause.expr ++ '(' :: joined clause.args ++ [')'] := by
      simp [source, hkind]
    have hfind : find? (clause.source []) 0 '(' = some (width clause.expr) := by
      rw [hsource, List.append_assoc]
      exact (@find?_eq_some_iff [] _ _ _).2 ⟨clause.expr, _, rfl, hopen, rfl⟩
    have hlist := exprList_joined line (assignment.exprColumn line) (o := '(') (c := ')') rfl rfl
      hne hargs clause.expr []
    dsimp only
    rw [hfind]
    dsimp only
    rw [hsource, hlist, List.append_assoc, takeBytes_width_append]
    rfl
  case assignments =>
    rw [IsComplete, hkind] at hcomplete
    obtain ⟨hexpr, hne, hargs⟩ := hcomplete
    have hsource : clause.source [] = '\x7b' :: joined clause.args ++ ['\x7d'] := by
      simp [source, hkind]
    have hlist := exprList_joined line (assignment.exprColumn line) (o := '\x7b') (c := '\x7d')
      rfl rfl hne hargs [] []
    dsimp only
    rw [hsource, hexpr, List.head?_append, List.head?_cons, Option.some_or, if_pos rfl]
    rw [List.nil_append, width_nil] at hlist
    rw [hlist]
    rfl
  all_goals
    rw [IsComplete, hkind] at hcomplete
    dsimp only
    rw [source, hkind, hcomplete.2]

/-- The draft with the definitions of some assignments. -/
def enterAll (number : Nat) (clauses : List Clause) (draft : Draft) : Draft :=
  ⟨draft.symbols.pushAll (clauses.map (entry number)),
    { draft.scope with names := draft.scope.names ++ newNames clauses }⟩

theorem enterAll_append (number : Nat) (clauses later : List Clause) (draft : Draft) :
    enterAll number (clauses ++ later) draft =
      enterAll number later (enterAll number clauses draft) := by
  simp [enterAll, newNames, SymbolTable.pushAll_append]

/-- The name is defined. -/
theorem defineName_written {draft : Draft} (hnamed : clause.IsNamed draft.scope)
    {assignment : Assignment} (hreads : assignment.Reads clause)
    (hform : clause.form ≠ .initial ∧ clause.form ≠ .initialValue) :
    assignment.defineName line draft = .ok ({ draft with scope :=
      { draft.scope with names := draft.scope.names ++ newNames [clause] } }, clause.keptName) := by
  unfold Assignment.defineName
  rw [hreads.form, hreads.name]
  dsimp only
  cases hkind : clause.form
  case initial => exact absurd hkind hform.1
  case initialValue => exact absurd hkind hform.2
  case setting =>
    rw [IsNamed, hkind] at hnamed
    obtain ⟨option, hoption⟩ := Option.isSome_iff_exists.1 hnamed
    dsimp only
    rw [hoption]
    simp [keptName, hkind, hoption, newNames, Form.definesName]
  case boundary | constraint => simp [keptName, hkind, newNames, Form.definesName]
  all_goals
    rw [IsNamed, hkind] at hnamed
    have hdefine : draft.define line clause.name assignment.column = .ok { draft with scope :=
        { draft.scope with names := draft.scope.names ++ [clause.name] } } :=
      Draft.define_eq_ok_iff.2 ⟨_, Scope.define_eq_ok_iff.2 ⟨hnamed, rfl⟩, rfl⟩
    have hidentifier := (Scope.objection?_eq_none_iff.1 hnamed).1
    have hne : clause.name ≠ [] := (isNameText_of_isIdentifier hidentifier).2.1
    dsimp only
    rw [if_neg (by simpa using hne), hdefine]
    simp [keptName, hkind, newNames, Form.definesName]

/-- The assignment makes its definition. -/
theorem record_written (line : Line) {draft : Draft} (hnamed : clause.IsNamed draft.scope)
    (hcomplete : clause.IsComplete) {assignment : Assignment} (hreads : assignment.Reads clause)
    (hform : clause.form ≠ .initial ∧ clause.form ≠ .initialValue) :
    assignment.record line (clause.source []) draft =
      .ok (enterAll line.number [clause] draft) := by
  have hne : clause.source [] ≠ [] := hcomplete.source_spec.1
  rw [Assignment.record, if_neg (by simpa using hne), defineName_written hnamed hreads hform]
  dsimp only [bind, Except.bind]
  rw [contents_source hcomplete hreads, hreads.form]
  rfl

/-! ### Lines of assignments -/

/-- A name that differs from those defined since then is still accepted. -/
theorem IsNamed.extend {names : List Text} (h : clause.IsNamed scope)
    (hform : clause.form ≠ .initial ∧ clause.form ≠ .initialValue)
    (hnew : clause.form.definesName = true → clause.name ∉ names) :
    clause.IsNamed { scope with names := scope.names ++ names } := by
  unfold IsNamed at h ⊢
  split at h
  next => exact h
  next => exact h
  next => exact h
  next hsetting hboundary hconstraint =>
    have hdefines : clause.form.definesName = true := by
      unfold Form.definesName
      split <;> simp_all
    obtain ⟨hidentifier, hunused, hmeaning⟩ := Scope.objection?_eq_none_iff.1 h
    have hname : clause.name ∉ scope.names := by simpa [Scope.isUsed] using hunused
    refine Scope.objection?_eq_none_iff.2 ⟨hidentifier, ?_, hmeaning⟩
    simpa [Scope.isUsed] using ⟨hname, hnew hdefines⟩

/-- The expression ends at the comma behind it. -/
theorem nextExpression_written (before : Text) (hcomplete : clause.IsComplete) {sign : Char}
    (hsign : sign.utf8Size = 1) (hrest : ∀ c ∈ rest.head?, c = ',') :
    nextExpression (before ++ sign :: (clause.source [] ++ rest)) (width before) =
      (clause.source [], if rest = [] then none
        else some (width (before ++ sign :: clause.source []))) := by
  obtain ⟨-, hblank, hnested⟩ := hcomplete.source_spec
  have hspan : spanToComma 0 rest = ([], rest) := by
    cases rest with
    | nil => rfl
    | cons c rest =>
        obtain rfl : c = ',' := hrest c rfl
        rfl
  rw [nextExpression_eq hsign, hnested.spanToComma_append 0 (fun _ _ h => h), hspan,
    List.append_nil, withoutBlanks_of_no_blank hblank]
  simp

/-- The first assignment is read, and then the line goes on behind it. -/
theorem recordFrom_step (rest : Text) (fuel : Nat) {leading : Option Form} {draft : Draft}
    (hform : clause.form ∈ Form.under leading) (hcomplete : clause.IsComplete)
    (hnamed : clause.IsNamed draft.scope) {gap : Text} (hgap : IsSeparator leading gap)
    (hrest : ∀ c ∈ rest.head?, c = ',')
    (htext : line.text = before ++ (gap ++ (clause.textWith leading.isSome [] ++ rest))) :
    ∃ place, line.text = place ++ rest ∧
      line.recordFrom leading (fuel + 1) (width before) draft =
        if rest = [] then .ok (enterAll line.number [clause] draft)
        else line.recordFrom leading fuel (width place) (enterAll line.number [clause] draft) := by
  obtain ⟨assignment, behind, sign, hlocate, hreads, hsign, hsize, hbehind⟩ :=
    locatedAt_written hform hnamed hcomplete hgap htext
  have hnext := nextExpression_written behind hcomplete hsize hrest
  rw [← hbehind, ← hsign] at hnext
  have hrecord := record_written line hnamed hcomplete hreads
    (Form.ne_initial_of_mem_under hform)
  refine ⟨behind ++ sign :: clause.source [], by rw [hbehind]; simp, ?_⟩
  rw [Line.recordFrom, hlocate]
  dsimp only [bind, Except.bind]
  rw [hnext]
  dsimp only
  rw [hrecord]
  by_cases hend : rest = []
  · rw [if_pos hend, if_pos hend]
    rfl
  · rw [if_neg hend, if_neg hend]

/-- The assignments of a line are read one after the other. -/
theorem recordFrom_written {leading : Option Form} {clauses : List Clause} (hne : clauses ≠ [])
    {draft : Draft} {fuel : Nat} (hfuel : clauses.length ≤ fuel)
    (hform : ∀ clause ∈ clauses, clause.form ∈ Form.under leading)
    (hcomplete : ∀ clause ∈ clauses, clause.IsComplete)
    (hnamed : ∀ clause ∈ clauses, clause.IsNamed draft.scope) (hnodup : (newNames clauses).Nodup)
    {gap : Text} (hgap : IsSeparator leading gap)
    (htext : line.text =
      before ++ (gap ++ joined (clauses.map (textWith leading.isSome [])))) :
    line.recordFrom leading fuel (width before) draft =
      .ok (enterAll line.number clauses draft) := by
  induction clauses generalizing before gap draft fuel with
  | nil => contradiction
  | cons clause later ih =>
      obtain ⟨hclause, hforms⟩ := List.forall_mem_cons.1 hform
      obtain ⟨hfilled, hcompletes⟩ := List.forall_mem_cons.1 hcomplete
      obtain ⟨hname, hnames⟩ := List.forall_mem_cons.1 hnamed
      obtain ⟨fuel, rfl⟩ : ∃ left, fuel = left + 1 := ⟨fuel - 1, by simp at hfuel; omega⟩
      cases later with
      | nil =>
          obtain ⟨place, -, hstep⟩ := recordFrom_step [] fuel hclause hfilled hname hgap (by simp)
            (by simpa using htext)
          rw [hstep, if_pos rfl]
      | cons next later =>
          obtain ⟨place, hplace, hstep⟩ := recordFrom_step
            (',' :: joined ((next :: later).map (textWith leading.isSome []))) fuel hclause hfilled
            hname hgap (by simp) (by simpa using htext)
          have hsplit : newNames (clause :: next :: later) =
              newNames [clause] ++ newNames (next :: later) := by
            rw [newNames, newNames, newNames, ← List.map_append, ← List.filter_append]
            rfl
          rw [hsplit] at hnodup
          have hnamed : ∀ other ∈ next :: later,
              other.IsNamed (enterAll line.number [clause] draft).scope := by
            intro other hother
            refine (hnames other hother).extend (Form.ne_initial_of_mem_under (hforms other hother))
              fun hdefines hmem => List.disjoint_of_nodup_append hnodup hmem ?_
            exact List.mem_map_of_mem (List.mem_filter.2 ⟨hother, hdefines⟩)
          have hrun := ih (by simp) (by simpa using hfuel) hforms hcompletes hnamed
            hnodup.of_append_right (Or.inr (Or.inr rfl)) hplace
          rw [hstep, if_neg (by simp), hrun, ← enterAll_append]
          rfl

end Clause

namespace Line

variable {line : Line} {leading : Option Form} {clauses : List Clause} {scope : Scope}

/-- The first word of a written line shows the form that leads it. -/
theorem leadingForm_written (hne : clauses ≠ []) (htext : line.text = written leading clauses)
    (hform : ∀ clause ∈ clauses, clause.form ∈ Form.under leading)
    (hcomplete : ∀ clause ∈ clauses, clause.IsComplete)
    (hnamed : ∀ clause ∈ clauses, clause.IsNamed scope) :
    ∃ word, nextWord line.text 0 = some word ∧ line.leadingForm = .ok (leading, word) ∧
      (leading = none → word.delimiter = some '=') ∧
      ∀ form, leading = some form → word = ⟨0, form.mark, some ' '⟩ := by
  obtain ⟨clause, later, rfl⟩ := List.exists_cons_of_ne_nil hne
  obtain ⟨hclause, -⟩ := List.forall_mem_cons.1 hform
  obtain ⟨hfilled, -⟩ := List.forall_mem_cons.1 hcomplete
  obtain ⟨hname, -⟩ := List.forall_mem_cons.1 hnamed
  cases leading with
  | none =>
      obtain ⟨hword, hfirst⟩ := Clause.mem_word hclause hname hfilled
      obtain ⟨rest, hrest⟩ : ∃ rest, line.text = clause.word [] ++ '=' :: rest := by
        cases later <;> simp [htext, written, Clause.textWith, Clause.opening]
      have hnext := Clause.nextWord_written_first rest hword hfirst (Or.inl rfl)
      rw [← hrest] at hnext
      refine ⟨_, hnext, ?_, fun _ => rfl, nofun⟩
      rw [leadingForm, firstWord, hnext]
      rfl
  | some form =>
      have htable : ∀ form ∈ Form.leads, form.mark ≠ [] ∧ form ≠ .constraint ∧
          Vocabulary.leadingForm? form.mark = some form ∧
            (form.isLeading || form = .constant) = true := by
        decide
      obtain ⟨hmark, hconstraint, hfound, hleads⟩ :=
        htable form (Form.mem_under_some_iff.1 hclause).2
      have hchars : ∀ c ∈ form.mark, c ≠ ' ' ∧ c ≠ '=' ∧ c ≠ ',' := fun c hc =>
        Form.ne_of_mem_mark hconstraint hc
      have hnext := Clause.nextWord_written_first
        (joined ((clause :: later).map (Clause.textWith true [])))
        (fun c hc => ⟨(hchars c hc).1, (hchars c hc).2.1⟩)
        (fun c hc => (hchars c (List.mem_of_mem_head? hc)).2.2) (Or.inr ⟨rfl, hmark⟩)
      have hsplit : line.text = form.mark ++ ' ' :: joined ((clause :: later).map
          (Clause.textWith true [])) := by
        simpa [written] using htext
      rw [← hsplit] at hnext
      refine ⟨_, hnext, ?_, nofun, ?_⟩
      case refine_2 =>
        rintro _ ⟨⟩
        rfl
      rw [leadingForm, firstWord, hnext]
      dsimp only [bind, Except.bind]
      rw [hfound]
      dsimp only
      rw [if_pos (by simpa using hleads)]
      rfl

/-- A written line gives back the definitions that were written. -/
theorem record_written (hne : clauses ≠ []) (htext : line.text = written leading clauses)
    (hform : ∀ clause ∈ clauses, clause.form ∈ Form.under leading)
    (hcomplete : ∀ clause ∈ clauses, clause.IsComplete) {draft : Draft}
    (hnamed : ∀ clause ∈ clauses, clause.IsNamed draft.scope)
    (hnodup : (newNames clauses).Nodup) :
    line.record draft = .ok (Clause.enterAll line.number clauses draft) := by
  obtain ⟨word, -, hleading, -, hword⟩ := leadingForm_written hne htext hform hcomplete hnamed
  have hfuel : clauses.length ≤ line.text.length + 1 := by
    have hlength := length_joined (clauses.map (Clause.textWith leading.isSome []))
    rw [List.length_map] at hlength
    rw [htext]
    unfold written
    rw [List.length_append]
    omega
  rw [record, hleading]
  dsimp only [bind, Except.bind]
  cases leading with
  | none =>
      have hstart : line.text = [] ++ ([] ++ joined (clauses.map (Clause.textWith false []))) := by
        rw [htext, written, List.nil_append]
        rfl
      exact Clause.recordFrom_written hne hfuel hform hcomplete hnamed hnodup
        (Or.inl ⟨rfl, rfl⟩) hstart
  | some form =>
      have hstart : line.text =
          form.mark ++ ([' '] ++ joined (clauses.map (Clause.textWith true []))) := by
        rw [htext, written, List.append_assoc]
        rfl
      have hstop : word.stop = Text.width form.mark := by
        rw [hword form rfl, Word.stop, Nat.zero_add]
      rw [hstop]
      exact Clause.recordFrom_written hne hfuel hform hcomplete hnamed hnodup
        (Or.inr (Or.inl rfl)) hstart

/-- A written line of assignments is no block statement. -/
theorem leadingWord?_written (hne : clauses ≠ []) (htext : line.text = written leading clauses)
    (hform : ∀ clause ∈ clauses, clause.form ∈ Form.under leading)
    (hcomplete : ∀ clause ∈ clauses, clause.IsComplete)
    (hnamed : ∀ clause ∈ clauses, clause.IsNamed scope) :
    ∀ keyword ∈ Vocabulary.blocks, line.leadingWord? ≠ some keyword := by
  obtain ⟨word, hnext, -, hends, hword⟩ := leadingForm_written hne htext hform hcomplete hnamed
  rw [leadingWord?, hnext]
  cases leading with
  | none =>
      dsimp only
      rw [if_neg (by simp [hends rfl])]
      simp
  | some form =>
      have htable : ∀ form ∈ Form.leads, ∀ keyword ∈ Vocabulary.blocks, form.mark ≠ keyword := by
        decide
      obtain ⟨clause, later, rfl⟩ := List.exists_cons_of_ne_nil hne
      have hleads := (Form.mem_under_some_iff.1 (hform clause List.mem_cons_self)).2
      intro keyword hkeyword
      rw [hword form rfl]
      simpa using htable form hleads keyword hkeyword

/-- A line that is no block statement is read on its own. -/
theorem ofLines_singleton (h : ∀ keyword ∈ Vocabulary.blocks, line.leadingWord? ≠ some keyword)
    (settings : Settings) (files : FileReader) :
    Draft.ofLines settings files [line] = line.record (Draft.empty settings) := by
  have hblock : ∀ keyword ∈ Vocabulary.blocks, ∀ (reader : Draft.BlockReader) (draft : Draft),
      Draft.readBlocks keyword reader 0 [line] draft = .ok (draft, [line]) := by
    intro keyword hkeyword reader draft
    simp [Draft.readBlocks, h keyword hkeyword]
  have hall : ∀ draft : Draft, Draft.recordAll [line] draft = line.record draft := by
    intro draft
    rw [Draft.recordAll]
    cases line.record draft <;> rfl
  unfold Draft.ofLines
  simp only [hblock "export".toList (by decide), hblock "markov".toList (by decide),
    hblock "table".toList (by decide), hblock "wiener".toList (by decide),
    hblock "global".toList (by decide), bind, Except.bind, hall]

end Line

/-- A line of assignments in writing is decoded: it makes as many definitions, in their order,
each in the category of its form and with its name, its expression and its arguments. An
option gets its canonical name, and every other name becomes one of the scope. A model that
has no other statement consists of just these definitions. -/
theorem Draft.decodes_written {leading : Option Form} {clauses : List Clause} {line : Line}
    {draft : Draft} (hne : clauses ≠ []) (htext : line.text = written leading clauses)
    (hclauses : ∀ clause ∈ clauses, clause.form ∈ Form.under leading ∧ clause.IsComplete ∧
      clause.IsNamed draft.scope)
    (hnodup : (newNames clauses).Nodup) :
    line.record draft = .ok ⟨draft.symbols.pushAll (clauses.map (Clause.entry line.number)),
        { draft.scope with names := draft.scope.names ++ newNames clauses }⟩ ∧
      ∀ settings files, ofLines settings files [line] = line.record (empty settings) ∧
        ∀ name input, Line.prepare name settings.arrayVariable input = .ok [line] →
          ofInput settings files name input = line.record (empty settings) := by
  have hform := fun clause hmem => (hclauses clause hmem).1
  have hcomplete := fun clause hmem => (hclauses clause hmem).2.1
  have hnamed := fun clause hmem => (hclauses clause hmem).2.2
  have hblocks := Line.leadingWord?_written hne htext hform hcomplete hnamed
  refine ⟨Line.record_written hne htext hform hcomplete hnamed hnodup, fun settings files => ?_⟩
  have hlines := Line.ofLines_singleton hblocks settings files
  refine ⟨hlines, fun name input hprepare => ?_⟩
  rw [ofInput, hprepare]
  exact hlines

/-- A name may hold the marks of other forms, and an expression may hold commas in brackets. -/
theorem Draft.decodes_written_mixed :
    ∃ recorded, (⟨3, ("par1(t+1)=par1/(1+t),dvolt2/dt=sin([1,2],\x7b3\x7d)," ++
        "f0(a,b)=f(b,a(0)),@dtmaX=1,0=x-y,d=2").toList⟩ : Line).record (Draft.empty { }) =
          .ok recorded ∧
      recorded.symbols = SymbolTable.empty.pushAll
        [(.equations, ⟨3, "par1".toList, "par1/(1+t)".toList, []⟩),
          (.equations, ⟨3, "volt2".toList, "sin([1,2],\x7b3\x7d)".toList, []⟩),
          (.functions, ⟨3, "f0".toList, "f(b,a(0))".toList, [['a'], ['b']]⟩),
          (.options, ⟨3, "DTMAX".toList, ['1'], []⟩),
          (.algebraic, ⟨3, [], "x-y".toList, []⟩),
          (.temporaries, ⟨3, ['d'], ['2'], []⟩)] ∧
      recorded.scope.names = ["par1", "volt2", "f0", "d"].map String.toList := by
  obtain ⟨hrecord, -⟩ := @decodes_written none
    [⟨.difference, "par1".toList, "par1/(1+t)".toList, []⟩,
      ⟨.derivative, "volt2".toList, "sin([1,2],\x7b3\x7d)".toList, []⟩,
      ⟨.function, "f0".toList, "f(b,a(0))".toList, [['a'], ['b']]⟩,
      ⟨.setting, "dtmaX".toList, ['1'], []⟩, ⟨.constraint, [], "x-y".toList, []⟩,
      ⟨.temporary, ['d'], ['2'], []⟩]
    ⟨3, ("par1(t+1)=par1/(1+t),dvolt2/dt=sin([1,2],\x7b3\x7d)," ++
      "f0(a,b)=f(b,a(0)),@dtmaX=1,0=x-y,d=2").toList⟩
    (Draft.empty { }) (by decide) (by decide +kernel) (by decide +kernel) (by decide +kernel)
  exact ⟨_, hrecord, congrArg SymbolTable.empty.pushAll (by decide +kernel), by decide +kernel⟩

end OdeModel
