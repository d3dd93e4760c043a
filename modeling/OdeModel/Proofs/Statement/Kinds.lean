import OdeModel.Proofs.Statement.Made

/-!
# Kinds of the assignments of a line

A leading word gives its form to all assignments of the line. The assignments of a line
without one are read each by itself: an assignment goes to the category of the mark in the
word before its own equals sign, whatever the first one was.
-/

namespace OdeModel

/-- The form of an assignment of a line without a leading word: that of the mark in the
word before its equals sign. -/
def Form.ofHead (head : Text) : Form := ((Form.ofWord? head).map Prod.fst).getD .temporary

theorem Assignment.ofWord_spec {line : Line} {word : Word} {assignment : Assignment}
    (h : ofWord line word = .ok assignment) :
    assignment.form = Form.ofHead word.text ∧ assignment.sign = word.stop := by
  unfold ofWord at h
  unfold Form.ofHead
  split at h
  next hword =>
    cases h
    rw [hword]
    exact ⟨rfl, rfl⟩
  next form found hword =>
    rw [hword]
    split at h
    case h_5 =>
      obtain ⟨formals, -, h⟩ := bind_eq_ok_iff.1 h
      cases h
      exact ⟨rfl, rfl⟩
    all_goals
      cases h
      exact ⟨rfl, rfl⟩

/-- Without a leading word the form is that of the next word, which ends at an equals sign. -/
theorem Assignment.locate_none_spec {line : Line} {column : Nat} {assignment : Assignment}
    (h : locate line column none = .ok assignment) :
    ∃ word, Text.nextWord line.text column = some word ∧
      assignment.form = Form.ofHead word.text ∧ assignment.sign = word.stop := by
  unfold locate at h
  rw [if_neg (by decide)] at h
  split at h
  next => contradiction
  next word hword =>
    rw [if_neg (by decide)] at h
    split at h
    next => contradiction
    next => exact ⟨word, hword, ofWord_spec h⟩

theorem Assignment.locate_some_spec {line : Line} {column : Nat} {form : Form}
    {assignment : Assignment} (h : locate line column (some form) = .ok assignment) :
    assignment.form = form := by
  unfold locate at h
  split at h
  next hboundary =>
    cases h
    exact (Option.some.inj hboundary).symm
  next =>
    split at h
    next => contradiction
    next =>
      split at h
      next hassignments =>
        split at h
        next =>
          cases h
          exact (Option.some.inj hassignments).symm
        next => contradiction
      next =>
        split at h
        next => contradiction
        next =>
          cases h
          rfl

namespace Line

/-- The words before the equals signs of the assignments from a column on. -/
def headsFrom (line : Line) : (fuel column : Nat) → List Text
  | 0, _ => []
  | fuel + 1, column =>
      match Text.nextWord line.text column with
      | none => []
      | some word =>
          match Text.nextExpression line.text word.stop with
          | (_, some comma) => word.text :: line.headsFrom fuel comma
          | (_, none) => [word.text]

/-- The words before the equals signs of the assignments of a line without a leading word. -/
def heads (line : Line) : List Text := line.headsFrom (line.text.length + 1) 0

variable {line : Line} {leading : Option Form} {draft recorded : Draft}

/-- A line with a leading word makes definitions of one category, and a line without one
makes a definition for each of its heads, in the category of that head. -/
theorem recordFrom_categories {fuel column : Nat}
    (h : line.recordFrom leading fuel column draft = .ok recorded) :
    ∃ made : List (Category × Definition),
      (0 < fuel → made ≠ []) ∧ (∀ entry ∈ made, entry.2.line = line.number) ∧
      recorded.symbols = draft.symbols.pushAll made ∧
      (∀ form, leading = some form → ∀ entry ∈ made, entry.1 = form.category) ∧
      (leading = none → made.map Prod.fst =
        (line.headsFrom fuel column).map fun head => (Form.ofHead head).category) := by
  induction fuel generalizing column draft with
  | zero =>
      cases h
      exact ⟨[], by simp, by simp, rfl, by simp, fun _ => rfl⟩
  | succ fuel ih =>
      unfold recordFrom at h
      obtain ⟨assignment, hlocate, h⟩ := bind_eq_ok_iff.1 h
      obtain ⟨⟨expr, comma⟩, hexpr⟩ :
          ∃ next, Text.nextExpression line.text assignment.sign = next := ⟨_, rfl⟩
      rw [hexpr] at h
      obtain ⟨entered, hentered, h⟩ := bind_eq_ok_iff.1 h
      obtain ⟨definition, hline, hsymbols⟩ := Assignment.record_spec hentered
      have hform : ∀ form, leading = some form → assignment.form = form := by
        rintro form rfl
        exact Assignment.locate_some_spec hlocate
      have hhead : leading = none → ∃ word, Text.nextWord line.text column = some word ∧
          assignment.form = Form.ofHead word.text ∧ assignment.sign = word.stop := by
        rintro rfl
        exact Assignment.locate_none_spec hlocate
      cases comma with
      | some comma =>
          obtain ⟨made, -, hnumbered, hlater, hled, hheads⟩ := ih h
          refine ⟨(assignment.form.category, definition) :: made, by simp,
            List.forall_mem_cons.2 ⟨hline, hnumbered⟩, ?_, ?_, fun hnone => ?_⟩
          · rw [hlater, hsymbols]
            rfl
          · exact fun form hsome => List.forall_mem_cons.2
              ⟨congrArg Form.category (hform form hsome), hled form hsome⟩
          · obtain ⟨word, hword, hown, hsign⟩ := hhead hnone
            rw [hsign] at hexpr
            simp only [headsFrom, hword, hexpr, List.map_cons, hown, hheads hnone]
      | none =>
          cases h
          refine ⟨[(assignment.form.category, definition)], by simp, by simpa using hline,
            hsymbols, ?_, fun hnone => ?_⟩
          · intro form hsome
            simpa using congrArg Form.category (hform form hsome)
          · obtain ⟨word, hword, hown, hsign⟩ := hhead hnone
            rw [hsign] at hexpr
            simp only [headsFrom, hword, hexpr, List.map_cons, List.map_nil, hown]

/-- The definitions that a line makes are all in one category just when a word leads the
line, or the marks in all of its heads stand for the same category. The category of each is
then that of the leading word, or else that of the mark in its own head. -/
theorem record_oneCategory_iff (h : line.record draft = .ok recorded) :
    ∃ (leading : Option Form) (first : Word) (made : List (Category × Definition)),
      line.leadingForm = .ok (leading, first) ∧ made ≠ [] ∧
      (∀ entry ∈ made, entry.2.line = line.number) ∧
      recorded.symbols = draft.symbols.pushAll made ∧
      (∀ form, leading = some form → ∀ entry ∈ made, entry.1 = form.category) ∧
      (leading = none → made.map Prod.fst =
        line.heads.map fun head => (Form.ofHead head).category) ∧
      ((∃ category, ∀ entry ∈ made, entry.1 = category) ↔ leading.isSome = true ∨
        ∃ category, ∀ head ∈ line.heads, (Form.ofHead head).category = category) := by
  unfold record at h
  obtain ⟨⟨leading, first⟩, hleadingForm, h⟩ := bind_eq_ok_iff.1 h
  obtain ⟨made, hne, hnumbered, hsymbols, hled, howned⟩ := recordFrom_categories h
  have hheads : leading = none → made.map Prod.fst =
      line.heads.map fun head => (Form.ofHead head).category := by
    rintro rfl
    exact howned rfl
  refine ⟨leading, first, made, hleadingForm, hne (Nat.succ_pos _), hnumbered, hsymbols, hled,
    hheads, ?_⟩
  cases leading with
  | some form => exact iff_of_true ⟨form.category, hled form rfl⟩ (Or.inl rfl)
  | none =>
      have hsame : ∀ category, (∀ entry ∈ made, entry.1 = category) ↔
          ∀ head ∈ line.heads, (Form.ofHead head).category = category := by
        intro category
        have hmap := hheads rfl
        rw [← List.forall_mem_map (f := Prod.fst) (P := fun other => other = category), hmap,
          List.forall_mem_map]
      simp only [hsame, Option.isSome_none, Bool.false_eq_true, false_or]

/-- Three ways to write an equation, on one line. -/
theorem record_oneCategory_equations :
    ∃ (recorded : Draft) (made : List (Category × Definition)),
      (⟨1, "x'=-x,dy/dt=x,z(t+1)=0".toList⟩ : Line).record (Draft.empty { }) = .ok recorded ∧
      recorded.symbols = SymbolTable.empty.pushAll made ∧
      made.map Prod.fst = [.equations, .equations, .equations] ∧
      ∃ category, ∀ entry ∈ made, entry.1 = category := by
  have hrun : ((⟨1, "x'=-x,dy/dt=x,z(t+1)=0".toList⟩ : Line).record (Draft.empty { })).map
      (fun _ => ()) = .ok () := by
    decide +kernel
  obtain ⟨recorded, hrecord, -⟩ := map_eq_ok_iff.1 hrun
  obtain ⟨leading, first, made, hleading, -, -, hsymbols, -, hheads, hiff⟩ :=
    record_oneCategory_iff hrecord
  have hnone : leading = none := by
    have hform : (⟨1, "x'=-x,dy/dt=x,z(t+1)=0".toList⟩ : Line).leadingForm.map Prod.fst =
        .ok none := by
      decide +kernel
    rw [hleading] at hform
    exact Except.ok.inj hform
  refine ⟨recorded, made, hrecord, hsymbols, ?_, hiff.2 (Or.inr ⟨.equations, by decide +kernel⟩)⟩
  rw [hheads hnone]
  decide +kernel

/-- A definition behind a comma need not be of the kind that the line starts with: without a
mark of its own it is a temporary, even beside a constant. -/
theorem record_mixed_categories :
    ∃ recorded : Draft,
      (⟨1, "!a=1,b=2".toList⟩ : Line).record (Draft.empty { }) = .ok recorded ∧
      recorded.symbols.get .constants = [⟨1, "a".toList, "1".toList, []⟩] ∧
      recorded.symbols.get .temporaries = [⟨1, "b".toList, "2".toList, []⟩] ∧
      ¬ ∃ (made : List (Category × Definition)) (category : Category),
        recorded.symbols = SymbolTable.empty.pushAll made ∧
          ∀ entry ∈ made, entry.1 = category := by
  have hrun : ((⟨1, "!a=1,b=2".toList⟩ : Line).record (Draft.empty { })).map (fun recorded =>
        (recorded.symbols.get .constants, recorded.symbols.get .temporaries)) =
      .ok ([⟨1, "a".toList, "1".toList, []⟩], [⟨1, "b".toList, "2".toList, []⟩]) := by
    decide +kernel
  obtain ⟨recorded, hrecord, hpair⟩ := map_eq_ok_iff.1 hrun
  obtain ⟨hconstants, htemporaries⟩ := Prod.mk.inj hpair
  refine ⟨recorded, hrecord, hconstants, htemporaries, ?_⟩
  rintro ⟨made, category, hsymbols, hsame⟩
  have hempty : ∀ other, other ≠ category → recorded.symbols.get other = [] := by
    intro other hother
    have hnone : made.filter (fun entry => entry.1 = other) = [] := by
      refine List.filter_eq_nil_iff.2 fun entry hentry => ?_
      simpa [hsame entry hentry] using hother.symm
    rw [hsymbols, SymbolTable.get_pushAll, hnone, SymbolTable.get_empty]
    rfl
  by_cases hcategory : category = .constants
  · have hnone := hempty .temporaries (by rw [hcategory]; decide)
    exact List.cons_ne_nil _ _ (htemporaries.symm.trans hnone)
  · have hnone := hempty .constants (Ne.symm hcategory)
    exact List.cons_ne_nil _ _ (hconstants.symm.trans hnone)

end Line

end OdeModel
