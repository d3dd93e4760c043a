import OdeModel.Proofs.Inlining.Atomic

/-!
# Putting expressions into phrases

The value of a phrase depends on the runs of its text only, and expressions are put in
the places of its names by changing these runs.
-/

namespace OdeModel

theorem Text.not_digits_of_isIdentifier {s : Text} (h : isIdentifier s = true) :
    ¬ ∀ c ∈ s, c.isDigit = true := by
  intro hdigits
  have hstart := (isNameText_of_isIdentifier h).1
  cases s with
  | nil => contradiction
  | cons c s =>
      have hfigure := not_figure_of_isNameStart hstart
      rw [hdigits c List.mem_cons_self] at hfigure
      contradiction

theorem Symbol.ne_nil (word : Symbol) : word.text ≠ [] := by
  intro hnil
  have hstart := word.start
  rw [hnil] at hstart
  contradiction

namespace Phrase

theorem isNameChar_termOperator (minus : Bool) :
    isNameChar (termOperator minus).sign = false := by
  cases minus <;> decide

theorem isNameChar_factorOperator (divide : Bool) :
    isNameChar (factorOperator divide).sign = false := by
  cases divide <;> decide

/-! ### Runs -/

theorem runs_word (word : Symbol) : Text.runs word.text = [word.text] :=
  Text.runs_of_isNameText word.isNameText word.ne_nil

theorem runs_powerSign (stars : Bool) (left right : Text) :
    Text.runs (left ++ powerSign stars ++ right) = Text.runs left ++ Text.runs right := by
  have hstar : isNameChar '*' = false := by decide
  have hcaret : isNameChar '^' = false := by decide
  rw [List.append_assoc]
  cases stars with
  | false => exact Text.runs_append_cons hcaret left right
  | true =>
      change Text.runs (left ++ '*' :: '*' :: right) = _
      rw [Text.runs_append_cons hstar, Text.runs_cons hstar]

/-- The runs of a literal are digits. -/
theorem isDigit_of_mem_runs {numeral : Numeral} {run : Text}
    (hrun : run ∈ Text.runs numeral.text) : ∀ c ∈ run, c.isDigit = true := by
  intro c hc
  obtain ⟨before, after, htext, -⟩ := Text.mem_runs_iff.1 hrun
  have hfigure := numeral.figures c (by simp [htext, hc])
  rw [Bool.or_eq_true, beq_iff_eq] at hfigure
  rcases hfigure with hdigit | rfl
  · exact hdigit
  · have hname := (Text.isNameText_of_mem_runs hrun).2 _ hc
    exact absurd hname (by decide)

/-- The names that a phrase reads are runs of its text. -/
theorem freeNames_subset_runs {level : Level} (phrase : Phrase level) :
    phrase.freeNames ⊆ Text.runs phrase.text := by
  have hopen : isNameChar '(' = false := by decide
  have hclose : isNameChar ')' = false := by decide
  have hcomma : isNameChar ',' = false := by decide
  induction phrase with
  | literal numeral => exact List.nil_subset _
  | name word => simp [freeNames, text, runs_word]
  | group inner ih =>
      rw [text, Text.runs_concat hclose, Text.runs_cons hopen]
      exact ih
  | call function arguments ih =>
      rw [text, Text.runs_concat hclose, Text.runs_append_cons hopen]
      exact List.subset_append_of_subset_right _ ih
  | base operand ih => exact ih
  | power stars left right ihl ihr =>
      rw [text, runs_powerSign]
      exact List.append_subset.2 ⟨List.subset_append_of_subset_left _ ihl,
        List.subset_append_of_subset_right _ ihr⟩
  | unsigned operand ih => exact ih
  | sign minus operand ih =>
      rw [text, Text.runs_cons (isNameChar_termOperator minus)]
      exact ih
  | factor signed ih => exact ih
  | times divide left right ihl ihr =>
      rw [text, Text.runs_append_cons (isNameChar_factorOperator divide)]
      exact List.append_subset.2 ⟨List.subset_append_of_subset_left _ ihl,
        List.subset_append_of_subset_right _ ihr⟩
  | term product ih => exact ih
  | plus minus left right ihl ihr =>
      rw [text, Text.runs_append_cons (isNameChar_termOperator minus)]
      exact List.append_subset.2 ⟨List.subset_append_of_subset_left _ ihl,
        List.subset_append_of_subset_right _ ihr⟩
  | last argument ih => exact ih
  | more argument later iha ihl =>
      rw [text, Text.runs_append_cons hcomma]
      exact List.append_subset.2 ⟨List.subset_append_of_subset_left _ iha,
        List.subset_append_of_subset_right _ ihl⟩

/-! ### Putting in expressions -/

variable {standIn : Text → Option (Phrase .sum)}

/-- What is written in the place of a name. -/
def written (standIn : Text → Option (Phrase .sum)) (name : Text) : Text :=
  match standIn name with
  | none => name
  | some phrase => phrase.asOperand.text

theorem mapRuns_powerSign (change : Text → Text) (stars : Bool) (left right : Text) :
    Text.mapRuns change (left ++ powerSign stars ++ right) =
      Text.mapRuns change left ++ powerSign stars ++ Text.mapRuns change right := by
  have hstar : isNameChar '*' = false := by decide
  have hcaret : isNameChar '^' = false := by decide
  rw [List.append_assoc, List.append_assoc]
  cases stars with
  | false => exact Text.mapRuns_append_cons change hcaret left right
  | true =>
      change Text.mapRuns change (left ++ '*' :: '*' :: right) = _
      rw [Text.mapRuns_append_cons change hstar, Text.mapRuns_cons change hstar]
      rfl

/-- Putting expressions in the places of names changes the runs of the text, unless a
number or a called function has the text of such a name. -/
theorem text_subst {level : Level} (phrase : Phrase level)
    (hdigits : ∀ run, (∀ c ∈ run, c.isDigit = true) → standIn run = none)
    (hcallees : ∀ function ∈ phrase.callees, standIn function = none) :
    (phrase.subst standIn).text = Text.mapRuns (written standIn) phrase.text := by
  have hopen : isNameChar '(' = false := by decide
  have hclose : isNameChar ')' = false := by decide
  have hcomma : isNameChar ',' = false := by decide
  have hword : ∀ word : Symbol,
      Text.mapRuns (written standIn) word.text = written standIn word.text := fun word =>
    Text.mapRuns_of_isNameText _ word.isNameText word.ne_nil
  -- at every operator the text falls apart into the parts of the phrase
  induction phrase with
  | literal numeral =>
      symm
      apply Text.mapRuns_eq_self
      intro run hrun
      rw [written, hdigits run (isDigit_of_mem_runs hrun)]
  | name word =>
      rw [subst, text, hword, written]
      cases standIn word.text <;> rfl
  | group inner ih =>
      rw [subst, text, text, Text.mapRuns_concat _ hclose, Text.mapRuns_cons _ hopen,
        ih hcallees]
  | call function arguments ih =>
      obtain ⟨hfunction, harguments⟩ := List.forall_mem_cons.1 hcallees
      rw [subst, text, text, Text.mapRuns_concat _ hclose, Text.mapRuns_append_cons _ hopen,
        hword, written, hfunction, ih harguments]
  | base operand ih => exact ih hcallees
  | power stars left right ihl ihr =>
      obtain ⟨hleft, hright⟩ := List.forall_mem_append.1 hcallees
      rw [subst, text, text, mapRuns_powerSign, ihl hleft, ihr hright]
  | unsigned operand ih => exact ih hcallees
  | sign minus operand ih =>
      rw [subst, text, text, Text.mapRuns_cons _ (isNameChar_termOperator minus), ih hcallees]
  | factor signed ih => exact ih hcallees
  | times divide left right ihl ihr =>
      obtain ⟨hleft, hright⟩ := List.forall_mem_append.1 hcallees
      rw [subst, text, text, Text.mapRuns_append_cons _ (isNameChar_factorOperator divide),
        ihl hleft, ihr hright]
  | term product ih => exact ih hcallees
  | plus minus left right ihl ihr =>
      obtain ⟨hleft, hright⟩ := List.forall_mem_append.1 hcallees
      rw [subst, text, text, Text.mapRuns_append_cons _ (isNameChar_termOperator minus),
        ihl hleft, ihr hright]
  | last argument ih => exact ih hcallees
  | more argument later iha ihl =>
      obtain ⟨hargument, hlater⟩ := List.forall_mem_append.1 hcallees
      rw [subst, text, text, Text.mapRuns_append_cons _ hcomma, iha hargument, ihl hlater]

theorem callees_asOperand (phrase : Phrase .sum) : phrase.asOperand.callees = phrase.callees := by
  unfold asOperand
  split
  next =>
    cases h : phrase.operand? with
    | none => rfl
    | some operand =>
        rw [eq_of_operand?_eq_some h]
        rfl
  next => rfl

/-- The functions that are called after expressions have been put in. -/
theorem mem_callees_subst {level : Level} (phrase : Phrase level) {function : Text}
    (h : function ∈ (phrase.subst standIn).callees) :
    function ∈ phrase.callees ∨
      ∃ name expr, standIn name = some expr ∧ function ∈ expr.callees := by
  have hboth : ∀ {first second : List Text} {p q r : Prop}, (function ∈ first → p ∨ r) →
      (function ∈ second → q ∨ r) → function ∈ first ++ second → (p ∨ q) ∨ r := by
    intro first second p q r hfirst hsecond hmem
    rcases List.mem_append.1 hmem with hmem | hmem
    · exact (hfirst hmem).imp_left Or.inl
    · exact (hsecond hmem).imp_left Or.inr
  induction phrase with
  | literal numeral => exact Or.inl h
  | name word =>
      rw [subst] at h
      split at h
      next => exact Or.inl h
      next expr hexpr =>
        rw [callees_asOperand] at h
        exact Or.inr ⟨word.text, expr, hexpr, h⟩
  | group inner ih => exact ih h
  | call called arguments ih =>
      rcases List.mem_cons.1 h with rfl | h
      · exact Or.inl List.mem_cons_self
      · exact (ih h).imp_left (List.mem_cons_of_mem _)
  | base operand ih => exact ih h
  | power stars left right ihl ihr =>
      rw [callees, List.mem_append]
      exact hboth ihl ihr h
  | unsigned operand ih => exact ih h
  | sign minus operand ih => exact ih h
  | factor signed ih => exact ih h
  | times divide left right ihl ihr =>
      rw [callees, List.mem_append]
      exact hboth ihl ihr h
  | term product ih => exact ih h
  | plus minus left right ihl ihr =>
      rw [callees, List.mem_append]
      exact hboth ihl ihr h
  | last argument ih => exact ih h
  | more argument later iha ihl =>
      rw [callees, List.mem_append]
      exact hboth iha ihl h

end Phrase

end OdeModel
