import OdeModel.Proofs.Arithmetic.Lexing
import OdeModel.Proofs.Text.Balanced

/-!
# Atomic expressions are operands

What is put into an expression without parentheses is an operand there. An expression
that is more than an operand starts with a sign, or an operand with an operator behind
it, and neither passes for a name, a number or a call.
-/

namespace OdeModel

namespace Decimal

variable {figures : Text} {c : Char}

theorem dropWhile_figures_append (hc : isSeparator c = true) (rest : Text) :
    (figures ++ c :: rest).dropWhile Char.isDigit =
      figures.dropWhile Char.isDigit ++ c :: rest := by
  obtain ⟨hfigure, -⟩ := not_mem_of_isSeparator hc
  have hdigit : ¬ c.isDigit = true := by simp [(Bool.or_eq_false_iff.1 hfigure).1]
  rw [List.dropWhile_append, List.dropWhile_cons_of_neg hdigit]
  split
  next hempty => rw [List.isEmpty_iff.1 hempty, List.nil_append]
  next => rfl

/-- No exponent starts with a figure or a separator. -/
theorem readExponent?_figures_append
    (hfigures : ∀ d ∈ figures, (d.isDigit || d == '.') = true) (hc : isSeparator c = true)
    (rest : Text) : readExponent? (figures ++ c :: rest) = none := by
  have hfirst : ∀ d later, (d == 'e' || d == 'E') = false → readExponent? (d :: later) = none := by
    intro d later hd
    rw [readExponent?, hd]
    rfl
  cases figures with
  | nil =>
      apply hfirst
      rcases isSeparator_cases hc with rfl | rfl | rfl | rfl | rfl | rfl | rfl | rfl <;> rfl
  | cons d figures =>
      apply hfirst
      have hd := hfigures d List.mem_cons_self
      rw [Bool.eq_false_iff]
      intro hmark
      simp only [Bool.or_eq_true, beq_iff_eq] at hmark
      rcases hmark with rfl | rfl <;> revert hd <;> decide

/-- Figures with an operator behind them are no number. -/
theorem read?_figures_append (hfigures : ∀ d ∈ figures, (d.isDigit || d == '.') = true)
    (hc : isSeparator c = true) (rest : Text) : read? (figures ++ c :: rest) = none := by
  have hlater : ∀ d ∈ figures.dropWhile Char.isDigit, (d.isDigit || d == '.') = true :=
    fun d hd => hfigures d ((List.dropWhile_sublist _).subset hd)
  unfold read?
  rw [dropWhile_figures_append hc]
  split
  next fraction heq =>
    have hfraction : ∃ figures' : Text, fraction = figures' ++ c :: rest ∧
        ∀ d ∈ figures', (d.isDigit || d == '.') = true := by
      cases hdrop : figures.dropWhile Char.isDigit with
      | nil =>
          rw [hdrop, List.nil_append] at heq
          rw [(List.cons.inj heq).1] at hc
          contradiction
      | cons d figures' =>
          rw [hdrop, List.cons_append] at heq
          exact ⟨figures', (List.cons.inj heq).2.symm,
            fun e he => hlater e (hdrop ▸ List.mem_cons_of_mem _ he)⟩
    obtain ⟨figures', rfl, hfigures'⟩ := hfraction
    have hexponent :
        readExponent? (figures'.dropWhile Char.isDigit ++ c :: rest) = none :=
      readExponent?_figures_append
        (fun d hd => hfigures' d ((List.dropWhile_sublist _).subset hd)) hc rest
    rw [readFraction?, dropWhile_figures_append hc, hexponent]
    rfl
  next =>
    rw [readExponent?_figures_append hlater hc]
    rfl

end Decimal

namespace Text

theorem isNumeric_cons {c : Char} (hsign : c ≠ '+' ∧ c ≠ '-') (rest : Text) :
    isNumeric (c :: rest) =
      ((Decimal.read? (c :: rest)).isSome && (c.isDigit || c == '.')) := by
  simp [isNumeric, spanSign, hsign]

/-- Figures with an operator behind them do not pass for a number. -/
theorem isNumeric_figures_append {figures : Text}
    (hfigures : ∀ d ∈ figures, (d.isDigit || d == '.') = true) (hne : figures ≠ []) {c : Char}
    (hc : isSeparator c = true) (rest : Text) : isNumeric (figures ++ c :: rest) = false := by
  have hread := Decimal.read?_figures_append hfigures hc rest
  obtain ⟨d, later, rfl⟩ := List.exists_cons_of_ne_nil hne
  have hd := hfigures d List.mem_cons_self
  have hsign : d ≠ '+' ∧ d ≠ '-' := by constructor <;> rintro rfl <;> contradiction
  rw [List.cons_append] at hread ⊢
  rw [isNumeric_cons hsign, hread]
  rfl

/-- What starts like a name or a group does not pass for a number. -/
theorem isNumeric_of_head {c : Char} (hc : isNameStart c = true ∨ c = '(') (rest : Text) :
    isNumeric (c :: rest) = false := by
  have hsign : c ≠ '+' ∧ c ≠ '-' := by
    constructor <;> rintro rfl <;> revert hc <;> decide
  have hfigure : (c.isDigit || c == '.') = false := by
    rcases hc with hc | rfl
    · exact not_figure_of_isNameStart hc
    · rfl
  rw [isNumeric_cons hsign, hfigure, Bool.and_false]

end Text

namespace Phrase

/-- Brackets in a phrase are closed. -/
theorem balanced_text {level : Level} (phrase : Phrase level) : Text.Balanced phrase.text := by
  have hname : ∀ word : Symbol, Text.Balanced word.text := fun word =>
    Text.Balanced.of_forall fun c hc => not_bracket (Or.inr (word.isNameText c hc))
  induction phrase with
  | literal numeral =>
      exact Text.Balanced.of_forall fun c hc => not_bracket (Or.inl (numeral.figures c hc))
  | name word => exact hname word
  | group inner ih => exact ih.bracketed rfl rfl rfl
  | call function arguments ih =>
      rw [text, List.append_assoc]
      exact (hname function).append (ih.bracketed rfl rfl rfl)
  | base operand ih => exact ih
  | power stars left right ihl ihr =>
      rw [text, List.append_assoc]
      cases stars with
      | false => exact ihl.append (ihr.cons rfl rfl)
      | true => exact ihl.append ((ihr.cons rfl rfl).cons rfl rfl)
  | unsigned operand ih => exact ih
  | sign minus operand ih => cases minus <;> exact ih.cons rfl rfl
  | factor signed ih => exact ih
  | times divide left right ihl ihr => cases divide <;> exact ihl.append (ihr.cons rfl rfl)
  | term product ih => exact ih
  | plus minus left right ihl ihr => cases minus <;> exact ihl.append (ihr.cons rfl rfl)
  | last argument ih => exact ih
  | more argument later iha ihl => exact iha.append (ihl.cons rfl rfl)

/-- The phrase is a single operand, starts with a sign, or starts with an operand that
an operator follows. -/
def Starts {level : Level} (phrase : Phrase level) : Prop :=
  (∃ operand, phrase.operand? = some operand ∧ phrase.text = operand.text) ∨
  (∃ minus rest, phrase.text = (termOperator minus).sign :: rest) ∨
  ∃ (operand : Phrase .operand) (c : Char) (rest : Text), phrase.text = operand.text ++ c :: rest ∧
    isSeparator c = true ∧ c ≠ '('

theorem Starts.append {level level' : Level} {left : Phrase level} {phrase : Phrase level'}
    (h : left.Starts) {c : Char} {rest : Text} (hphrase : phrase.text = left.text ++ c :: rest)
    (hc : isSeparator c = true) (hopen : c ≠ '(') : phrase.Starts := by
  rcases h with ⟨operand, -, htext⟩ | ⟨minus, later, htext⟩ | ⟨operand, d, later, htext, hd⟩
  · exact Or.inr (Or.inr ⟨operand, c, rest, by rw [hphrase, htext], hc, hopen⟩)
  · exact Or.inr (Or.inl ⟨minus, later ++ c :: rest, by rw [hphrase, htext]; rfl⟩)
  · exact Or.inr (Or.inr ⟨operand, d, later ++ c :: rest, by rw [hphrase, htext]; simp, hd⟩)

theorem starts {level : Level} (phrase : Phrase level) (hlevel : level ≠ .arguments) :
    phrase.Starts := by
  induction phrase with
  | literal numeral => exact Or.inl ⟨_, rfl, rfl⟩
  | name word => exact Or.inl ⟨_, rfl, rfl⟩
  | group inner ih => exact Or.inl ⟨_, rfl, rfl⟩
  | call function arguments ih => exact Or.inl ⟨_, rfl, rfl⟩
  | base operand ih => exact ih (by simp)
  | power stars left right ihl ihr =>
      have htext : (power stars left right).text =
          left.text ++ powerSign stars ++ right.text := rfl
      cases stars with
      | false =>
          exact (ihl (by simp)).append (htext.trans (List.append_assoc _ _ _)) rfl (by decide)
      | true =>
          exact (ihl (by simp)).append (htext.trans (List.append_assoc _ _ _)) rfl (by decide)
  | unsigned operand ih => exact ih (by simp)
  | sign minus operand ih => exact Or.inr (Or.inl ⟨minus, operand.text, rfl⟩)
  | factor signed ih => exact ih (by simp)
  | times divide left right ihl ihr =>
      cases divide <;> exact (ihl (by simp)).append rfl rfl (by decide)
  | term product ih => exact ih (by simp)
  | plus minus left right ihl ihr =>
      cases minus <;> exact (ihl (by simp)).append rfl rfl (by decide)
  | last argument ih => contradiction
  | more argument later iha ihl => contradiction

theorem not_isAtomic_sign (minus : Bool) (rest : Text) :
    Text.isAtomic ((termOperator minus).sign :: rest) = false := by
  have hsign : (termOperator minus).sign = '+' ∨ (termOperator minus).sign = '-' := by
    cases minus <;> simp [termOperator, Operator.sign]
  generalize (termOperator minus).sign = c at hsign
  have hname : isNameChar c = false := by rcases hsign with rfl | rfl <;> decide
  have hcall : Text.isCall (c :: rest) = false := by
    rw [Bool.eq_false_iff]
    intro hcall
    obtain ⟨name, rest', hexpr, hletters, -⟩ := Text.exists_of_isCall hcall
    cases name with
    | nil => rcases hsign with rfl | rfl <;> simp at hexpr
    | cons d name =>
        have hd := hletters d List.mem_cons_self
        rw [← (List.cons.inj hexpr).1, hname] at hd
        contradiction
  rcases hsign with rfl | rfl <;> simp [Text.isAtomic, hname, hcall]

/-- An operand with more behind it does not pass for an operand. -/
theorem not_isAtomic_append (operand : Phrase .operand) {c : Char} (hc : isSeparator c = true)
    (hopen : c ≠ '(') (rest : Text) :
    Text.isAtomic (operand.text ++ c :: rest) = false := by
  obtain ⟨-, hname⟩ := not_mem_of_isSeparator hc
  have hall : (operand.text ++ c :: rest).all isNameChar = false := by simp [hname]
  -- a text without a parenthesis before the operator has a call nowhere
  have hflat : ∀ {s : Text}, '(' ∉ s → Text.isCall (s ++ c :: rest) = false := by
    intro s hs
    rw [Bool.eq_false_iff]
    intro hcall
    obtain ⟨name, later, hexpr, hletters, -⟩ := Text.exists_of_isCall hcall
    rcases List.append_eq_append_iff.1 hexpr with ⟨more, hmore, hrest⟩ | ⟨more, hmore, hrest⟩
    · cases more with
      | nil => exact hopen (List.cons.inj hrest).1
      | cons d more =>
          have hd := hletters d (by simp [hmore])
          rw [← (List.cons.inj hrest).1, hname] at hd
          contradiction
    · cases more with
      | nil => exact hopen (List.cons.inj hrest).1.symm
      | cons d more => exact hs (by simp [hmore, ← (List.cons.inj hrest).1])
  -- what starts with a letter is no number
  have hword : ∀ (word : Symbol) (s : Text), Text.isNumeric (word.text ++ s) = false := by
    rintro ⟨letters, hstart, -⟩ s
    cases letters with
    | nil => contradiction
    | cons d letters => exact Text.isNumeric_of_head (Or.inl hstart) _
  unfold Text.isAtomic
  rw [hall, Bool.false_or]
  cases operand with
  | literal numeral =>
      have hflat' := hflat fun hmem => absurd (numeral.figures _ hmem) (by decide)
      simp only [text, hflat', Text.isNumeric_figures_append numeral.figures numeral.ne_nil hc]
      simp
  | name word =>
      have hflat' := hflat fun hmem => absurd (word.isNameText _ hmem) (by decide)
      simp only [text, hflat', hword]
      simp
  | group inner =>
      have hcall : Text.isCall ('(' :: inner.text ++ ')' :: c :: rest) = false :=
        inner.balanced_text.isCall_append (by simp [Text.IsNameText] : Text.IsNameText []) c rest
      have hnumeric : Text.isNumeric ('(' :: inner.text ++ ')' :: c :: rest) = false :=
        Text.isNumeric_of_head (Or.inr rfl) _
      rw [text, List.append_assoc, List.singleton_append, hcall, hnumeric]
      simp
  | call function arguments =>
      have hcall := arguments.balanced_text.isCall_append function.isNameText c rest
      have hnumeric := hword function ('(' :: arguments.text ++ ')' :: c :: rest)
      rw [← List.append_assoc] at hnumeric
      rw [text, List.append_assoc _ [')'], List.singleton_append, hcall, hnumeric]
      simp

/-- An expression that passes for an operand is one. -/
theorem exists_operand_of_isAtomic {phrase : Phrase .sum}
    (h : Text.isAtomic phrase.text = true) :
    ∃ operand, phrase.operand? = some operand ∧ phrase.text = operand.text := by
  rcases phrase.starts (by simp) with hoperand | ⟨minus, rest, htext⟩ |
    ⟨operand, c, rest, htext, hc, hopen⟩
  · exact hoperand
  · rw [htext, not_isAtomic_sign] at h
    contradiction
  · rw [htext, operand.not_isAtomic_append hc hopen] at h
    contradiction

/-- An expression is written as an operand in the way names are replaced. -/
theorem text_asOperand (phrase : Phrase .sum) :
    phrase.asOperand.text = Text.wrap true false phrase.text := by
  unfold asOperand Text.wrap
  cases hatomic : Text.isAtomic phrase.text with
  | false => simp [text, Text.parenthesized]
  | true =>
      obtain ⟨operand, hoperand, htext⟩ := exists_operand_of_isAtomic hatomic
      simp [hoperand, htext]

end Phrase

end OdeModel
