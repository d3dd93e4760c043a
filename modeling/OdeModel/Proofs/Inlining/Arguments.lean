import OdeModel.Proofs.Inlining.Expansion
import OdeModel.Proofs.Text.Items

/-!
# The arguments of a call

The list in the parentheses of a call is split into the texts of its arguments.
-/

namespace OdeModel

namespace Phrase

theorem text_ne_nil {level : Level} (phrase : Phrase level) : phrase.text ≠ [] := by
  obtain ⟨c, rest, hcons, -⟩ := phrase.exists_text_eq_cons
  rw [hcons]
  exact List.cons_ne_nil c rest

/-- A phrase is written without blanks. -/
theorem isBlank_of_mem_text {level : Level} (phrase : Phrase level) :
    ∀ c ∈ phrase.text, isBlank c = false := by
  have hword : ∀ word : Symbol, ∀ c ∈ word.text, isBlank c = false :=
    fun word c hc => isBlank_of_isNameChar (word.isNameText c hc)
  have hjoin : ∀ {s t : Text} {c : Char}, isBlank c = false → (∀ d ∈ s, isBlank d = false) →
      (∀ d ∈ t, isBlank d = false) → ∀ d ∈ s ++ c :: t, isBlank d = false := by
    intro s t c hc hs ht
    rw [List.forall_mem_append, List.forall_mem_cons]
    exact ⟨hs, hc, ht⟩
  have hnone : ∀ d ∈ ([] : Text), isBlank d = false := by simp
  induction phrase with
  | literal numeral => exact fun c hc => isBlank_of_figure (numeral.figures c hc)
  | name word => exact hword word
  | group inner ih => exact hjoin (by decide) (hjoin (by decide) hnone ih) hnone
  | call function arguments ih =>
      exact hjoin (by decide) (hjoin (by decide) (hword function) ih) hnone
  | base operand ih => exact ih
  | power stars left right ihl ihr =>
      rw [text, List.append_assoc]
      cases stars with
      | false => exact hjoin (by decide) ihl ihr
      | true => exact hjoin (by decide) ihl (hjoin (by decide) hnone ihr)
  | unsigned operand ih => exact ih
  | sign minus operand ih => cases minus <;> exact hjoin (by decide) hnone ih
  | factor signed ih => exact ih
  | times divide left right ihl ihr => cases divide <;> exact hjoin (by decide) ihl ihr
  | term product ih => exact ih
  | plus minus left right ihl ihr => cases minus <;> exact hjoin (by decide) ihl ihr
  | last argument ih => exact ih
  | more argument later iha ihl => exact hjoin (by decide) iha ihl

/-- Commas separate the arguments of a call, and stand nowhere else outside of brackets. -/
theorem passed_text {level : Level} (phrase : Phrase level) :
    Text.Passed (· == ',') (if level = .arguments then 1 else 0) phrase.text := by
  have hword : ∀ {low : Nat} (word : Symbol), Text.Passed (· == ',') low word.text := by
    intro low word
    apply Text.Passed.of_forall
    intro c hc
    have hname := word.isNameText c hc
    obtain ⟨hopening, hclosing⟩ := not_bracket (Or.inr hname)
    refine ⟨hopening, hclosing, ?_⟩
    rw [beq_eq_false_iff_ne]
    rintro rfl
    exact absurd hname (by decide)
  have hbracket : ∀ {low : Nat} {s : Text}, Text.Passed (· == ',') 1 s →
      Text.Passed (· == ',') low ('(' :: s ++ [')']) := fun hs => hs.bracketed
  induction phrase with
  | literal numeral =>
      apply Text.Passed.of_forall
      intro c hc
      have hfigure := numeral.figures c hc
      obtain ⟨hopening, hclosing⟩ := not_bracket (Or.inl hfigure)
      refine ⟨hopening, hclosing, ?_⟩
      rw [beq_eq_false_iff_ne]
      rintro rfl
      exact absurd hfigure (by decide)
  | name word => exact hword word
  | group inner ih => exact hbracket (ih.mono (by decide))
  | call function arguments ih =>
      rw [text, List.append_assoc]
      exact (hword function).append (hbracket ih)
  | base operand ih => exact ih
  | power stars left right ihl ihr =>
      rw [text, List.append_assoc]
      cases stars with
      | false => exact ihl.append (ihr.cons rfl rfl (by decide))
      | true => exact ihl.append ((ihr.cons rfl rfl (by decide)).cons rfl rfl (by decide))
  | unsigned operand ih => exact ih
  | sign minus operand ih => cases minus <;> exact ih.cons rfl rfl (by decide)
  | factor signed ih => exact ih
  | times divide left right ihl ihr =>
      cases divide <;> exact ihl.append (ihr.cons rfl rfl (by decide))
  | term product ih => exact ih
  | plus minus left right ihl ihr =>
      cases minus <;> exact ihl.append (ihr.cons rfl rfl (by decide))
  | last argument ih => exact ih.mono (by decide)
  | more argument later iha ihl =>
      exact (iha.mono (by decide)).append (ihl.cons rfl rfl (by decide))

theorem map_snd_topFields : (arguments : Phrase .arguments) → (offset : Nat) →
    (Text.topFields (· == ',') 0 offset arguments.text).map Prod.snd =
      arguments.actuals.map text
  | last argument, offset => by
      have hpassed : Text.Passed (· == ',') 0 argument.text := argument.passed_text
      rw [text, hpassed.topFields_eq]
      rfl
  | more argument later, offset => by
      have hpassed : Text.Passed (· == ',') 0 argument.text := argument.passed_text
      rw [text, hpassed.topFields_append_cons rfl rfl rfl, List.map_cons,
        map_snd_topFields later]
      rfl

/-- The list in the parentheses of a call gives its arguments. -/
theorem splitList_arguments (arguments : Phrase .arguments) (before after : Text) :
    ∃ items, Text.splitList (before ++ '(' :: arguments.text ++ ')' :: after)
        (Text.width before) (· == ',') =
          .ok (items, Text.width before + 1 + Text.width arguments.text) ∧
      items.map Prod.snd = arguments.actuals.map text := by
  have hitems := arguments.map_snd_topFields (Text.width before + 1)
  refine ⟨_, arguments.balanced_text.splitList_eq before after fun piece hpiece => ?_, hitems⟩
  have hsnd : piece.2 ∈ arguments.actuals.map text := hitems ▸ List.mem_map_of_mem hpiece
  obtain ⟨actual, -, htext⟩ := List.mem_map.1 hsnd
  rw [← htext]
  exact ⟨actual.text_ne_nil, actual.isBlank_of_mem_text⟩

end Phrase

end OdeModel
