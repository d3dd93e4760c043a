import OdeModel.Proofs.Arithmetic.Grammar
import OdeModel.Proofs.Arithmetic.Lexing

/-!
# Reading a phrase

The tokens of a phrase are read as the tree of that phrase, because the grammar has
that tree for them. The tree has the value of the phrase.
-/

namespace OdeModel

namespace Phrase

/-- The tree of a phrase that stands at a position. -/
def exprAt : {level : Level} → Nat → Phrase level → level.Meaning Expr
  | _, _, literal numeral => .number ((Token.numeral? numeral.text).getD (.whole 0))
  | _, offset, name word => .name offset word.text
  | _, offset, group inner => (inner.exprAt (offset + 1) : Expr)
  | _, offset, call function arguments =>
      .call offset function.text (arguments.exprAt (offset + Text.width function.text + 1))
  | _, offset, base operand => (operand.exprAt offset : Expr)
  | _, offset, power stars left right =>
      .power (left.exprAt offset)
        (right.exprAt (offset + Text.width left.text + Text.width (powerSign stars)))
  | _, offset, unsigned operand => (operand.exprAt offset : Expr)
  | _, offset, sign minus operand =>
      if minus then .negate (operand.exprAt (offset + 1)) else operand.exprAt (offset + 1)
  | _, offset, factor signed => (signed.exprAt offset : Expr)
  | _, offset, times divide left right =>
      .binary (factorOperator divide) (left.exprAt offset)
        (right.exprAt (offset + Text.width left.text + 1))
  | _, offset, term product => (product.exprAt offset : Expr)
  | _, offset, plus minus left right =>
      .binary (termOperator minus) (left.exprAt offset)
        (right.exprAt (offset + Text.width left.text + 1))
  | _, offset, last argument => [argument.exprAt offset]
  | _, offset, more argument later =>
      argument.exprAt offset :: later.exprAt (offset + Text.width argument.text + 1)

/-- The grammar has the tree of a phrase for its tokens. -/
theorem derives_tokensAt {level : Level} (phrase : Phrase level) (offset : Nat) :
    Expr.Derives level (phrase.tokensAt offset) (phrase.exprAt offset) := by
  induction phrase generalizing offset with
  | literal numeral => exact .number _ _
  | name word => exact .name _ _
  | group inner ih => exact .group _ _ (ih _)
  | call function arguments ih => exact .call _ _ _ _ (ih _)
  | base operand ih => exact .base (ih offset)
  | power stars left right ihl ihr => exact .power _ (ihl offset) (ihr _)
  | unsigned operand ih => exact .unsigned (ih offset)
  | sign minus operand ih =>
      cases minus with
      | false => exact .noted offset (ih _)
      | true => exact .minus offset (ih _)
  | factor signed ih => exact .factor (ih offset)
  | times divide left right ihl ihr => exact .times _ divide (ihl offset) (ihr _)
  | term product ih => exact .term (ih offset)
  | plus minus left right ihl ihr => exact .plus _ minus (ihl offset) (ihr _)
  | last argument ih => exact .last (ih offset)
  | more argument later iha ihl => exact .more _ (iha offset) (ihl _)

/-- The tokens of an expression are read as its tree. -/
theorem ofTokens_tokensAt (stop : Nat) (phrase : Phrase .sum) :
    Expr.ofTokens stop (phrase.tokensAt 0) = .ok (phrase.exprAt 0) :=
  Expr.ofTokens_eq_ok_iff.2 (phrase.derives_tokensAt 0)

/-! ### Values -/

variable {env : Environment}

theorem toOption_bind {ε α β : Type} (x : Except ε α) (f : α → Except ε β) :
    (x >>= f).toOption = x.toOption.bind fun a => (f a).toOption := by
  cases x <;> rfl

/-- The tree has the value of the phrase, or the arguments all have their values. -/
def Agrees (env : Environment) : {level : Level} → level.Meaning Expr → level.Result → Prop
  | .arguments, exprs, values => (Expr.evalAll env exprs).toOption = values.mapM id
  | .sum, expr, value | .product, expr, value | .signed, expr, value | .power, expr, value
  | .operand, expr, value => (Expr.eval env expr).toOption = value

/-- The tree of a readable phrase has the value of the phrase. -/
theorem agrees_exprAt {level : Level} (phrase : Phrase level) (hreadable : phrase.Readable)
    (offset : Nat) :
    Agrees env (phrase.exprAt offset) (phrase.value env.valueOf? builtin) := by
  induction phrase generalizing offset with
  | literal numeral =>
      obtain ⟨value, hvalue⟩ := Option.isSome_iff_exists.1 hreadable
      simp only [Agrees, exprAt, Phrase.value, hvalue]
      rfl
  | name word =>
      simp only [Agrees, exprAt, Phrase.value, Expr.eval]
      cases env.valueOf? word.text <;> rfl
  | group inner ih => exact ih hreadable (offset + 1)
  | call function arguments ih =>
      have hvalues := ih hreadable (offset + Text.width function.text + 1)
      simp only [Agrees] at hvalues
      simp only [Agrees, exprAt, Phrase.value, Expr.eval, toOption_bind, hvalues]
      apply Option.bind_congr
      intro values _
      cases Value.call? function.text values <;> rfl
  | base operand ih => exact ih hreadable offset
  | power stars left right ihl ihr =>
      have hleft := ihl hreadable.1 offset
      have hright := ihr hreadable.2
        (offset + Text.width left.text + Text.width (powerSign stars))
      simp only [Agrees] at hleft hright
      simp only [Agrees, exprAt, Phrase.value, Expr.eval, toOption_bind, hleft, hright]
      rfl
  | unsigned operand ih => exact ih hreadable offset
  | sign minus operand ih =>
      have hoperand := ih hreadable (offset + 1)
      simp only [Agrees] at hoperand
      cases minus with
      | false =>
          simp only [Agrees, exprAt, Phrase.value, Bool.false_eq_true, if_false, hoperand]
          cases operand.value env.valueOf? builtin <;> rfl
      | true =>
          simp only [Agrees, exprAt, Phrase.value, Expr.eval, if_true, toOption_bind, hoperand]
          rfl
  | factor signed ih => exact ih hreadable offset
  | times divide left right ihl ihr =>
      have hleft := ihl hreadable.1 offset
      have hright := ihr hreadable.2 (offset + Text.width left.text + 1)
      simp only [Agrees] at hleft hright
      simp only [Agrees, exprAt, Phrase.value, Expr.eval, toOption_bind, hleft, hright]
      rfl
  | term product ih => exact ih hreadable offset
  | plus minus left right ihl ihr =>
      have hleft := ihl hreadable.1 offset
      have hright := ihr hreadable.2 (offset + Text.width left.text + 1)
      simp only [Agrees] at hleft hright
      simp only [Agrees, exprAt, Phrase.value, Expr.eval, toOption_bind, hleft, hright]
      rfl
  | last argument ih =>
      have hargument := ih hreadable offset
      simp only [Agrees] at hargument
      simp only [Agrees, exprAt, Phrase.value, Expr.evalAll, toOption_bind, hargument,
        List.mapM_cons, List.mapM_nil]
      rfl
  | more argument later iha ihl =>
      have hargument := iha hreadable.1 offset
      have hlater := ihl hreadable.2 (offset + Text.width argument.text + 1)
      simp only [Agrees] at hargument hlater
      simp only [Agrees, exprAt, Phrase.value, Expr.evalAll, toOption_bind, hargument, hlater,
        List.mapM_cons]
      rfl

/-- There is no value, or not all arguments have theirs. -/
def Fails : {level : Level} → level.Result → Prop
  | .arguments, values => values.mapM id = none
  | .sum, value | .product, value | .signed, value | .power, value | .operand, value =>
      value = none

/-- A phrase with a literal that has no value has none either. -/
theorem fails_of_not_readable {names : Text → Option Value} {level : Level}
    (phrase : Phrase level) (hunreadable : ¬ phrase.Readable) :
    Fails (phrase.value names builtin) := by
  have hpair : ∀ {α β γ : Type} {p q : Prop} {a : Option α} {b : Option β} {f : α → β → Option γ},
      ¬ (p ∧ q) → (¬ p → a = none) → (¬ q → b = none) →
        (do let x ← a; let y ← b; f x y) = none := by
    intro α β γ p q a b f hnot ha hb
    by_cases hp : p
    · rw [hb fun hq => hnot ⟨hp, hq⟩]
      cases a <;> rfl
    · rw [ha hp]
      rfl
  induction phrase with
  | literal numeral => simpa [Fails, Readable, Phrase.value] using hunreadable
  | name word => exact absurd trivial hunreadable
  | group inner ih => exact ih hunreadable
  | call function arguments ih =>
      have hvalues := ih hunreadable
      simp only [Fails] at hvalues
      simp only [Fails, Phrase.value, builtin, hvalues]
      rfl
  | base operand ih => exact ih hunreadable
  | power stars left right ihl ihr => exact hpair hunreadable ihl ihr
  | unsigned operand ih => exact ih hunreadable
  | sign minus operand ih =>
      have hoperand := ih hunreadable
      simp only [Fails] at hoperand
      simp only [Fails, Phrase.value, hoperand]
      rfl
  | factor signed ih => exact ih hunreadable
  | times divide left right ihl ihr => exact hpair hunreadable ihl ihr
  | term product ih => exact ih hunreadable
  | plus minus left right ihl ihr => exact hpair hunreadable ihl ihr
  | last argument ih =>
      have hargument := ih hunreadable
      simp only [Fails] at hargument
      simp only [Fails, Phrase.value, hargument, List.mapM_cons]
      rfl
  | more argument later iha ihl =>
      simp only [Fails, Phrase.value, List.mapM_cons]
      exact hpair hunreadable iha ihl

/-- An expression has the value of the phrase that it is the text of. -/
theorem evalText_text (env : Environment) (phrase : Phrase .sum) :
    (evalText env phrase.text).toOption = phrase.value env.valueOf? builtin := by
  obtain ⟨hgood, hbad⟩ := phrase.scans_text 0 [] Text.separated_nil
  rw [List.append_nil] at hgood hbad
  unfold evalText
  -- a literal without a value is refused before anything is read
  by_cases hreadable : phrase.Readable
  · have htokens : Token.scan phrase.text = .ok (phrase.tokensAt 0) := by
      rw [Token.scan, hgood hreadable, Token.scanFrom_nil]
      simp [Except.map]
    rw [htokens, toOption_bind]
    simp only [Except.toOption, Option.bind_some, ofTokens_tokensAt]
    exact phrase.agrees_exprAt hreadable 0
  · obtain ⟨error, herror⟩ := hbad hreadable
    have hvalue : phrase.value env.valueOf? builtin = none :=
      phrase.fails_of_not_readable hreadable
    rw [Token.scan, herror, hvalue]
    rfl

end Phrase

end OdeModel
