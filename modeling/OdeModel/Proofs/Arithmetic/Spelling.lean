import OdeModel.Proofs.Arithmetic.Reading
import Mathlib.Data.List.Chain

/-!
# Spellings

An expression is spelled as a list of words, with blanks between them wherever one likes. The
value depends on the words only: neither the blanks nor the places of the words matter, since
the words of an expression never run together.
-/

namespace OdeModel

/-! ### Tokens in other places -/

namespace Expr

variable {env : Environment}

/-- The trees have the same value, or their trees have the same values, if any. -/
def Alike (env : Environment) : {level : Level} → (result result' : level.Meaning Expr) → Prop
  | .arguments, exprs, exprs' => (evalAll env exprs).toOption = (evalAll env exprs').toOption
  | .sum, expr, expr' | .product, expr, expr' | .signed, expr, expr' | .power, expr, expr'
  | .operand, expr, expr' => (eval env expr).toOption = (eval env expr').toOption

theorem toOption_eval_name (offset : Nat) (word : Text) :
    (eval env (.name offset word)).toOption = env.valueOf? word := by
  rw [eval]
  cases env.valueOf? word <;> rfl

theorem toOption_eval_call (offset : Nat) (function : Text) (arguments : List Expr) :
    (eval env (.call offset function arguments)).toOption =
      (evalAll env arguments).toOption.bind (Value.call? function) := by
  rw [eval, Phrase.toOption_bind]
  congr 1
  funext values
  cases Value.call? function values <;> rfl

/-- The same tokens in other places have a tree with the same value. -/
theorem Derives.relocate (env : Environment) {level : Level} {tokens tokens' : Tokens}
    {result : level.Meaning Expr}
    (h : Derives level tokens result) (hkinds : tokens'.map Prod.snd = tokens.map Prod.snd) :
    ∃ result', Derives level tokens' result' ∧ Alike env result' result := by
  -- the new tokens are split where the rule has split the old ones
  have hsplit : ∀ {before after whole : Tokens} {offset : Nat} {token : Token},
      whole.map Prod.snd = (before ++ (offset, token) :: after).map Prod.snd →
      ∃ before' offset' after', whole = before' ++ (offset', token) :: after' ∧
        before'.map Prod.snd = before.map Prod.snd ∧ after'.map Prod.snd = after.map Prod.snd := by
    intro before after whole offset token h
    rw [List.map_append, List.map_eq_append_iff] at h
    obtain ⟨before', behind, rfl, hbefore, hbehind⟩ := h
    obtain ⟨⟨offset', token'⟩, after', rfl, htoken, hafter⟩ := List.map_eq_cons_iff.1 hbehind
    cases htoken
    exact ⟨before', offset', after', rfl, hbefore, hafter⟩
  induction h generalizing tokens' with
  | number offset value =>
      obtain ⟨⟨offset', _⟩, rfl, rfl⟩ := List.map_eq_singleton_iff.1 hkinds
      exact ⟨_, .number offset' value, rfl⟩
  | name offset word =>
      obtain ⟨⟨offset', _⟩, rfl, rfl⟩ := List.map_eq_singleton_iff.1 hkinds
      refine ⟨_, .name offset' word, ?_⟩
      simp only [Alike, toOption_eval_name]
  | group start close inner ih =>
      obtain ⟨before, close', after, rfl, hbefore, hafter⟩ := hsplit hkinds
      obtain ⟨⟨start', _⟩, inner', rfl, rfl, hinner⟩ := List.map_eq_cons_iff.1 hbefore
      obtain rfl := List.map_eq_nil_iff.1 hafter
      obtain ⟨expr', hderives, halike⟩ := ih hinner
      exact ⟨expr', .group start' close' hderives, halike⟩
  | call offset start close function arguments ih =>
      obtain ⟨before, close', after, rfl, hbefore, hafter⟩ := hsplit hkinds
      obtain ⟨⟨offset', _⟩, behind, rfl, rfl, hbehind⟩ := List.map_eq_cons_iff.1 hbefore
      obtain ⟨⟨start', _⟩, inner', rfl, rfl, hinner⟩ := List.map_eq_cons_iff.1 hbehind
      obtain rfl := List.map_eq_nil_iff.1 hafter
      obtain ⟨exprs', hderives, halike⟩ := ih hinner
      refine ⟨_, .call offset' start' close' function hderives, ?_⟩
      simp only [Alike] at halike ⊢
      rw [toOption_eval_call, toOption_eval_call, halike]
  | base operand ih =>
      obtain ⟨expr', hderives, halike⟩ := ih hkinds
      exact ⟨expr', .base hderives, halike⟩
  | power offset base exponent ihl ihr =>
      obtain ⟨before, offset', after, rfl, hbefore, hafter⟩ := hsplit hkinds
      obtain ⟨left', hleft, hbase⟩ := ihl hbefore
      obtain ⟨right', hright, hexponent⟩ := ihr hafter
      refine ⟨_, .power offset' hleft hright, ?_⟩
      simp only [Alike] at hbase hexponent ⊢
      simp only [eval, Phrase.toOption_bind, hbase, hexponent]
  | unsigned power ih =>
      obtain ⟨expr', hderives, halike⟩ := ih hkinds
      exact ⟨expr', .unsigned hderives, halike⟩
  | minus offset operand ih =>
      obtain ⟨⟨offset', _⟩, operand', rfl, rfl, hoperand⟩ := List.map_eq_cons_iff.1 hkinds
      obtain ⟨expr', hderives, halike⟩ := ih hoperand
      refine ⟨_, .minus offset' hderives, ?_⟩
      simp only [Alike] at halike ⊢
      simp only [eval, Phrase.toOption_bind, halike]
  | noted offset operand ih =>
      obtain ⟨⟨offset', _⟩, operand', rfl, rfl, hoperand⟩ := List.map_eq_cons_iff.1 hkinds
      obtain ⟨expr', hderives, halike⟩ := ih hoperand
      exact ⟨expr', .noted offset' hderives, halike⟩
  | factor signed ih =>
      obtain ⟨expr', hderives, halike⟩ := ih hkinds
      exact ⟨expr', .factor hderives, halike⟩
  | times offset divide product signed ihl ihr =>
      obtain ⟨before, offset', after, rfl, hbefore, hafter⟩ := hsplit hkinds
      obtain ⟨left', hleft, hproduct⟩ := ihl hbefore
      obtain ⟨right', hright, hsigned⟩ := ihr hafter
      refine ⟨_, .times offset' divide hleft hright, ?_⟩
      simp only [Alike] at hproduct hsigned ⊢
      simp only [eval, Phrase.toOption_bind, hproduct, hsigned]
  | term product ih =>
      obtain ⟨expr', hderives, halike⟩ := ih hkinds
      exact ⟨expr', .term hderives, halike⟩
  | plus offset minus sum product ihl ihr =>
      obtain ⟨before, offset', after, rfl, hbefore, hafter⟩ := hsplit hkinds
      obtain ⟨left', hleft, hsum⟩ := ihl hbefore
      obtain ⟨right', hright, hproduct⟩ := ihr hafter
      refine ⟨_, .plus offset' minus hleft hright, ?_⟩
      simp only [Alike] at hsum hproduct ⊢
      simp only [eval, Phrase.toOption_bind, hsum, hproduct]
  | last argument ih =>
      obtain ⟨expr', hderives, halike⟩ := ih hkinds
      refine ⟨_, .last hderives, ?_⟩
      simp only [Alike] at halike ⊢
      simp only [evalAll, Phrase.toOption_bind, halike]
  | more offset argument later iha ihl =>
      obtain ⟨before, offset', after, rfl, hbefore, hafter⟩ := hsplit hkinds
      obtain ⟨first', hfirst, hargument⟩ := iha hbefore
      obtain ⟨others', hothers, hlater⟩ := ihl hafter
      refine ⟨_, .more offset' hfirst hothers, ?_⟩
      simp only [Alike] at hargument hlater ⊢
      simp only [evalAll, Phrase.toOption_bind, hargument, hlater]

end Expr

namespace Token

/-- What was scanned, without the places. -/
def kinds? (scanned : Except ArithmeticError (List (Nat × Token))) : Option (List Token) :=
  scanned.toOption.map (List.map Prod.snd)

theorem kinds?_cons (scanned : Except ArithmeticError (List (Nat × Token))) (offset : Nat)
    (token : Token) :
    kinds? (scanned.map ((offset, token) :: ·)) = do return token :: (← kinds? scanned) := by
  cases scanned <;> rfl

end Token

/-- Texts with the same tokens have the same value. -/
theorem evalText_congr (env : Environment) {s t : Text}
    (h : Token.kinds? (Token.scan s) = Token.kinds? (Token.scan t)) :
    (evalText env s).toOption = (evalText env t).toOption := by
  have himp : ∀ {s t : Text} {value : Value},
      Token.kinds? (Token.scan s) = Token.kinds? (Token.scan t) →
      evalText env s = .ok value → evalText env t = .ok value := by
    intro s t value hkinds hvalue
    obtain ⟨tokens, expr, hscan, hderives, hexpr⟩ := evalText_eq_ok_iff.1 hvalue
    rw [hscan] at hkinds
    cases hscan' : Token.scan t with
    | error error =>
        rw [hscan'] at hkinds
        contradiction
    | ok tokens' =>
        rw [hscan'] at hkinds
        obtain ⟨expr', hderives', halike⟩ :=
          hderives.relocate env (Option.some.inj hkinds).symm
        refine evalText_eq_ok_iff.2 ⟨tokens', expr', hscan', hderives', ?_⟩
        simp only [Expr.Alike, hexpr] at halike
        cases hexpr' : expr'.eval env <;> simp_all [Except.toOption]
  cases hs : evalText env s with
  | ok value => rw [himp h hs]
  | error error =>
      cases ht : evalText env t with
      | error error' => rfl
      | ok value =>
          rw [himp h.symm ht] at hs
          cases hs

/-! ### Words -/

/-- A word of an expression. -/
inductive Lexeme where
  | literal (numeral : Numeral)
  | word (symbol : Symbol)
  | operator (op : Operator)
  | power (stars : Bool)
  | openParen
  | closeParen
  | comma

namespace Lexeme

/-- The word as it is written. -/
def text : Lexeme → Text
  | literal numeral => numeral.text
  | word symbol => symbol.text
  | operator op => [op.sign]
  | power stars => Phrase.powerSign stars
  | openParen => ['(']
  | closeParen => [')']
  | comma => [',']

/-- The token that the word is. A number without a value is none. -/
def token? : Lexeme → Option Token
  | literal numeral => (Token.numeral? numeral.text).map .number
  | word symbol => some (.name symbol.text)
  | operator op => some (.operator op)
  | power _ => some .power
  | openParen => some .openParen
  | closeParen => some .closeParen
  | comma => some .comma

/-- The word is a number or a name. -/
def isOperand : Lexeme → Bool
  | literal _ | word _ => true
  | _ => false

/-- The word starts with a star. -/
def startsWithStar : Lexeme → Bool
  | operator .mul | power true => true
  | _ => false

/-- The words do not run together when nothing stands between them. -/
def Apart (lexeme next : Lexeme) : Prop :=
  (lexeme.isOperand && next.isOperand) = false ∧
    (lexeme.startsWithStar && next.startsWithStar) = false

/-- The text does not go on with the word. -/
def EndsAt : Lexeme → Text → Prop
  | literal _, rest => rest.EndsNumber
  | word _, rest => rest.EndsName
  | operator .mul, rest => rest.head? ≠ some '*'
  | _, _ => True

/-- The word is read, and then what stands behind it. -/
theorem kinds?_scanFrom (lexeme : Lexeme) {rest : Text} (hends : lexeme.EndsAt rest)
    (offset : Nat) : Token.kinds? (Token.scanFrom offset (lexeme.text ++ rest)) = do
      let token ← lexeme.token?
      let later ← Token.kinds? (Token.scanFrom (offset + Text.width lexeme.text) rest)
      return token :: later := by
  have hsingle : ∀ (c : Char) (token : Token), Token.single? c = some token →
      isSeparator c = true → (c = '*' → rest.head? ≠ some '*') →
      Token.kinds? (Token.scanFrom offset (c :: rest)) = do
        return token :: (← Token.kinds? (Token.scanFrom (offset + Text.width [c]) rest)) := by
    intro c token htoken hseparator hstar
    rw [Token.scanFrom_single offset htoken hseparator hstar, Token.kinds?_cons, Text.width_cons,
      Text.width_nil, utf8Size_of_isSeparator hseparator]
  have hother : ∀ {c : Char}, c ≠ '*' → c = '*' → rest.head? ≠ some '*' :=
    fun hne h => absurd h hne
  cases lexeme with
  | literal numeral =>
      rw [text, Token.scanFrom_numeral offset numeral hends, token?]
      cases Token.numeral? numeral.text with
      | none => rfl
      | some value => exact Token.kinds?_cons _ _ _
  | word symbol =>
      rw [text, Token.scanFrom_word offset symbol hends]
      exact Token.kinds?_cons _ _ _
  | operator op =>
      cases op with
      | mul => exact hsingle '*' _ rfl rfl fun _ => hends
      | add => exact hsingle '+' _ rfl rfl (hother (by decide))
      | sub => exact hsingle '-' _ rfl rfl (hother (by decide))
      | div => exact hsingle '/' _ rfl rfl (hother (by decide))
  | power stars =>
      cases stars with
      | false => exact hsingle '^' _ rfl rfl (hother (by decide))
      | true =>
          exact (congrArg Token.kinds? (Token.scanFrom_stars offset rest)).trans
            (Token.kinds?_cons _ _ _)
  | openParen => exact hsingle '(' _ rfl rfl (hother (by decide))
  | closeParen => exact hsingle ')' _ rfl rfl (hother (by decide))
  | comma => exact hsingle ',' _ rfl rfl (hother (by decide))

theorem endsAt_nil (lexeme : Lexeme) : lexeme.EndsAt [] := by
  rcases lexeme with _ | _ | (_ | _ | _ | _) | _ | _ | _ | _ <;>
    simp [EndsAt, Text.EndsNumber, Text.EndsName]

/-- A blank belongs to no word. -/
theorem endsAt_blank (lexeme : Lexeme) {c : Char} (hc : isBlank c = true) (rest : Text) :
    lexeme.EndsAt (c :: rest) := by
  have hname : isNameChar c = false :=
    Bool.eq_false_iff.2 fun h => by rw [isBlank_of_isNameChar h] at hc; cases hc
  have hfigure : (c.isDigit || c == '.') = false :=
    Bool.eq_false_iff.2 fun h => by rw [isBlank_of_figure h] at hc; cases hc
  have hmark : ∀ d : Char, isBlank d = false → (c == d) = false := fun d hd =>
    beq_eq_false_iff_ne.2 fun h => by rw [h, hd] at hc; cases hc
  cases lexeme with
  | literal numeral =>
      rintro _ ⟨⟩
      rw [hfigure, hmark 'e' (by decide), hmark 'E' (by decide)]
      rfl
  | word symbol =>
      rintro _ ⟨⟩
      exact hname
  | operator op =>
      cases op with
      | mul =>
          rintro ⟨⟩
          cases hc
      | _ => trivial
  | _ => trivial

/-- Words that stay apart end where the next one starts. -/
theorem endsAt_append {lexeme next : Lexeme} (h : Apart lexeme next) (rest : Text) :
    lexeme.EndsAt (next.text ++ rest) := by
  obtain ⟨hoperand, hstar⟩ := h
  have hseparated : next.isOperand = false → Text.Separated (next.text ++ rest) := by
    rcases next with numeral | symbol | (_ | _ | _ | _) | (_ | _) | _ | _ | _
    · exact nofun
    · exact nofun
    all_goals exact fun _ => rfl
  have hhead : next.startsWithStar = false → (next.text ++ rest).head? ≠ some '*' := by
    rcases next with numeral | symbol | (_ | _ | _ | _) | (_ | _) | _ | _ | _
    · exact fun _ => (Phrase.literal numeral).head?_text_ne_star rest
    · exact fun _ => (Phrase.name symbol).head?_text_ne_star rest
    all_goals simp [startsWithStar, text, Operator.sign, Phrase.powerSign]
  cases lexeme with
  | literal numeral => exact (hseparated hoperand).endsNumber
  | word symbol => exact (hseparated hoperand).endsName
  | operator op =>
      cases op with
      | mul => exact hhead hstar
      | _ => trivial
  | _ => trivial

end Lexeme

/-- The text spells the words, with any blanks between them. -/
inductive Spells : List Lexeme → Text → Prop
  /-- Nothing is left. -/
  | nil : Spells [] []
  /-- A blank before a word or at the end. -/
  | blank {c : Char} {lexemes : List Lexeme} {s : Text} (hc : isBlank c = true)
      (later : Spells lexemes s) : Spells lexemes (c :: s)
  /-- A word. -/
  | word {lexemes : List Lexeme} {s : Text} (lexeme : Lexeme) (later : Spells lexemes s) :
      Spells (lexeme :: lexemes) (lexeme.text ++ s)

namespace Spells

variable {lexemes : List Lexeme} {s : Text}

theorem endsAt (h : Spells lexemes s) {lexeme : Lexeme}
    (hapart : ∀ next ∈ lexemes.head?, Lexeme.Apart lexeme next) : lexeme.EndsAt s := by
  cases h with
  | nil => exact lexeme.endsAt_nil
  | blank hc later => exact lexeme.endsAt_blank hc _
  | word next later => exact Lexeme.endsAt_append (hapart next rfl) _

/-- The tokens of words that stay apart. -/
theorem kinds?_scanFrom (h : Spells lexemes s) (hapart : lexemes.IsChain Lexeme.Apart)
    (offset : Nat) : Token.kinds? (Token.scanFrom offset s) = lexemes.mapM Lexeme.token? := by
  induction h generalizing offset with
  | nil => rw [Token.scanFrom_nil]; rfl
  | @blank c lexemes s hc _ ih =>
      have hstars : ∀ rest, c = '*' → s = '*' :: rest → False := by
        rintro rest rfl -
        contradiction
      rw [Token.scanFrom_cons _ hstars, if_pos hc, ih hapart]
  | word lexeme later ih =>
      obtain ⟨hhead, hchain⟩ := List.isChain_cons.1 hapart
      rw [lexeme.kinds?_scanFrom (later.endsAt hhead), List.mapM_cons, ih hchain]

theorem append {lexemes' : List Lexeme} {t : Text} (hs : Spells lexemes s)
    (ht : Spells lexemes' t) : Spells (lexemes ++ lexemes') (s ++ t) := by
  induction hs with
  | nil => exact ht
  | blank hc _ ih => exact .blank hc ih
  | word lexeme _ ih =>
      rw [List.append_assoc]
      exact .word lexeme ih

theorem single (lexeme : Lexeme) : Spells [lexeme] lexeme.text := by
  have h := Spells.word lexeme .nil
  rwa [List.append_nil] at h

end Spells

namespace Phrase

/-- The words of a phrase. -/
def lexemes : {level : Level} → Phrase level → List Lexeme
  | _, literal numeral => [.literal numeral]
  | _, name word => [.word word]
  | _, group inner => .openParen :: (inner.lexemes ++ [.closeParen])
  | _, call function arguments =>
      .word function :: .openParen :: (arguments.lexemes ++ [.closeParen])
  | _, base operand => operand.lexemes
  | _, power stars left right => left.lexemes ++ .power stars :: right.lexemes
  | _, unsigned operand => operand.lexemes
  | _, sign minus operand => .operator (termOperator minus) :: operand.lexemes
  | _, factor signed => signed.lexemes
  | _, times divide left right => left.lexemes ++ .operator (factorOperator divide) :: right.lexemes
  | _, term product => product.lexemes
  | _, plus minus left right => left.lexemes ++ .operator (termOperator minus) :: right.lexemes
  | _, last argument => argument.lexemes
  | _, more argument later => argument.lexemes ++ .comma :: later.lexemes

/-- The text of a phrase spells it, with no blanks at all. -/
theorem spells_text {level : Level} (phrase : Phrase level) :
    Spells phrase.lexemes phrase.text := by
  induction phrase with
  | literal numeral => exact .single (.literal numeral)
  | name word => exact .single (.word word)
  | group inner ih => exact .word .openParen (ih.append (.single .closeParen))
  | call function arguments ih =>
      rw [text, List.append_assoc]
      exact .word (.word function) (.word .openParen (ih.append (.single .closeParen)))
  | power stars left right ihl ihr =>
      rw [text, List.append_assoc]
      exact ihl.append (.word (.power stars) ihr)
  | sign minus operand ih => exact .word (.operator (termOperator minus)) ih
  | times divide left right ihl ihr =>
      exact ihl.append (.word (.operator (factorOperator divide)) ihr)
  | plus minus left right ihl ihr =>
      exact ihl.append (.word (.operator (termOperator minus)) ihr)
  | more argument later iha ihl => exact iha.append (.word .comma ihl)
  | base operand ih | unsigned operand ih | factor operand ih | term operand ih
  | last operand ih => exact ih

/-- Put before words that stay apart and do not start with a number or name, a phrase does
not start with a star, and no two words run together. -/
theorem isChain_lexemes {level : Level} (phrase : Phrase level) {rest : List Lexeme}
    (hrest : rest.IsChain Lexeme.Apart) (hhead : ∀ next ∈ rest.head?, next.isOperand = false) :
    (phrase.lexemes ++ rest).IsChain Lexeme.Apart ∧
      ∀ next ∈ (phrase.lexemes ++ rest).head?, next.startsWithStar = false := by
  -- a phrase stands behind a word that is no operand, an operand before one that is none
  have hbefore : ∀ (lexeme : Lexeme) {later : List Lexeme}, lexeme.isOperand = false →
      later.IsChain Lexeme.Apart ∧ (∀ next ∈ later.head?, next.startsWithStar = false) →
      (lexeme :: later).IsChain Lexeme.Apart := by
    intro lexeme later hlexeme hlater
    refine List.isChain_cons.2 ⟨fun next hnext => ⟨?_, ?_⟩, hlater.1⟩
    · rw [hlexeme, Bool.false_and]
    · rw [hlater.2 next hnext, Bool.and_false]
  have hbehind : ∀ {lexeme : Lexeme} {later : List Lexeme}, lexeme.startsWithStar = false →
      later.IsChain Lexeme.Apart → (∀ next ∈ later.head?, next.isOperand = false) →
      (lexeme :: later).IsChain Lexeme.Apart ∧
        ∀ next ∈ (lexeme :: later).head?, next.startsWithStar = false := by
    intro lexeme later hlexeme hlater hhead
    refine ⟨List.isChain_cons.2 ⟨fun next hnext => ⟨?_, ?_⟩, hlater⟩, ?_⟩
    · rw [hhead next hnext, Bool.and_false]
    · rw [hlexeme, Bool.false_and]
    · rintro _ ⟨⟩
      exact hlexeme
  have hclose : ∀ {later : List Lexeme}, later.IsChain Lexeme.Apart →
      (∀ next ∈ later.head?, next.isOperand = false) →
      (Lexeme.closeParen :: later).IsChain Lexeme.Apart ∧
        ∀ next ∈ (Lexeme.closeParen :: later).head?, next.isOperand = false :=
    fun hlater hhead => ⟨(hbehind rfl hlater hhead).1, by rintro _ ⟨⟩; rfl⟩
  induction phrase generalizing rest with
  | literal numeral => exact hbehind rfl hrest hhead
  | name word => exact hbehind rfl hrest hhead
  | group inner ih =>
      obtain ⟨hchain, hnext⟩ := hclose hrest hhead
      have hinner := hbefore .openParen rfl (ih hchain hnext)
      rw [lexemes, List.cons_append, List.append_assoc]
      exact ⟨hinner, by rintro _ ⟨⟩; rfl⟩
  | call function arguments ih =>
      obtain ⟨hchain, hnext⟩ := hclose hrest hhead
      have hinner := hbefore .openParen rfl (ih hchain hnext)
      rw [lexemes, List.cons_append, List.cons_append, List.append_assoc]
      exact hbehind rfl hinner (by rintro _ ⟨⟩; rfl)
  | power stars left right ihl ihr =>
      rw [lexemes, List.append_assoc]
      exact ihl (hbefore (.power stars) rfl (ihr hrest hhead)) (by rintro _ ⟨⟩; rfl)
  | sign minus operand ih =>
      refine ⟨hbefore _ rfl (ih hrest hhead), ?_⟩
      rintro _ ⟨⟩
      cases minus <;> rfl
  | times divide left right ihl ihr =>
      rw [lexemes, List.append_assoc]
      exact ihl (hbefore (.operator (factorOperator divide)) rfl (ihr hrest hhead))
        (by rintro _ ⟨⟩; rfl)
  | plus minus left right ihl ihr =>
      rw [lexemes, List.append_assoc]
      exact ihl (hbefore (.operator (termOperator minus)) rfl (ihr hrest hhead))
        (by rintro _ ⟨⟩; rfl)
  | more argument later iha ihl =>
      rw [lexemes, List.append_assoc]
      exact iha (hbefore .comma rfl (ihl hrest hhead)) (by rintro _ ⟨⟩; rfl)
  | base operand ih | unsigned operand ih | factor operand ih | term operand ih
  | last operand ih => exact ih hrest hhead

/-- However a phrase is spelled, its text has the value of the phrase. -/
theorem evalText_spelled (env : Environment) (phrase : Phrase .sum) {s : Text}
    (h : Spells phrase.lexemes s) :
    (evalText env s).toOption = phrase.value env.valueOf? builtin := by
  have hchain : phrase.lexemes.IsChain Lexeme.Apart := by
    have h := (@isChain_lexemes _ phrase [] .nil (by simp)).1
    rwa [List.append_nil] at h
  rw [← evalText_text]
  apply evalText_congr
  rw [Token.scan, Token.scan, h.kinds?_scanFrom hchain, phrase.spells_text.kinds?_scanFrom hchain]

end Phrase

end OdeModel
