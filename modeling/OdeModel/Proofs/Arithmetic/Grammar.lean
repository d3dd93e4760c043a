import OdeModel.Proofs.Arithmetic.Phrase
import OdeModel.Proofs.Steps

/-!
# The grammar of expressions

Which tokens have which tree, as a relation with one rule for each way to put an
expression together. The readers find exactly the trees of this grammar. Reading goes
into the left parts of sums and products first, so after such a part it stands in the
loop over the further ones.
-/

namespace OdeModel

/-- How tightly a token that follows an expression binds to it. -/
def Token.binding : Token → Nat
  | number _ | name _ | openParen => 5
  | power => 4
  | operator .mul | operator .div => 2
  | operator .add | operator .sub => 1
  | closeParen | comma => 0

/-- A token that stands between two parts of an expression, or before one. -/
def Token.isJoint : Token → Bool
  | operator _ | power | comma => true
  | _ => false

namespace Expr

/-- The tokens are written for the tree, at a level of the grammar. -/
inductive Derives : (level : Level) → Tokens → level.Meaning Expr → Prop
  /-- A number. -/
  | number (offset : Nat) (value : Value) :
      Derives .operand [(offset, .number value)] (.number value)
  /-- A name. -/
  | name (offset : Nat) (word : Text) :
      Derives .operand [(offset, .name word)] (.name offset word)
  /-- An expression in parentheses has the tree of the expression. -/
  | group (start close : Nat) {tokens : Tokens} {expr : Expr} (inner : Derives .sum tokens expr) :
      Derives .operand ((start, .openParen) :: tokens ++ [(close, .closeParen)]) expr
  /-- A call of a function. -/
  | call (offset start close : Nat) (function : Text) {tokens : Tokens} {exprs : List Expr}
      (arguments : Derives .arguments tokens exprs) :
      Derives .operand
        ((offset, .name function) :: (start, .openParen) :: tokens ++ [(close, .closeParen)])
        (.call offset function exprs)
  /-- An operand by itself. -/
  | base {tokens : Tokens} {expr : Expr} (operand : Derives .operand tokens expr) :
      Derives .power tokens expr
  /-- A power. -/
  | power (offset : Nat) {tokens tokens' : Tokens} {left right : Expr}
      (base : Derives .operand tokens left) (exponent : Derives .signed tokens' right) :
      Derives .power (tokens ++ (offset, .power) :: tokens') (.power left right)
  /-- A power by itself. -/
  | unsigned {tokens : Tokens} {expr : Expr} (power : Derives .power tokens expr) :
      Derives .signed tokens expr
  /-- A minus before something. -/
  | minus (offset : Nat) {tokens : Tokens} {expr : Expr} (operand : Derives .signed tokens expr) :
      Derives .signed ((offset, .operator .sub) :: tokens) (.negate expr)
  /-- A plus before something leaves no trace. -/
  | noted (offset : Nat) {tokens : Tokens} {expr : Expr} (operand : Derives .signed tokens expr) :
      Derives .signed ((offset, .operator .add) :: tokens) expr
  /-- A first factor. -/
  | factor {tokens : Tokens} {expr : Expr} (signed : Derives .signed tokens expr) :
      Derives .product tokens expr
  /-- A quotient or a product. -/
  | times (offset : Nat) (divide : Bool) {tokens tokens' : Tokens} {left right : Expr}
      (product : Derives .product tokens left) (signed : Derives .signed tokens' right) :
      Derives .product (tokens ++ (offset, .operator (Phrase.factorOperator divide)) :: tokens')
        (.binary (Phrase.factorOperator divide) left right)
  /-- A first term. -/
  | term {tokens : Tokens} {expr : Expr} (product : Derives .product tokens expr) :
      Derives .sum tokens expr
  /-- A difference or a sum. -/
  | plus (offset : Nat) (minus : Bool) {tokens tokens' : Tokens} {left right : Expr}
      (sum : Derives .sum tokens left) (product : Derives .product tokens' right) :
      Derives .sum (tokens ++ (offset, .operator (Phrase.termOperator minus)) :: tokens')
        (.binary (Phrase.termOperator minus) left right)
  /-- The last argument of a call. -/
  | last {tokens : Tokens} {expr : Expr} (argument : Derives .sum tokens expr) :
      Derives .arguments tokens [expr]
  /-- An argument with others behind it. -/
  | more (offset : Nat) {tokens tokens' : Tokens} {expr : Expr} {exprs : List Expr}
      (argument : Derives .sum tokens expr) (later : Derives .arguments tokens' exprs) :
      Derives .arguments (tokens ++ (offset, .comma) :: tokens') (expr :: exprs)

/-- What holds of the tokens of an expression, wherever they stand: whatever is kept by all
ways to put tokens together. -/
theorem Derives.kinds_induction {motive : List Token → Prop} (nil : motive [])
    (number : ∀ value, motive [.number value]) (name : ∀ word, motive [.name word])
    (joint : ∀ before token after, token.isJoint = true → motive before → motive after →
      motive (before ++ token :: after))
    (group : ∀ inner, motive inner → motive (.openParen :: inner ++ [.closeParen]))
    (call : ∀ function inner, motive inner →
      motive (.name function :: .openParen :: inner ++ [.closeParen]))
    {level : Level} {tokens : Tokens} {result : level.Meaning Expr}
    (h : Derives level tokens result) : motive (tokens.map Prod.snd) := by
  have happend : ∀ (before after : Tokens) (offset : Nat) (token : Token), token.isJoint = true →
      motive (before.map Prod.snd) → motive (after.map Prod.snd) →
      motive ((before ++ (offset, token) :: after).map Prod.snd) := by
    intro before after offset token htoken hbefore hafter
    rw [List.map_append, List.map_cons]
    exact joint _ token _ htoken hbefore hafter
  induction h with
  | number offset value => exact number value
  | name offset word => exact name word
  | group start close _ ih => simpa using group _ ih
  | call offset start close function _ ih => simpa using call function _ ih
  | base _ ih | unsigned _ ih | factor _ ih | term _ ih | last _ ih => exact ih
  | minus offset _ ih => exact happend [] _ offset _ rfl nil ih
  | noted offset _ ih => exact happend [] _ offset _ rfl nil ih
  | power offset _ _ ihl ihr => exact happend _ _ offset _ rfl ihl ihr
  | times offset divide _ _ ihl ihr => exact happend _ _ offset _ rfl ihl ihr
  | plus offset minus _ _ ihl ihr => exact happend _ _ offset _ rfl ihl ihr
  | more offset _ _ ihl ihr => exact happend _ _ offset _ rfl ihl ihr

/-- How tightly the next token binds. -/
def nextBinding : Tokens → Nat
  | [] => 0
  | (_, token) :: _ => token.binding

/-! ### What is read is in the grammar -/

/-- The tree is written in the tokens before the rest. -/
def Takes (level : Level) (tokens : Tokens) (result : level.Meaning Expr) (rest : Tokens) : Prop :=
  ∃ read, tokens = read ++ rest ∧ Derives level read result

variable {stop : Nat}

theorem of_closing_eq_ok {α : Type} {complete : List Expr} {result result' : α}
    {tokens rest : Tokens} (h : closing stop complete result tokens = .ok (result', rest)) :
    result' = result ∧ ∃ offset, tokens = (offset, .closeParen) :: rest := by
  unfold closing at h
  split at h
  next offset later =>
    cases h
    exact ⟨rfl, offset, rfl⟩
  next => cases h

/-- With the given fuel every reader stays in the grammar. The loops over further terms
and factors go on from what stands before them. -/
structure Sound (stop fuel : Nat) : Prop where
  sum : ∀ {tokens expr rest}, readSum stop fuel tokens = .ok (expr, rest) →
    Takes .sum tokens expr rest
  terms : ∀ {before left tokens expr rest}, Derives .sum before left →
    readTerms stop fuel left tokens = .ok (expr, rest) → Takes .sum (before ++ tokens) expr rest
  product : ∀ {tokens expr rest}, readProduct stop fuel tokens = .ok (expr, rest) →
    Takes .product tokens expr rest
  factors : ∀ {before left tokens expr rest}, Derives .product before left →
    readFactors stop fuel left tokens = .ok (expr, rest) →
      Takes .product (before ++ tokens) expr rest
  signed : ∀ {tokens expr rest}, readSigned stop fuel tokens = .ok (expr, rest) →
    Takes .signed tokens expr rest
  power : ∀ {tokens expr rest}, readPower stop fuel tokens = .ok (expr, rest) →
    Takes .power tokens expr rest
  operand : ∀ {tokens expr rest}, readOperand stop fuel tokens = .ok (expr, rest) →
    Takes .operand tokens expr rest
  arguments : ∀ {tokens exprs rest}, readArguments stop fuel tokens = .ok (exprs, rest) →
    Takes .arguments tokens exprs rest

namespace Sound

variable {fuel : Nat} (ih : Sound stop fuel)
include ih

theorem readSum_succ {tokens rest : Tokens} {expr : Expr}
    (h : readSum stop (fuel + 1) tokens = .ok (expr, rest)) : Takes .sum tokens expr rest := by
  rw [readSum] at h
  obtain ⟨⟨left, later⟩, hleft, hterms⟩ := bind_eq_ok_iff.1 h
  obtain ⟨read, rfl, hread⟩ := ih.product hleft
  exact ih.terms (.term hread) hterms

theorem readTerms_succ {before tokens rest : Tokens} {left expr : Expr}
    (hbefore : Derives .sum before left)
    (h : readTerms stop (fuel + 1) left tokens = .ok (expr, rest)) :
    Takes .sum (before ++ tokens) expr rest := by
  -- one more term with the operator of the token, then the loop goes on behind it
  have hstep : ∀ (offset : Nat) (minus : Bool) (tokens : Tokens),
      (after [left] (readProduct stop fuel tokens) >>= fun result =>
        readTerms stop fuel (.binary (Phrase.termOperator minus) left result.1) result.2) =
          .ok (expr, rest) →
      Takes .sum (before ++ (offset, .operator (Phrase.termOperator minus)) :: tokens) expr rest
        := by
    intro offset minus tokens h
    obtain ⟨⟨right, later⟩, hright, hterms⟩ := bind_eq_ok_iff.1 h
    obtain ⟨read, rfl, hread⟩ := ih.product (mapError_eq_ok_iff.1 hright)
    have htakes := ih.terms (.plus offset minus hbefore hread) hterms
    rwa [List.append_assoc] at htakes
  rw [readTerms.eq_def] at h
  dsimp only at h
  split at h
  next offset later => exact hstep offset false later h
  next offset later => exact hstep offset true later h
  next =>
    cases h
    exact ⟨before, rfl, hbefore⟩

theorem readProduct_succ {tokens rest : Tokens} {expr : Expr}
    (h : readProduct stop (fuel + 1) tokens = .ok (expr, rest)) :
    Takes .product tokens expr rest := by
  rw [readProduct] at h
  obtain ⟨⟨left, later⟩, hleft, hfactors⟩ := bind_eq_ok_iff.1 h
  obtain ⟨read, rfl, hread⟩ := ih.signed hleft
  exact ih.factors (.factor hread) hfactors

theorem readFactors_succ {before tokens rest : Tokens} {left expr : Expr}
    (hbefore : Derives .product before left)
    (h : readFactors stop (fuel + 1) left tokens = .ok (expr, rest)) :
    Takes .product (before ++ tokens) expr rest := by
  have hstep : ∀ (offset : Nat) (divide : Bool) (tokens : Tokens),
      (after [left] (readSigned stop fuel tokens) >>= fun result =>
        readFactors stop fuel (.binary (Phrase.factorOperator divide) left result.1) result.2) =
          .ok (expr, rest) →
      Takes .product (before ++ (offset, .operator (Phrase.factorOperator divide)) :: tokens)
        expr rest := by
    intro offset divide tokens h
    obtain ⟨⟨right, later⟩, hright, hfactors⟩ := bind_eq_ok_iff.1 h
    obtain ⟨read, rfl, hread⟩ := ih.signed (mapError_eq_ok_iff.1 hright)
    have htakes := ih.factors (.times offset divide hbefore hread) hfactors
    rwa [List.append_assoc] at htakes
  rw [readFactors.eq_def] at h
  dsimp only at h
  split at h
  next offset later => exact hstep offset false later h
  next offset later => exact hstep offset true later h
  next =>
    cases h
    exact ⟨before, rfl, hbefore⟩

theorem readSigned_succ {tokens rest : Tokens} {expr : Expr}
    (h : readSigned stop (fuel + 1) tokens = .ok (expr, rest)) :
    Takes .signed tokens expr rest := by
  rw [readSigned.eq_def] at h
  dsimp only at h
  split at h
  next offset later =>
    obtain ⟨⟨operand, later'⟩, hoperand, hresult⟩ := bind_eq_ok_iff.1 h
    cases hresult
    obtain ⟨read, rfl, hread⟩ := ih.signed hoperand
    exact ⟨_, rfl, .minus offset hread⟩
  next offset later =>
    obtain ⟨read, rfl, hread⟩ := ih.signed h
    exact ⟨_, rfl, .noted offset hread⟩
  next =>
    obtain ⟨read, rfl, hread⟩ := ih.power h
    exact ⟨read, rfl, .unsigned hread⟩

theorem readPower_succ {tokens rest : Tokens} {expr : Expr}
    (h : readPower stop (fuel + 1) tokens = .ok (expr, rest)) :
    Takes .power tokens expr rest := by
  rw [readPower] at h
  obtain ⟨⟨base, later⟩, hbase, hresult⟩ := bind_eq_ok_iff.1 h
  obtain ⟨read, rfl, hread⟩ := ih.operand hbase
  dsimp only at hresult
  split at hresult
  next offset behind =>
    obtain ⟨⟨exponent, behind'⟩, hexponent, hresult⟩ := bind_eq_ok_iff.1 hresult
    cases hresult
    obtain ⟨read', rfl, hread'⟩ := ih.signed (mapError_eq_ok_iff.1 hexponent)
    exact ⟨_, by rw [List.append_assoc]; rfl, .power offset hread hread'⟩
  next =>
    cases hresult
    exact ⟨read, rfl, .base hread⟩

theorem readOperand_succ {tokens rest : Tokens} {expr : Expr}
    (h : readOperand stop (fuel + 1) tokens = .ok (expr, rest)) :
    Takes .operand tokens expr rest := by
  rw [readOperand.eq_def] at h
  dsimp only at h
  split at h
  next => cases h
  next offset value later =>
    cases h
    exact ⟨_, rfl, .number offset value⟩
  next start later =>
    obtain ⟨⟨inner, later'⟩, hinner, hclosing⟩ := bind_eq_ok_iff.1 h
    obtain ⟨read, rfl, hread⟩ := ih.sum hinner
    obtain ⟨rfl, close, rfl⟩ := of_closing_eq_ok hclosing
    exact ⟨_, by simp, .group start close hread⟩
  next offset word start later =>
    obtain ⟨⟨arguments, later'⟩, harguments, hclosing⟩ := bind_eq_ok_iff.1 h
    obtain ⟨read, rfl, hread⟩ := ih.arguments harguments
    obtain ⟨rfl, close, rfl⟩ := of_closing_eq_ok hclosing
    exact ⟨_, by simp, .call offset start close word hread⟩
  next offset word later _ =>
    cases h
    exact ⟨_, rfl, .name offset word⟩
  next => cases h

theorem readArguments_succ {tokens rest : Tokens} {exprs : List Expr}
    (h : readArguments stop (fuel + 1) tokens = .ok (exprs, rest)) :
    Takes .arguments tokens exprs rest := by
  rw [readArguments] at h
  obtain ⟨⟨first, later⟩, hfirst, hresult⟩ := bind_eq_ok_iff.1 h
  obtain ⟨read, rfl, hread⟩ := ih.sum hfirst
  dsimp only at hresult
  split at hresult
  next offset behind =>
    obtain ⟨⟨others, behind'⟩, hothers, hresult⟩ := bind_eq_ok_iff.1 hresult
    cases hresult
    obtain ⟨read', rfl, hread'⟩ := ih.arguments (mapError_eq_ok_iff.1 hothers)
    exact ⟨_, by rw [List.append_assoc]; rfl, .more offset hread hread'⟩
  next =>
    cases hresult
    exact ⟨read, rfl, .last hread⟩

end Sound

/-- The readers stay in the grammar, whatever fuel they have. -/
theorem sound (stop fuel : Nat) : Sound stop fuel := by
  induction fuel with
  | zero =>
      constructor
      case terms => intro _ _ _ _ _ _ h; rw [readTerms] at h; cases h
      case factors => intro _ _ _ _ _ _ h; rw [readFactors] at h; cases h
      case sum => intro _ _ _ h; rw [readSum] at h; cases h
      case product => intro _ _ _ h; rw [readProduct] at h; cases h
      case signed => intro _ _ _ h; rw [readSigned] at h; cases h
      case power => intro _ _ _ h; rw [readPower] at h; cases h
      case operand => intro _ _ _ h; rw [readOperand] at h; cases h
      case arguments => intro _ _ _ h; rw [readArguments] at h; cases h
  | succ fuel ih =>
      exact
        { sum := ih.readSum_succ
          terms := ih.readTerms_succ
          product := ih.readProduct_succ
          factors := ih.readFactors_succ
          signed := ih.readSigned_succ
          power := ih.readPower_succ
          operand := ih.readOperand_succ
          arguments := ih.readArguments_succ }

/-! ### What is in the grammar is read -/

theorem readFactors_stop {fuel : Nat} (hfuel : 0 < fuel) (left : Expr) {rest : Tokens}
    (hrest : nextBinding rest < 2) : readFactors stop fuel left rest = .ok (left, rest) := by
  obtain ⟨fuel, rfl⟩ := Nat.exists_eq_succ_of_ne_zero (Nat.pos_iff_ne_zero.1 hfuel)
  unfold readFactors
  split
  · exact absurd hrest (by simp [nextBinding, Token.binding])
  · exact absurd hrest (by simp [nextBinding, Token.binding])
  · rfl

theorem readTerms_stop {fuel : Nat} (hfuel : 0 < fuel) (left : Expr) {rest : Tokens}
    (hrest : nextBinding rest < 1) : readTerms stop fuel left rest = .ok (left, rest) := by
  obtain ⟨fuel, rfl⟩ := Nat.exists_eq_succ_of_ne_zero (Nat.pos_iff_ne_zero.1 hfuel)
  unfold readTerms
  split
  · exact absurd hrest (by simp [nextBinding, Token.binding])
  · exact absurd hrest (by simp [nextBinding, Token.binding])
  · rfl

/-- The tokens are read as the tree, at their own level and with enough fuel, whatever
follows that binds less. A sum or product uses fuel for each of its links. -/
def Reads (stop : Nat) : (level : Level) → Tokens → level.Meaning Expr → Prop
  | .operand, tokens, expr => ∀ fuel rest, 8 * tokens.length ≤ fuel + 7 → nextBinding rest < 5 →
      readOperand stop fuel (tokens ++ rest) = .ok (expr, rest)
  | .power, tokens, expr => ∀ fuel rest, 8 * tokens.length ≤ fuel + 6 → nextBinding rest < 4 →
      readPower stop fuel (tokens ++ rest) = .ok (expr, rest)
  | .signed, tokens, expr => ∀ fuel rest, 8 * tokens.length ≤ fuel + 5 → nextBinding rest < 4 →
      readSigned stop fuel (tokens ++ rest) = .ok (expr, rest)
  | .product, tokens, expr => ∃ links, 0 < links ∧ links ≤ tokens.length ∧
      ∀ fuel rest, 8 * tokens.length ≤ fuel + 4 → nextBinding rest < 4 →
        readProduct stop fuel (tokens ++ rest) = readFactors stop (fuel - links) expr rest
  | .sum, tokens, expr => ∃ links, 0 < links ∧ links ≤ tokens.length ∧
      ∀ fuel rest, 8 * tokens.length ≤ fuel + 3 → nextBinding rest < 2 →
        readSum stop fuel (tokens ++ rest) = readTerms stop (fuel - links) expr rest
  | .arguments, tokens, exprs => ∀ fuel close rest, 8 * tokens.length ≤ fuel + 2 →
      readArguments stop fuel (tokens ++ (close, .closeParen) :: rest) =
        .ok (exprs, (close, .closeParen) :: rest)

theorem Reads.product {tokens rest : Tokens} {expr : Expr} (h : Reads stop .product tokens expr)
    {fuel : Nat} (hfuel : 8 * tokens.length ≤ fuel + 4) (hrest : nextBinding rest < 2) :
    readProduct stop fuel (tokens ++ rest) = .ok (expr, rest) := by
  obtain ⟨links, hpos, hlinks, hread⟩ := h
  rw [hread fuel rest hfuel (by omega), readFactors_stop (by omega) _ hrest]

theorem Reads.sum {tokens rest : Tokens} {expr : Expr} (h : Reads stop .sum tokens expr)
    {fuel : Nat} (hfuel : 8 * tokens.length ≤ fuel + 3) (hrest : nextBinding rest < 1) :
    readSum stop fuel (tokens ++ rest) = .ok (expr, rest) := by
  obtain ⟨links, hpos, hlinks, hread⟩ := h
  rw [hread fuel rest hfuel (by omega), readTerms_stop (by omega) _ hrest]

namespace Derives

variable {level : Level} {tokens : Tokens} {result : level.Meaning Expr}

/-- There is a first token; of an operand or a power it is no operator. -/
theorem exists_cons (h : Derives level tokens result) :
    ∃ offset token later, tokens = (offset, token) :: later ∧
      (level = .operand ∨ level = .power → ∀ op, token ≠ .operator op) := by
  induction h with
  | number offset value => exact ⟨_, _, _, rfl, by simp⟩
  | name offset word => exact ⟨_, _, _, rfl, by simp⟩
  | group start close inner ih => exact ⟨_, _, _, rfl, by simp⟩
  | call offset start close function arguments ih => exact ⟨_, _, _, rfl, by simp⟩
  | base operand ih =>
      obtain ⟨offset, token, later, rfl, hop⟩ := ih
      exact ⟨_, _, _, rfl, fun _ => hop (.inl rfl)⟩
  | power position base exponent ih _ =>
      obtain ⟨offset, token, later, rfl, hop⟩ := ih
      exact ⟨_, _, _, rfl, fun _ => hop (.inl rfl)⟩
  | unsigned power ih =>
      obtain ⟨offset, token, later, rfl, hop⟩ := ih
      exact ⟨_, _, _, rfl, by simp⟩
  | minus offset operand ih => exact ⟨_, _, _, rfl, by simp⟩
  | noted offset operand ih => exact ⟨_, _, _, rfl, by simp⟩
  | factor signed ih | term signed ih | last signed ih =>
      obtain ⟨offset, token, later, rfl, hop⟩ := ih
      exact ⟨_, _, _, rfl, by simp⟩
  | times position divide product signed ih _ =>
      obtain ⟨offset, token, later, rfl, hop⟩ := ih
      exact ⟨_, _, _, rfl, by simp⟩
  | plus position minus sum product ih _ =>
      obtain ⟨offset, token, later, rfl, hop⟩ := ih
      exact ⟨_, _, _, rfl, by simp⟩
  | more position argument laterArguments ih _ =>
      obtain ⟨offset, token, later, rfl, hop⟩ := ih
      exact ⟨_, _, _, rfl, by simp⟩

theorem length_pos (h : Derives level tokens result) : 0 < tokens.length := by
  obtain ⟨offset, token, later, rfl, -⟩ := h.exists_cons
  exact Nat.succ_pos _

/-- What the grammar has a tree for is read as that tree. -/
theorem reads (stop : Nat) (h : Derives level tokens result) : Reads stop level tokens result := by
  -- each level spends one unit of fuel on its way down, and the tokens allow for all
  induction h with
  | number offset value =>
      intro fuel rest hfuel hrest
      obtain ⟨fuel, rfl⟩ : ∃ k, fuel = k + 1 :=
        ⟨fuel - 1, by simp only [List.length_singleton] at hfuel; omega⟩
      rfl
  | name offset word =>
      intro fuel rest hfuel hrest
      obtain ⟨fuel, rfl⟩ : ∃ k, fuel = k + 1 :=
        ⟨fuel - 1, by simp only [List.length_singleton] at hfuel; omega⟩
      cases rest with
      | nil => rfl
      | cons next rest =>
          obtain ⟨position, token⟩ := next
          cases token with
          | openParen => exact absurd hrest (by simp [nextBinding, Token.binding])
          | _ => rfl
  | group start close inner ih =>
      intro fuel rest hfuel hrest
      simp only [List.length_append, List.length_cons, List.length_nil] at hfuel
      obtain ⟨fuel, rfl⟩ : ∃ k, fuel = k + 1 := ⟨fuel - 1, by omega⟩
      simp only [List.cons_append, List.append_assoc, List.nil_append]
      rw [readOperand, Reads.sum ih (by omega) (by simp [nextBinding, Token.binding])]
      rfl
  | call offset start close function arguments ih =>
      intro fuel rest hfuel hrest
      simp only [List.length_append, List.length_cons, List.length_nil] at hfuel
      obtain ⟨fuel, rfl⟩ : ∃ k, fuel = k + 1 := ⟨fuel - 1, by omega⟩
      simp only [List.cons_append, List.append_assoc, List.nil_append]
      rw [readOperand, ih fuel close rest (by omega)]
      rfl
  | base operand ih =>
      intro fuel rest hfuel hrest
      obtain ⟨fuel, rfl⟩ : ∃ k, fuel = k + 1 :=
        ⟨fuel - 1, by have := operand.length_pos; omega⟩
      rw [readPower, ih fuel rest (by omega) (by omega)]
      cases rest with
      | nil => rfl
      | cons next rest =>
          obtain ⟨position, token⟩ := next
          cases token with
          | power => exact absurd hrest (by simp [nextBinding, Token.binding])
          | _ => rfl
  | power position base exponent ihl ihr =>
      intro fuel rest hfuel hrest
      simp only [List.length_append, List.length_cons] at hfuel
      obtain ⟨fuel, rfl⟩ : ∃ k, fuel = k + 1 := ⟨fuel - 1, by omega⟩
      rw [List.append_assoc, List.cons_append, readPower,
        ihl fuel _ (by omega) (by simp [nextBinding, Token.binding])]
      have hright := ihr fuel rest (by omega) hrest
      change (after [_] _ >>= _) = _
      rw [hright]
      rfl
  | unsigned power ih =>
      intro fuel rest hfuel hrest
      obtain ⟨fuel, rfl⟩ : ∃ k, fuel = k + 1 :=
        ⟨fuel - 1, by have := power.length_pos; omega⟩
      have hread := ih fuel rest (by omega) hrest
      obtain ⟨position, token, later, rfl, hop⟩ := power.exists_cons
      rw [List.cons_append] at hread ⊢
      cases token with
      | operator op => exact absurd rfl (hop (.inr rfl) op)
      | _ => exact hread
  | minus offset operand ih =>
      intro fuel rest hfuel hrest
      simp only [List.length_cons] at hfuel
      obtain ⟨fuel, rfl⟩ : ∃ k, fuel = k + 1 := ⟨fuel - 1, by omega⟩
      rw [List.cons_append, readSigned, ih fuel rest (by omega) hrest]
      rfl
  | noted offset operand ih =>
      intro fuel rest hfuel hrest
      simp only [List.length_cons] at hfuel
      obtain ⟨fuel, rfl⟩ : ∃ k, fuel = k + 1 := ⟨fuel - 1, by omega⟩
      rw [List.cons_append, readSigned, ih fuel rest (by omega) hrest]
  | factor signed ih =>
      refine ⟨1, Nat.one_pos, signed.length_pos, fun fuel rest hfuel hrest => ?_⟩
      obtain ⟨fuel, rfl⟩ : ∃ k, fuel = k + 1 :=
        ⟨fuel - 1, by have := signed.length_pos; omega⟩
      rw [readProduct, ih fuel rest (by omega) hrest]
      rfl
  | times position divide product signed ihl ihr =>
      obtain ⟨links, hpos, hlinks, hleft⟩ := ihl
      refine ⟨links + 1, Nat.succ_pos _, ?_, fun fuel rest hfuel hrest => ?_⟩
      · simp only [List.length_append, List.length_cons]
        omega
      simp only [List.length_append, List.length_cons] at hfuel
      rw [List.append_assoc, List.cons_append, hleft fuel _ (by omega) (by
        cases divide <;> simp [nextBinding, Token.binding, Phrase.factorOperator])]
      obtain ⟨more, hmore⟩ : ∃ k, fuel - links = k + 1 := ⟨fuel - links - 1, by omega⟩
      have hright := ihr more rest (by omega) hrest
      rw [hmore, show fuel - (links + 1) = more by omega]
      cases divide with
      | false =>
          simp only [Phrase.factorOperator, Bool.false_eq_true, if_false]
          rw [readFactors, hright]
          rfl
      | true =>
          simp only [Phrase.factorOperator, if_true]
          rw [readFactors, hright]
          rfl
  | term product ih =>
      refine ⟨1, Nat.one_pos, product.length_pos, fun fuel rest hfuel hrest => ?_⟩
      obtain ⟨fuel, rfl⟩ : ∃ k, fuel = k + 1 :=
        ⟨fuel - 1, by have := product.length_pos; omega⟩
      rw [readSum, Reads.product ih (by omega) hrest]
      rfl
  | plus position minus sum product ihl ihr =>
      obtain ⟨links, hpos, hlinks, hleft⟩ := ihl
      refine ⟨links + 1, Nat.succ_pos _, ?_, fun fuel rest hfuel hrest => ?_⟩
      · simp only [List.length_append, List.length_cons]
        omega
      simp only [List.length_append, List.length_cons] at hfuel
      rw [List.append_assoc, List.cons_append, hleft fuel _ (by omega) (by
        cases minus <;> simp [nextBinding, Token.binding, Phrase.termOperator])]
      obtain ⟨more, hmore⟩ : ∃ k, fuel - links = k + 1 := ⟨fuel - links - 1, by omega⟩
      have hright := Reads.product ihr (by omega : _ ≤ more + 4) hrest
      rw [hmore, show fuel - (links + 1) = more by omega]
      cases minus with
      | false =>
          simp only [Phrase.termOperator, Bool.false_eq_true, if_false]
          rw [readTerms, hright]
          rfl
      | true =>
          simp only [Phrase.termOperator, if_true]
          rw [readTerms, hright]
          rfl
  | last argument ih =>
      intro fuel close rest hfuel
      obtain ⟨fuel, rfl⟩ : ∃ k, fuel = k + 1 :=
        ⟨fuel - 1, by have := argument.length_pos; omega⟩
      rw [readArguments, Reads.sum ih (by omega) (by simp [nextBinding, Token.binding])]
      rfl
  | more position argument later iha ihl =>
      intro fuel close rest hfuel
      simp only [List.length_append, List.length_cons] at hfuel
      have hpos := later.length_pos
      obtain ⟨fuel, rfl⟩ : ∃ k, fuel = k + 1 := ⟨fuel - 1, by omega⟩
      have hlater := ihl fuel close rest (by omega)
      rw [List.append_assoc, List.cons_append, readArguments,
        Reads.sum iha (by omega) (by simp [nextBinding, Token.binding])]
      change (after [_] _ >>= _) = _
      rw [hlater]
      rfl

end Derives

/-- Tokens are read as a tree exactly if the grammar has that tree for them. -/
theorem ofTokens_eq_ok_iff {tokens : Tokens} {expr : Expr} :
    ofTokens stop tokens = .ok expr ↔ Derives .sum tokens expr := by
  constructor
  · intro h
    unfold ofTokens at h
    obtain ⟨⟨expr', rest⟩, hread, hresult⟩ := bind_eq_ok_iff.1 h
    obtain ⟨read, rfl, hderives⟩ := (sound stop _).sum hread
    dsimp only at hresult
    split at hresult
    next =>
      cases hresult
      rwa [List.append_nil]
    next => cases hresult
  · intro h
    have hread : readSum stop (8 * (tokens.length + 1)) (tokens ++ []) = .ok (expr, []) :=
      Reads.sum (h.reads stop) (by omega) (by simp [nextBinding])
    rw [List.append_nil] at hread
    unfold ofTokens
    rw [hread]
    rfl

end Expr

/-- A text has a value exactly if its tokens have a tree with that value. -/
theorem evalText_eq_ok_iff {env : Environment} {s : Text} {value : Value} :
    evalText env s = .ok value ↔ ∃ tokens expr, Token.scan s = .ok tokens ∧
      Expr.Derives .sum tokens expr ∧ expr.eval env = .ok value := by
  unfold evalText
  rw [bind_eq_ok_iff]
  refine exists_congr fun tokens => ?_
  constructor
  · rintro ⟨htokens, hvalue⟩
    split at hvalue
    next expr hexpr => exact ⟨expr, htokens, Expr.ofTokens_eq_ok_iff.1 hexpr, hvalue⟩
    next =>
      obtain ⟨_, _, hvalue⟩ := bind_eq_ok_iff.1 hvalue
      cases hvalue
  · rintro ⟨expr, htokens, hderives, hvalue⟩
    refine ⟨htokens, ?_⟩
    rw [Expr.ofTokens_eq_ok_iff.2 hderives]
    exact hvalue

end OdeModel
