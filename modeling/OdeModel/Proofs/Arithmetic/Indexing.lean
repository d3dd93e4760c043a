import OdeModel.Proofs.Arithmetic.Bounds
import OdeModel.Proofs.Arithmetic.Numerals
import OdeModel.Proofs.Text.Replacing
import Mathlib.Data.List.Chain

/-!
# Expressions with an index in place of the variable

The index is written as its digits, after a minus sign when it is negative. In the tokens of
an expression it takes the place of the variable, and two operands never stand side by side,
so nothing grows together. A negative index is an operand with a sign: it has the value of
the variable wherever a signed operand may stand, so anywhere but as the base of a power.
-/

namespace OdeModel

namespace Token

/-- A number or a name. -/
def isOperand : Token → Bool
  | number _ | name _ => true
  | _ => false

/-- The name that is the given word. -/
def isName (word : Text) : Token → Bool
  | name text => text == word
  | _ => false

/-- The sign of a power. -/
def isPower : Token → Bool
  | power => true
  | _ => false

/-- Two tokens side by side are not both operands. -/
def Apart (token next : Token) : Prop := token.isOperand = true → next.isOperand = false

/-- The tokens of an index in text. -/
def ofIndex (index : Int) : List Token :=
  if index < 0 then [operator .sub, number (.whole index.natAbs)]
  else [number (.whole index.natAbs)]

/-- A token with the index in place of the variable. -/
def withIndex (variableName : Text) (index : Int) (token : Token) : List Token :=
  if token.isName variableName then ofIndex index else [token]

/-- The index can stand for its value wherever the tokens name the variable. -/
structure TakesIndex (variableName : Text) (index : Int) (tokens : List Token) : Prop where
  /-- The digits of the smallest whole number are no literal. -/
  digits : index = Value.smallest → ∀ token ∈ tokens, token.isName variableName = false
  /-- The sign of a negative index would be that of the power. -/
  sign : index < 0 → tokens.IsChain fun token next =>
    (token.isName variableName && next.isPower) = false

variable {variableName : Text} {index : Int}

instance (tokens : List Token) : Decidable (TakesIndex variableName index tokens) :=
  decidable_of_iff ((index = Value.smallest → ∀ token ∈ tokens, token.isName variableName = false) ∧
      (index < 0 → tokens.IsChain fun token next =>
        (token.isName variableName && next.isPower) = false))
    ⟨fun h => ⟨h.1, h.2⟩, fun h => ⟨h.digits, h.sign⟩⟩

theorem isName_eq_false {word : Text} (h : word ≠ variableName) :
    (name word).isName variableName = false :=
  beq_eq_false_iff_ne.2 h

theorem withIndex_of_not_isName {token : Token} (h : token.isName variableName = false) :
    withIndex variableName index token = [token] := by
  rw [withIndex, if_neg (by simp [h])]

theorem withIndex_of_eq {word : Text} (h : word = variableName) :
    withIndex variableName index (name word) = ofIndex index :=
  if_pos (beq_iff_eq.2 h)

theorem TakesIndex.of_isInfix {tokens part : List Token} (h : TakesIndex variableName index tokens)
    (hpart : part <:+: tokens) : TakesIndex variableName index part where
  digits hindex token hmem := h.digits hindex token (hpart.mem hmem)
  sign hindex := List.IsChain.infix (h.sign hindex) hpart

theorem TakesIndex.tail {first : Nat × Token} {later : List (Nat × Token)}
    (h : TakesIndex variableName index ((first :: later).map Prod.snd)) :
    TakesIndex variableName index (later.map Prod.snd) :=
  h.of_isInfix (List.suffix_cons _ _).isInfix

theorem TakesIndex.parts {before after : List (Nat × Token)} {offset : Nat} {token : Token}
    (h : TakesIndex variableName index ((before ++ (offset, token) :: after).map Prod.snd)) :
    TakesIndex variableName index (before.map Prod.snd) ∧
      TakesIndex variableName index (after.map Prod.snd) := by
  rw [List.map_append, List.map_cons] at h
  exact ⟨h.of_isInfix (List.prefix_append _ _).isInfix,
    h.of_isInfix ((List.suffix_cons _ _).trans (List.suffix_append _ _)).isInfix⟩

end Token

namespace Expr

open Token

/-- Operands are kept apart by operators, brackets and commas. -/
theorem Derives.apart {level : Level} {tokens : Tokens} {result : level.Meaning Expr}
    (h : Derives level tokens result) : (tokens.map Prod.snd).IsChain Apart := by
  have hjoin : ∀ (before : List Token) (token : Token) (after : List Token),
      token.isOperand = false → before.IsChain Apart → after.IsChain Apart →
      (before ++ token :: after).IsChain Apart := by
    intro before token after htoken hbefore hafter
    rw [List.isChain_append]
    refine ⟨hbefore, hafter.cons fun _ _ h => ?_, fun _ _ next hnext _ => ?_⟩
    · rw [htoken] at h
      contradiction
    · cases Option.mem_some.1 hnext
      exact htoken
  refine h.kinds_induction (motive := fun kinds => kinds.IsChain Apart)
    ?nil ?number ?name ?joint ?group ?call
  case nil => exact .nil
  case number => exact fun _ => .singleton _
  case name => exact fun _ => .singleton _
  case joint =>
    intro before token after htoken hbefore hafter
    refine hjoin before token after ?_ hbefore hafter
    cases token <;> first | rfl | contradiction
  case group => exact fun inner ih => hjoin [] _ _ rfl .nil (hjoin inner _ [] rfl ih .nil)
  case call =>
    exact fun function inner ih =>
      hjoin [_] _ _ rfl (.singleton _) (hjoin inner _ [] rfl ih .nil)

variable {variableName : Text} {index : Int}

/-- Tokens, perhaps at other places, with the index in place of the variable. -/
def Indexes (variableName : Text) (index : Int) (tokens tokens' : Tokens) : Prop :=
  tokens'.map Prod.snd = (tokens.map Prod.snd).flatMap (withIndex variableName index)

/-- A token that is not the variable is still there, between what was before and behind it. -/
theorem Indexes.split {before after tokens' : Tokens} {offset : Nat} {token : Token}
    (htoken : token.isName variableName = false)
    (h : Indexes variableName index (before ++ (offset, token) :: after) tokens') :
    ∃ before' offset' after', tokens' = before' ++ (offset', token) :: after' ∧
      Indexes variableName index before before' ∧ Indexes variableName index after after' := by
  unfold Indexes at h
  rw [List.map_append, List.map_cons, List.flatMap_append, List.flatMap_cons,
    withIndex_of_not_isName htoken, List.map_eq_append_iff] at h
  obtain ⟨before', rest, rfl, hbefore, hrest⟩ := h
  obtain ⟨⟨offset', token'⟩, after', rfl, rfl, hafter⟩ := List.map_eq_cons_iff.1 hrest
  exact ⟨before', offset', after', rfl, hbefore, hafter⟩

theorem Indexes.eq_nil {tokens' : Tokens} (h : Indexes variableName index [] tokens') :
    tokens' = [] :=
  List.map_eq_nil_iff.1 h

/-- A first token that is not the variable is still the first one. -/
theorem Indexes.head {after tokens' : Tokens} {offset : Nat} {token : Token}
    (htoken : token.isName variableName = false)
    (h : Indexes variableName index ((offset, token) :: after) tokens') :
    ∃ offset' after', tokens' = (offset', token) :: after' ∧
      Indexes variableName index after after' := by
  obtain ⟨before', offset', after', rfl, hbefore, hafter⟩ :=
    @Indexes.split _ _ [] _ _ _ _ htoken h
  obtain rfl := hbefore.eq_nil
  exact ⟨offset', after', rfl, hafter⟩

theorem Indexes.of_name {tokens' : Tokens} {offset : Nat}
    (h : Indexes variableName index [(offset, .name variableName)] tokens') :
    tokens'.map Prod.snd = ofIndex index := by
  refine h.trans ?_
  rw [List.map_singleton, List.flatMap_singleton, withIndex_of_eq rfl]

/-- What is enclosed by parentheses still is. -/
theorem Indexes.enclosed {inner tokens' : Tokens} {start close : Nat}
    (h : Indexes variableName index
      ((start, .openParen) :: inner ++ [(close, .closeParen)]) tokens') :
    ∃ start' close' inner', tokens' = (start', .openParen) :: inner' ++ [(close', .closeParen)] ∧
      Indexes variableName index inner inner' := by
  obtain ⟨start', rest, rfl, hrest⟩ := h.head rfl
  obtain ⟨inner', close', after, rfl, hinner, hafter⟩ := hrest.split rfl
  obtain rfl := hafter.eq_nil
  exact ⟨start', close', inner', rfl, hinner⟩

/-- A variable that stands alone is the only one to have its tree. -/
theorem Derives.eq_name {offset : Nat} {word : Text} {expr : Expr}
    (h : Derives .power [(offset, .name word)] expr) : expr = .name offset word := by
  have hread := h.reads 0 8 [] (by simp) (by simp [nextBinding])
  have hname : readPower 0 8 [(offset, .name word)] = .ok (.name offset word, []) := rfl
  exact (Prod.mk.inj (Except.ok.inj (hread.symm.trans hname))).1

theorem valueOf?_set_of_ne {value : Value} {word : Text} (h : word ≠ variableName) :
    (Environment.empty.set variableName value).valueOf? word =
      Environment.empty.valueOf? word := by
  unfold Environment.valueOf? Environment.set
  rw [if_neg h]

theorem valueOf?_set {value : Value} :
    (Environment.empty.set variableName value).valueOf? variableName = some value := by
  unfold Environment.valueOf? Environment.set
  rw [if_pos rfl]

/-- A negative index is a signed operand with its value. -/
theorem exists_signed_index (hbounded : (Value.whole index).IsBounded) (hindex : index < 0)
    {tokens' : Tokens} (h : tokens'.map Prod.snd = ofIndex index) :
    ∃ expr', Derives .signed tokens' expr' ∧ expr'.eval .empty = .ok (.whole index) := by
  rw [ofIndex, if_pos hindex] at h
  obtain ⟨⟨start, _⟩, rest, rfl, rfl, hrest⟩ := List.map_eq_cons_iff.1 h
  obtain ⟨⟨offset, _⟩, rest, rfl, rfl, hnone⟩ := List.map_eq_cons_iff.1 hrest
  obtain rfl := List.map_eq_nil_iff.1 hnone
  refine ⟨.negate (.number (.whole index.natAbs)),
    .minus start (.unsigned (.base (.number offset _))), ?_⟩
  have hneg : -(index.natAbs : Int) = index := by omega
  change Except.ok (Value.neg (.whole index.natAbs)) = _
  rw [Value.neg, hneg, Value.fit?, if_pos (show _ ∧ _ from hbounded)]
  rfl

/-- Any other index is an operand with its value. -/
theorem exists_operand_index (hindex : ¬ index < 0) {tokens' : Tokens}
    (h : tokens'.map Prod.snd = ofIndex index) :
    ∃ expr', Derives .operand tokens' expr' ∧ expr'.eval .empty = .ok (.whole index) := by
  rw [ofIndex, if_neg hindex] at h
  obtain ⟨⟨offset, _⟩, rest, rfl, rfl, hrest⟩ := List.map_eq_cons_iff.1 h
  obtain rfl := List.map_eq_nil_iff.1 hrest
  have habs : (index.natAbs : Int) = index := by omega
  exact ⟨_, .number offset _, by rw [habs]; rfl⟩

/-- Every tree is still there, with the same value, when the index takes the place of the
variable. A negative one is no operand by itself. -/
theorem Derives.exists_indexed (hbounded : (Value.whole index).IsBounded)
    (hcall : ∀ values, Value.call? variableName values = none)
    {level : Level} {tokens : Tokens} {expr : level.Meaning Expr}
    (h : Derives level tokens expr)
    (htakes : TakesIndex variableName index (tokens.map Prod.snd))
    (halone : level = .operand ∨ level = .power → index < 0 →
      tokens.map Prod.snd ≠ [.name variableName])
    {tokens' : Tokens} (hindexes : Indexes variableName index tokens tokens')
    {result : level.Meaning Value}
    (hresult : evalAt (Environment.empty.set variableName (.whole index)) level expr =
      .ok result) :
    ∃ expr', Derives level tokens' expr' ∧ evalAt .empty level expr' = .ok result := by
  induction h generalizing tokens' with
  | number offset value =>
      obtain ⟨offset', after, rfl, hafter⟩ := hindexes.head rfl
      obtain rfl := hafter.eq_nil
      exact ⟨.number value, .number offset' value, hresult⟩
  | name offset word =>
      have hvalue := eval_name_eq_ok_iff.1 hresult
      by_cases hword : word = variableName
      · subst hword
        rw [valueOf?_set] at hvalue
        cases hvalue
        exact exists_operand_index (fun hindex => halone (.inl rfl) hindex rfl) hindexes.of_name
      · obtain ⟨offset', after, rfl, hafter⟩ := hindexes.head (isName_eq_false hword)
        obtain rfl := hafter.eq_nil
        rw [valueOf?_set_of_ne hword] at hvalue
        exact ⟨.name offset' word, .name offset' word, eval_name_eq_ok_iff.2 hvalue⟩
  | group start close _ ih =>
      obtain ⟨hinner, -⟩ := htakes.tail.parts
      obtain ⟨start', close', inner', rfl, hinner'⟩ := hindexes.enclosed
      obtain ⟨expr', hexpr', hvalue⟩ := ih hinner (by simp) hinner' hresult
      exact ⟨expr', .group start' close' hexpr', hvalue⟩
  | call offset start close function _ ih =>
      obtain ⟨values, hvalues, hvalue⟩ := eval_call_eq_ok_iff.1 hresult
      have hfunction : function ≠ variableName := by
        rintro rfl
        rw [hcall] at hvalue
        cases hvalue
      obtain ⟨hinner, -⟩ := htakes.tail.tail.parts
      obtain ⟨offset', rest, rfl, hrest⟩ := hindexes.head (isName_eq_false hfunction)
      obtain ⟨start', close', inner', rfl, hinner'⟩ := hrest.enclosed
      obtain ⟨exprs', hexprs', hvalues'⟩ := ih hinner (by simp) hinner' hvalues
      exact ⟨_, .call offset' start' close' function hexprs',
        eval_call_eq_ok_iff.2 ⟨values, hvalues', hvalue⟩⟩
  | base _ ih =>
      obtain ⟨expr', hexpr', hvalue⟩ := ih htakes (fun _ => halone (.inr rfl)) hindexes hresult
      exact ⟨expr', .base hexpr', hvalue⟩
  | @power offset base _ _ _ _ _ ihl ihr =>
      obtain ⟨hleft, hright⟩ := htakes.parts
      obtain ⟨left', offset', right', rfl, hleft', hright'⟩ := hindexes.split rfl
      obtain ⟨a, ha, hresult⟩ := bind_eq_ok_iff.1 hresult
      obtain ⟨b, hb, hresult⟩ := bind_eq_ok_iff.1 hresult
      -- the sign of a negative index would be that of the power
      have hbase : index < 0 → base.map Prod.snd ≠ [.name variableName] := by
        intro hindex hname
        have hsign := htakes.sign hindex
        rw [List.map_append, hname, List.map_cons, List.singleton_append,
          List.isChain_cons_cons] at hsign
        simp [isName, isPower] at hsign
      obtain ⟨base', hbase', ha'⟩ := ihl hleft (fun _ => hbase) hleft' ha
      obtain ⟨exponent', hexponent', hb'⟩ := ihr hright (by simp) hright' hb
      exact ⟨_, .power offset' hbase' hexponent',
        bind_eq_ok_iff.2 ⟨a, ha', bind_eq_ok_iff.2 ⟨b, hb', hresult⟩⟩⟩
  | @unsigned tokens expr power ih =>
      by_cases hsign : index < 0 ∧ tokens.map Prod.snd = [.name variableName]
      · obtain ⟨hindex, hname⟩ := hsign
        obtain ⟨⟨offset, _⟩, rest, rfl, rfl, hnone⟩ := List.map_eq_cons_iff.1 hname
        obtain rfl := List.map_eq_nil_iff.1 hnone
        obtain rfl := power.eq_name
        have hvalue := eval_name_eq_ok_iff.1 hresult
        rw [valueOf?_set] at hvalue
        cases hvalue
        exact exists_signed_index hbounded hindex hindexes.of_name
      · obtain ⟨expr', hexpr', hvalue⟩ := ih htakes
          (fun _ hindex hname => hsign ⟨hindex, hname⟩) hindexes hresult
        exact ⟨expr', .unsigned hexpr', hvalue⟩
  | minus offset _ ih =>
      obtain ⟨offset', operand', rfl, hoperand'⟩ := hindexes.head rfl
      obtain ⟨a, ha, hresult⟩ := bind_eq_ok_iff.1 hresult
      obtain ⟨expr', hexpr', hvalue⟩ := ih htakes.tail (by simp) hoperand' ha
      exact ⟨_, .minus offset' hexpr', bind_eq_ok_iff.2 ⟨a, hvalue, hresult⟩⟩
  | noted offset _ ih =>
      obtain ⟨offset', operand', rfl, hoperand'⟩ := hindexes.head rfl
      obtain ⟨expr', hexpr', hvalue⟩ := ih htakes.tail (by simp) hoperand' hresult
      exact ⟨_, .noted offset' hexpr', hvalue⟩
  | factor _ ih =>
      obtain ⟨expr', hexpr', hvalue⟩ := ih htakes (by simp) hindexes hresult
      exact ⟨expr', .factor hexpr', hvalue⟩
  | times offset divide _ _ ihl ihr =>
      obtain ⟨hleft, hright⟩ := htakes.parts
      obtain ⟨left', offset', right', rfl, hleft', hright'⟩ := hindexes.split rfl
      obtain ⟨a, ha, hresult⟩ := bind_eq_ok_iff.1 hresult
      obtain ⟨b, hb, hresult⟩ := bind_eq_ok_iff.1 hresult
      obtain ⟨_, hproduct', ha'⟩ := ihl hleft (by simp) hleft' ha
      obtain ⟨_, hsigned', hb'⟩ := ihr hright (by simp) hright' hb
      exact ⟨_, .times offset' divide hproduct' hsigned',
        bind_eq_ok_iff.2 ⟨a, ha', bind_eq_ok_iff.2 ⟨b, hb', hresult⟩⟩⟩
  | term _ ih =>
      obtain ⟨expr', hexpr', hvalue⟩ := ih htakes (by simp) hindexes hresult
      exact ⟨expr', .term hexpr', hvalue⟩
  | plus offset minus _ _ ihl ihr =>
      obtain ⟨hleft, hright⟩ := htakes.parts
      obtain ⟨left', offset', right', rfl, hleft', hright'⟩ := hindexes.split rfl
      obtain ⟨a, ha, hresult⟩ := bind_eq_ok_iff.1 hresult
      obtain ⟨b, hb, hresult⟩ := bind_eq_ok_iff.1 hresult
      obtain ⟨_, hsum', ha'⟩ := ihl hleft (by simp) hleft' ha
      obtain ⟨_, hproduct', hb'⟩ := ihr hright (by simp) hright' hb
      exact ⟨_, .plus offset' minus hsum' hproduct',
        bind_eq_ok_iff.2 ⟨a, ha', bind_eq_ok_iff.2 ⟨b, hb', hresult⟩⟩⟩
  | last _ ih =>
      obtain ⟨a, ha, hresult⟩ := bind_eq_ok_iff.1 hresult
      obtain ⟨expr', hexpr', hvalue⟩ := ih htakes (by simp) hindexes ha
      exact ⟨_, .last hexpr', bind_eq_ok_iff.2 ⟨a, hvalue, hresult⟩⟩
  | more offset _ _ ihl ihr =>
      obtain ⟨hleft, hright⟩ := htakes.parts
      obtain ⟨left', offset', right', rfl, hleft', hright'⟩ := hindexes.split rfl
      obtain ⟨a, ha, hresult⟩ := bind_eq_ok_iff.1 hresult
      obtain ⟨b, hb, hresult⟩ := bind_eq_ok_iff.1 hresult
      obtain ⟨_, hargument', ha'⟩ := ihl hleft (by simp) hleft' ha
      obtain ⟨_, hlater', hb'⟩ := ihr hright (by simp) hright' hb
      exact ⟨_, .more offset' hargument' hlater',
        bind_eq_ok_iff.2 ⟨a, ha', bind_eq_ok_iff.2 ⟨b, hb', hresult⟩⟩⟩

end Expr

namespace Token

open Text

variable {variableName : Text} {index : Int}

/-- The characters that start no name and no number. -/
def StartsNothing (c : Char) : Prop := (c.isDigit || c == '.') = false ∧ isNameStart c = false

theorem startsNothing_of_isBlank {c : Char} (h : isBlank c = true) : StartsNothing c := by
  constructor <;> rw [Bool.eq_false_iff] <;> intro hc
  · rw [isBlank_of_figure hc] at h
    contradiction
  · rw [isBlank_of_isNameStart hc] at h
    contradiction

theorem startsNothing_of_single? {c : Char} {token : Token} (h : single? c = some token) :
    StartsNothing c := by
  obtain ⟨hfigure, hname⟩ := not_mem_of_isSeparator (single?_eq_some h)
  refine ⟨hfigure, ?_⟩
  rw [Bool.eq_false_iff]
  intro hc
  rw [isNameChar_of_isNameStart hc] at hname
  contradiction

theorem StartsNothing.replaceFrom_cons {c : Char} (h : StartsNothing c) (index : Text)
    (offset : Nat) (s : Text) : replaceFrom variableName index offset (c :: s) =
      c :: replaceFrom variableName index (offset + c.utf8Size) s := by
  refine Text.replaceFrom_cons offset h.2 ?_
  have hfigure := h.1
  rw [Bool.or_eq_false_iff] at hfigure
  cases s <;> simp [startsNumber, hfigure]

/-- A text whose tokens start with no operand starts with no character of one. -/
theorem Lexes.head?_startsNothing {s : Text} {tokens : List Token} (h : Lexes s tokens)
    (htokens : ∀ token ∈ tokens.head?, token.isOperand = false) :
    ∀ c ∈ s.head?, StartsNothing c := by
  intro c hc
  cases h with
  | nil => cases hc
  | blank hblank =>
      cases Option.mem_some.1 hc
      exact startsNothing_of_isBlank hblank
  | stars =>
      cases Option.mem_some.1 hc
      exact ⟨by decide, by decide⟩
  | number => cases htokens _ rfl
  | name => cases htokens _ rfl
  | single hsingle =>
      cases Option.mem_some.1 hc
      exact startsNothing_of_single? hsingle

/-- The digits of an index are cut off as one number. -/
theorem lexes_natText {n : Nat} (hn : (n : Int) ≤ Value.largest) {rest : Text}
    (hrest : rest.EndsNumber) {tokens : List Token} (h : Lexes rest tokens) :
    Lexes (natText n ++ rest) (number (.whole n) :: tokens) := by
  have hvalue : numeral? (natText n) = some (.whole n) := by
    have hlow : Value.smallest ≤ (n : Int) :=
      (show Value.smallest ≤ 0 by decide).trans (Int.natCast_nonneg n)
    rw [numeral?_natText, Value.fit?, if_pos ⟨hlow, hn⟩]
  obtain ⟨c, figures, htext⟩ := List.exists_cons_of_ne_nil (natText_ne_nil n)
  have hfigures : ∀ c ∈ natText n, (c.isDigit || c == '.') = true :=
    fun c hc => by rw [isDigit_of_mem_natText hc, Bool.true_or]
  rw [htext] at hvalue hfigures ⊢
  obtain ⟨hc, hfigures⟩ := List.forall_mem_cons.1 hfigures
  exact .number hc (spanNumeral_figures hc hfigures hrest) hvalue h

theorem lexes_intText (hindex : (index.natAbs : Int) ≤ Value.largest) {rest : Text}
    (hrest : rest.EndsNumber) {tokens : List Token} (h : Lexes rest tokens) :
    Lexes (intText index ++ rest) (ofIndex index ++ tokens) := by
  have hdigits := lexes_natText hindex hrest h
  unfold intText ofIndex
  split
  next => exact .single rfl (fun hc => absurd hc (by decide)) hdigits
  next => exact hdigits

theorem head?_intText_ne_star {s : Text} (h : intText index <+: s) : s.head? ≠ some '*' := by
  obtain ⟨later, rfl⟩ := h
  unfold intText
  split
  next => simp
  next =>
    obtain ⟨c, figures, htext⟩ := List.exists_cons_of_ne_nil (natText_ne_nil index.natAbs)
    have hc : c.isDigit = true := isDigit_of_mem_natText (htext ▸ List.mem_cons_self)
    rw [htext]
    rintro heq
    cases heq
    contradiction

/-- What follows an operand starts with no character of one, also after replacing. -/
theorem Lexes.behind_operand {s : Text} {token : Token} {tokens : List Token}
    (h : Lexes s tokens) (hapart : (token :: tokens).IsChain Apart)
    (htoken : token.isOperand = true) (variableName index : Text) (offset : Nat) :
    s.EndsNumber ∧ (replaceFrom variableName index offset s).head? = s.head? := by
  have hhead := h.head?_startsNothing fun next hnext => hapart.rel_head? hnext htoken
  constructor
  · intro c hc
    obtain ⟨hfigure, hstart⟩ := hhead c hc
    have hexponent : c ≠ 'e' ∧ c ≠ 'E' := by
      constructor <;> rintro rfl <;> exact absurd hstart (by decide)
    rw [hfigure]
    simp [hexponent]
  · rcases @head?_replaceFrom variableName index offset s with heq | ⟨hstart, -⟩
    · exact heq
    · cases s with
      | nil => contradiction
      | cons c s =>
          have hc : isNameStart c = true := hstart
          rw [(hhead c rfl).2] at hc
          contradiction

/-- With the index in place of the variable a text is cut into the same tokens, but for those
of the index. -/
theorem Lexes.indexed {s : Text} {tokens : List Token} (h : Lexes s tokens)
    (hapart : tokens.IsChain Apart)
    (hdigits : ∀ token ∈ tokens, token.isName variableName = true →
      (index.natAbs : Int) ≤ Value.largest) (offset : Nat) :
    Lexes (replaceFrom variableName (intText index) offset s)
      (tokens.flatMap (withIndex variableName index)) := by
  induction h generalizing offset with
  | nil =>
      rw [replaceFrom_nil]
      exact .nil
  | blank hblank later ih =>
      rw [(startsNothing_of_isBlank hblank).replaceFrom_cons]
      exact .blank hblank (ih hapart hdigits _)
  | stars later ih =>
      have hstar : StartsNothing '*' := ⟨by decide, by decide⟩
      rw [hstar.replaceFrom_cons, hstar.replaceFrom_cons]
      exact .stars (ih hapart.tail (List.forall_mem_cons.1 hdigits).2 _)
  | @number c figures s value tokens hc hspan hvalue later ih =>
      obtain ⟨hends, hhead⟩ := later.behind_operand hapart rfl variableName (intText index)
        (offset + width (c :: figures))
      obtain ⟨hstart, hnumber⟩ := spanNumber_of_numeral? hvalue hends
      have hname : isNameStart c = false := by
        rw [Bool.eq_false_iff]
        intro hname
        rw [not_figure_of_isNameStart hname] at hc
        contradiction
      rw [replaceFrom_number offset hname hstart hnumber]
      refine .number hc ?_ hvalue (ih hapart.tail (List.forall_mem_cons.1 hdigits).2 _)
      rw [spanNumeral_eq_iff] at hspan ⊢
      rwa [hhead]
  | @name c letters s tokens hc hletters hstop later ih =>
      obtain ⟨hends, hhead⟩ := later.behind_operand hapart rfl variableName (intText index)
        (offset + width (c :: letters))
      have hlater := ih hapart.tail (List.forall_mem_cons.1 hdigits).2
        (offset + width (c :: letters))
      rw [replaceFrom_name offset hc hletters hstop]
      by_cases hword : c :: letters = variableName
      · have hfits := (List.forall_mem_cons.1 hdigits).1 (beq_iff_eq.2 hword)
        rw [if_pos hword, List.flatMap_cons, withIndex_of_eq hword]
        refine lexes_intText hfits ?_ hlater
        unfold EndsNumber
        rwa [hhead]
      · rw [if_neg hword, List.flatMap_cons, withIndex_of_not_isName (isName_eq_false hword)]
        exact .name hc hletters (by rwa [hhead]) hlater
  | @single c s token tokens hsingle hstar later ih =>
      have hplain : token.isName variableName = false := by
        unfold single? at hsingle
        split at hsingle <;> cases hsingle <;> rfl
      rw [(startsNothing_of_single? hsingle).replaceFrom_cons, List.flatMap_cons,
        withIndex_of_not_isName hplain]
      refine .single hsingle (fun hc => ?_) (ih hapart.tail (List.forall_mem_cons.1 hdigits).2 _)
      rcases @head?_replaceFrom variableName (intText index) (offset + c.utf8Size) s with
        heq | ⟨-, hprefix⟩
      · rw [heq]
        exact hstar hc
      · exact head?_intText_ne_star hprefix

end Token

/-- A name by itself has the value of the name. -/
theorem evalText_name {env : Environment} {value : Value} {c : Char} {letters : Text}
    (hc : isNameStart c = true) (hletters : ∀ d ∈ letters, isNameChar d = true)
    (hvalue : env.valueOf? (c :: letters) = some value) :
    evalText env (c :: letters) = .ok value := by
  have hlexes : Token.Lexes (c :: (letters ++ [])) [.name (c :: letters)] :=
    .name hc hletters (by simp) .nil
  rw [List.append_nil] at hlexes
  obtain ⟨tokens, hscan, htokens⟩ := hlexes.exists_scanFrom 0
  obtain ⟨⟨offset, _⟩, rest, rfl, rfl, hrest⟩ := List.map_eq_cons_iff.1 htokens
  obtain rfl := List.map_eq_nil_iff.1 hrest
  exact evalText_eq_ok_iff.2 ⟨_, .name offset (c :: letters), hscan,
    .term (.factor (.unsigned (.base (.name offset _)))), Expr.eval_name_eq_ok_iff.2 hvalue⟩

/-- A text with the index in place of the variable has the value that it has when the variable
stands for the index. -/
theorem evalText_replaceFrom {variableName : Text} {index : Int}
    (hbounded : (Value.whole index).IsBounded)
    (hcall : ∀ values, Value.call? variableName values = none) {s : Text} {value : Value}
    (hvalue : evalText (Environment.empty.set variableName (.whole index)) s = .ok value)
    (htakes : ∀ tokens, Token.scan s = .ok tokens →
      Token.TakesIndex variableName index (tokens.map Prod.snd)) (offset : Nat) :
    evalText .empty (Text.replaceFrom variableName (intText index) offset s) = .ok value := by
  obtain ⟨tokens, expr, hscan, hderives, hexpr⟩ := evalText_eq_ok_iff.1 hvalue
  have htokens := htakes tokens hscan
  have hdigits : ∀ token ∈ tokens.map Prod.snd, token.isName variableName = true →
      (index.natAbs : Int) ≤ Value.largest := by
    intro token hmem hname
    have hindex : index ≠ Value.smallest := by
      intro hindex
      rw [htokens.digits hindex token hmem] at hname
      contradiction
    obtain ⟨hlow, hhigh⟩ : Value.smallest ≤ index ∧ index ≤ Value.largest := hbounded
    have hsmallest : Value.smallest = -2 ^ 63 := rfl
    have hlargest : Value.largest = 2 ^ 63 - 1 := rfl
    omega
  have hlexes := (Token.lexes_of_scanFrom hscan).indexed hderives.apart hdigits offset
  obtain ⟨tokens', hscan', hindexes⟩ := hlexes.exists_scanFrom 0
  obtain ⟨expr', hderives', hexpr'⟩ :=
    hderives.exists_indexed hbounded hcall htokens (by simp) hindexes hexpr
  exact evalText_eq_ok_iff.2 ⟨tokens', expr', hscan', hderives', hexpr'⟩

end OdeModel
