import OdeModel.Proofs.Arithmetic.Bounds

/-!
# Expressions without a value

Evaluation fails at a name that has no value and at a call that has no result. A call has
none when no function of its name takes so many arguments; but it also has none when the
size of a whole number, or a remainder, is no whole number of 64 bits. The latter is told in
the same words as the former.
-/

namespace OdeModel

namespace Value

/-- The functions of one argument. -/
def unary : List String :=
  ["abs", "flr", "floor", "ceil", "round", "sqrt", "exp", "ln", "log", "log10", "sin", "cos",
    "tan", "asin", "acos", "atan", "sinh", "cosh", "tanh", "heav", "sign"]

/-- The functions of two arguments. -/
def binary : List String := ["atan2", "max", "min", "mod"]

/-- The functions that there are, each with its number of arguments. -/
def functions : List (Text × Nat) :=
  unary.map (fun name => (name.toList, 1)) ++ binary.map fun name => (name.toList, 2)

/-- A function of whole numbers has no whole number of 64 bits as its result: the size of
the number does not fit, or there is no remainder, or the quotient does not fit. -/
inductive IsUndefined : (name : Text) → List Value → Prop
  | size {n : Int} (hn : largest < n.natAbs) : IsUndefined "abs".toList [whole n]
  | remainder {m n : Int} (hn : n = 0 ∨ (m = smallest ∧ n = -1)) :
      IsUndefined "mod".toList [whole m, whole n]

variable {a b : Value}

theorem abs?_eq_none_iff : a.abs? = none ↔ ∃ n : Int, a = whole n ∧ largest < n.natAbs := by
  cases a with
  | whole n =>
      have hlow : smallest ≤ n.natAbs :=
        Int.le_trans (by decide : smallest ≤ 0) (Int.natCast_nonneg _)
      constructor
      · intro h
        refine ⟨n, rfl, not_le.1 fun hhigh => ?_⟩
        rw [abs?, fit?, if_pos ⟨hlow, hhigh⟩] at h
        cases h
      · rintro ⟨_, ⟨rfl⟩, hn⟩
        exact if_neg fun hfits => absurd hfits.2 (not_le.2 hn)
  | real x => simp [abs?]

theorem modulo?_eq_none_iff : a.modulo? b = none ↔
    ∃ m n : Int, (a = whole m ∧ b = whole n) ∧ (n = 0 ∨ (m = smallest ∧ n = -1)) := by
  cases a with
  | real x => simp [modulo?]
  | whole m =>
      cases b with
      | real y => simp [modulo?]
      | whole n => simp [modulo?, or_iff_not_imp_left]

theorem callOne?_eq_none_iff {name : String} :
    callOne? name a = none ↔ name ∉ unary ∨ (name = "abs" ∧ a.abs? = none) := by
  unfold callOne?
  split
  case h_1 => simp [unary]
  case h_22 => simp_all [unary]
  all_goals simp [unary]

theorem callTwo?_eq_none_iff {name : String} :
    callTwo? name a b = none ↔ name ∉ binary ∨ (name = "mod" ∧ a.modulo? b = none) := by
  unfold callTwo?
  split
  case h_4 => simp [binary]
  case h_5 => simp_all [binary]
  all_goals simp [binary]

theorem mem_functions_iff {name : Text} {count : Nat} : (name, count) ∈ functions ↔
    (String.ofList name ∈ unary ∧ count = 1) ∨ (String.ofList name ∈ binary ∧ count = 2) := by
  have hmem : ∀ (names : List String) (number : Nat),
      (name, count) ∈ names.map (fun other => (other.toList, number)) ↔
        String.ofList name ∈ names ∧ count = number := by
    intro names number
    rw [List.mem_map]
    constructor
    · rintro ⟨other, hother, heq⟩
      cases heq
      rw [String.ofList_toList]
      exact ⟨hother, rfl⟩
    · rintro ⟨hname, rfl⟩
      exact ⟨_, hname, by rw [String.toList_ofList]⟩
  rw [functions, List.mem_append, hmem, hmem]

/-- A call has no result when there is no such function, or when its result is undefined. -/
theorem call?_eq_none_iff {name : Text} {values : List Value} : call? name values = none ↔
    (name, values.length) ∉ functions ∨ IsUndefined name values := by
  have hname : ∀ other : String, String.ofList name = other ↔ name = other.toList := by
    intro other
    rw [← String.toList_inj, String.toList_ofList]
  rcases values with _ | ⟨a, _ | ⟨b, _ | ⟨c, later⟩⟩⟩
  · simp [call?, mem_functions_iff]
  · rw [call?, callOne?_eq_none_iff, abs?_eq_none_iff, hname]
    refine or_congr (by simp [mem_functions_iff]) ⟨?_, ?_⟩
    · rintro ⟨rfl, n, rfl, hn⟩
      exact .size hn
    · intro h
      cases h with
      | size hn => exact ⟨rfl, _, rfl, hn⟩
  · rw [call?, callTwo?_eq_none_iff, modulo?_eq_none_iff, hname]
    refine or_congr (by simp [mem_functions_iff]) ⟨?_, ?_⟩
    · rintro ⟨rfl, m, n, ⟨rfl, rfl⟩, hn⟩
      exact .remainder hn
    · intro h
      cases h with
      | remainder hn => exact ⟨rfl, _, _, ⟨rfl, rfl⟩, hn⟩
  · simp [call?, mem_functions_iff]

end Value

/-! ### Names in trees -/

namespace Expr

mutual

/-- The names in an expression, in order, each with its arguments if it is called. -/
def uses : Expr → List (Text × Option (List Expr))
  | number _ => []
  | name _ word => [(word, none)]
  | negate operand => operand.uses
  | binary _ left right => left.uses ++ right.uses
  | power base exponent => base.uses ++ exponent.uses
  | call _ function arguments => (function, some arguments) :: usesAll arguments

/-- The names in several expressions, in order. -/
def usesAll : List Expr → List (Text × Option (List Expr))
  | [] => []
  | first :: later => first.uses ++ usesAll later

end

/-- Among the names is one that has no value, or a call of one that has no result, and the
fault tells of it. -/
inductive Blames (env : Environment) (uses : List (Text × Option (List Expr))) :
    ArithmeticFault → Prop
  /-- The name has no value. -/
  | name {word : Text} (hmem : (word, none) ∈ uses) (hnone : env.valueOf? word = none) :
      Blames env uses (.unknownVariable word)
  /-- There is no such function. -/
  | function {function : Text} {arguments : List Expr} (hmem : (function, some arguments) ∈ uses)
      (hnone : (function, arguments.length) ∉ Value.functions) :
      Blames env uses (.unknownFunction function)
  /-- There is such a function, but its result is undefined. -/
  | result {function : Text} {arguments : List Expr} {values : List Value}
      (hmem : (function, some arguments) ∈ uses) (hvalues : evalAll env arguments = .ok values)
      (hundefined : Value.IsUndefined function values) :
      Blames env uses (.unknownFunction function)

/-- There is a result when there is nothing to blame, and otherwise the error tells of
something that there is. -/
def Explains {α : Type} (env : Environment) (uses : List (Text × Option (List Expr))) :
    Except ArithmeticError α → Prop
  | .ok _ => ∀ fault, ¬ Blames env uses fault
  | .error error => Blames env uses error.fault

variable {env : Environment} {uses uses' : List (Text × Option (List Expr))}

theorem Blames.mono {fault : ArithmeticFault} (h : Blames env uses fault)
    (hsub : uses ⊆ uses') : Blames env uses' fault := by
  cases h with
  | name hmem hnone => exact .name (hsub hmem) hnone
  | function hmem hnone => exact .function (hsub hmem) hnone
  | result hmem hvalues hundefined => exact .result (hsub hmem) hvalues hundefined

theorem blames_append_iff {fault : ArithmeticFault} :
    Blames env (uses ++ uses') fault ↔ Blames env uses fault ∨ Blames env uses' fault := by
  constructor
  · intro h
    cases h with
    | name hmem hnone =>
        exact (List.mem_append.1 hmem).imp (.name · hnone) (.name · hnone)
    | function hmem hnone =>
        exact (List.mem_append.1 hmem).imp (.function · hnone) (.function · hnone)
    | result hmem hvalues hundefined =>
        exact (List.mem_append.1 hmem).imp (.result · hvalues hundefined)
          (.result · hvalues hundefined)
  · rintro (h | h)
    · exact h.mono (List.subset_append_left _ _)
    · exact h.mono (List.subset_append_right _ _)

namespace Explains

variable {α β : Type}

theorem ok (a : α) : Explains env [] (.ok a : Except ArithmeticError α) := by
  rintro fault (⟨hmem, -⟩ | ⟨hmem, -⟩ | ⟨hmem, -, -⟩) <;> exact absurd hmem List.not_mem_nil

theorem bind {x : Except ArithmeticError α} {f : α → Except ArithmeticError β}
    (hx : Explains env uses x) (hf : ∀ a, x = .ok a → Explains env uses' (f a)) :
    Explains env (uses ++ uses') (x >>= f) := by
  cases x with
  | error error => exact hx.mono (List.subset_append_left _ _)
  | ok a =>
      have hfa := hf a rfl
      change Explains env (uses ++ uses') (f a)
      cases hresult : f a with
      | error error =>
          rw [hresult] at hfa
          exact Blames.mono hfa (List.subset_append_right _ _)
      | ok b =>
          rw [hresult] at hfa
          exact fun fault h => (blames_append_iff.1 h).elim (hx fault) (hfa fault)

theorem congr {x : Except ArithmeticError α} (hx : Explains env uses x) (hsub : uses ⊆ uses')
    (hsub' : uses' ⊆ uses) : Explains env uses' x := by
  cases x with
  | error error => exact hx.mono hsub
  | ok a => exact fun fault h => hx fault (h.mono hsub')

theorem map {x : Except ArithmeticError α} (hx : Explains env uses x) (f : α → β) :
    Explains env uses (x >>= fun a => .ok (f a)) := by
  simpa using hx.bind fun a _ => ok (f a)

end Explains

theorem length_of_evalAll {exprs : List Expr} {values : List Value}
    (h : evalAll env exprs = .ok values) : values.length = exprs.length := by
  induction exprs generalizing values with
  | nil =>
      cases h
      rfl
  | cons first later ih =>
      obtain ⟨value, -, h⟩ := bind_eq_ok_iff.1 h
      obtain ⟨others, hothers, h⟩ := bind_eq_ok_iff.1 h
      cases h
      simp [ih hothers]

/-- A call fails when there is no such function or its result is undefined. -/
theorem explains_call {offset : Nat} {function : Text} {arguments : List Expr}
    {values : List Value} (hvalues : evalAll env arguments = .ok values) :
    Explains env [(function, some arguments)]
      (match Value.call? function values with
        | some value => .ok value
        | none => .error ⟨offset, .unknownFunction function⟩) := by
  have hlength := length_of_evalAll hvalues
  cases hcall : Value.call? function values with
  | none =>
      rcases Value.call?_eq_none_iff.1 hcall with hnone | hundefined
      · rw [hlength] at hnone
        exact .function (List.mem_singleton_self _) hnone
      · exact .result (List.mem_singleton_self _) hvalues hundefined
  | some value =>
      have hresult := mt Value.call?_eq_none_iff.2 (by rw [hcall]; simp)
      rw [hlength] at hresult
      intro fault hblames
      cases hblames with
      | name hmem => simp at hmem
      | function hmem hnone =>
          cases List.mem_singleton.1 hmem
          exact hresult (.inl hnone)
      | result hmem hvalues' hundefined =>
          cases List.mem_singleton.1 hmem
          cases hvalues.symm.trans hvalues'
          exact hresult (.inr hundefined)

mutual

/-- Evaluation fails just at a name without a value or at a call without a result. -/
theorem explains_eval (env : Environment) : (expr : Expr) → Explains env expr.uses (expr.eval env)
  | number value => by
      rw [uses, eval]
      exact .ok value
  | name offset word => by
      rw [uses, eval]
      cases hvalue : env.valueOf? word with
      | none => exact .name (List.mem_singleton_self _) hvalue
      | some value =>
          intro fault hblames
          cases hblames with
          | name hmem hnone =>
              cases List.mem_singleton.1 hmem
              cases hvalue.symm.trans hnone
          | function hmem | result hmem => simp at hmem
  | negate operand => by
      rw [uses, eval]
      exact (explains_eval env operand).map _
  | binary op left right => by
      rw [uses, eval]
      exact (explains_eval env left).bind fun a _ => (explains_eval env right).map _
  | power base exponent => by
      rw [uses, eval]
      exact (explains_eval env base).bind fun a _ => (explains_eval env exponent).map _
  | call offset function arguments => by
      rw [uses, eval]
      exact ((explains_evalAll env arguments).bind fun values hvalues =>
        explains_call hvalues).congr (by simp) (by simp)

/-- So does the evaluation of several expressions. -/
theorem explains_evalAll (env : Environment) : (exprs : List Expr) →
    Explains env (usesAll exprs) (evalAll env exprs)
  | [] => by
      rw [usesAll, evalAll]
      exact .ok []
  | first :: later => by
      rw [usesAll, evalAll]
      exact (explains_eval env first).bind fun value _ => (explains_evalAll env later).map _

end

end Expr

/-! ### Names among tokens -/

namespace Token

/-- The number of arguments before the parenthesis that closes a call, where `depth` more
parentheses are open. -/
def argumentCount (depth : Nat) : List Token → Nat
  | [] => 1
  | token :: rest =>
      match token with
      | openParen => argumentCount (depth + 1) rest
      | closeParen => if depth = 0 then 1 else argumentCount (depth - 1) rest
      | comma => argumentCount depth rest + if depth = 0 then 1 else 0
      | _ => argumentCount depth rest

/-- The names among some tokens, in order, each with its number of arguments if an opening
parenthesis follows it. -/
def uses : List Token → List (Text × Option Nat)
  | [] => []
  | name word :: openParen :: rest => (word, some (argumentCount 0 rest)) :: uses rest
  | name word :: rest => (word, none) :: uses rest
  | _ :: rest => uses rest

theorem uses_name {word : Text} {rest : List Token} (hrest : rest.head? ≠ some openParen) :
    uses (name word :: rest) = (word, none) :: uses rest := by
  cases rest with
  | nil => rfl
  | cons token rest =>
      cases token with
      | openParen => exact absurd rfl hrest
      | _ => rfl

theorem uses_joint {token : Token} (h : token.isJoint = true) (rest : List Token) :
    uses (token :: rest) = uses rest := by
  cases token with
  | operator | power | comma => rfl
  | _ => cases h

end Token

namespace Expr

variable {level : Level} {tokens : Tokens} {result : level.Meaning Expr}

/-- There is an expression, or at least one argument. -/
theorem Derives.length_toList_pos (h : Derives level tokens result) :
    1 ≤ (level.toList result).length := by
  cases h <;> simp [Level.toList]

/-- Reading on to the end of a call, an expression is passed by and several expressions are
counted, but for the one that is counted at the end. -/
theorem Derives.argumentCount_append (h : Derives level tokens result) (depth : Nat)
    (rest : List Token) :
    Token.argumentCount depth (tokens.map Prod.snd ++ rest) = Token.argumentCount depth rest +
      if depth = 0 then (level.toList result).length - 1 else 0 := by
  induction h generalizing depth rest with
  | number | name => simp [Token.argumentCount, Level.toList]
  | group _ _ _ ih | call _ _ _ _ _ ih | minus _ _ ih | noted _ _ ih =>
      simp [Token.argumentCount, Level.toList, ih]
  | base _ ih | unsigned _ ih | factor _ ih | term _ ih | last _ ih => exact ih depth rest
  | power _ _ _ ihl ihr | times _ _ _ _ ihl ihr | plus _ _ _ _ ihl ihr =>
      simp [Token.argumentCount, Level.toList, ihl, ihr]
  | @more offset _ _ expr exprs argument later iha ihl =>
      have hpos := later.length_toList_pos
      simp only [Level.toList] at hpos
      simp [Token.argumentCount, Level.toList, iha, ihl]
      split <;> omega

/-- The names in some expressions, each with its number of arguments if it is called. -/
def signatures (exprs : List Expr) : List (Text × Option Nat) :=
  (usesAll exprs).map fun use => (use.1, use.2.map List.length)

/-- The names in a tree are those among its tokens. -/
theorem Derives.uses_append (h : Derives level tokens result) {rest : List Token}
    (hrest : rest.head? ≠ some .openParen) :
    Token.uses (tokens.map Prod.snd ++ rest) =
      signatures (level.toList result) ++ Token.uses rest := by
  -- two parts with a token between them that is no parenthesis
  have hjoint : ∀ {before after : Tokens} {offset : Nat} {token : Token} {rest : List Token}
      {first second : List (Text × Option Nat)}, token.isJoint = true →
      (∀ {rest : List Token}, rest.head? ≠ some .openParen →
        Token.uses (before.map Prod.snd ++ rest) = first ++ Token.uses rest) →
      Token.uses (after.map Prod.snd ++ rest) = second ++ Token.uses rest →
      Token.uses ((before ++ (offset, token) :: after).map Prod.snd ++ rest) =
        first ++ second ++ Token.uses rest := by
    intro before after offset token rest first second htoken hbefore hafter
    have hnext : (token :: (after.map Prod.snd ++ rest)).head? ≠ some .openParen := by
      rw [List.head?_cons, ne_eq, Option.some_inj]
      rintro rfl
      cases htoken
    rw [List.map_append, List.map_cons, List.append_assoc, List.cons_append, hbefore hnext,
      Token.uses_joint htoken, hafter, List.append_assoc]
  induction h generalizing rest with
  | number offset value => rfl
  | name offset word =>
      rw [List.map_singleton, List.singleton_append, Token.uses_name hrest]
      rfl
  | group start close inner ih =>
      have hinner := @ih (.closeParen :: rest) (by simp)
      simpa [Token.uses, Level.toList] using hinner
  | call offset start close function arguments ih =>
      have hinner := @ih (.closeParen :: rest) (by simp)
      have hcount := arguments.argumentCount_append 0 (.closeParen :: rest)
      have hpos := arguments.length_toList_pos
      simp only [Token.argumentCount, if_true, Nat.add_sub_cancel' hpos] at hcount
      simpa [Token.uses, Level.toList, signatures, usesAll, uses, hcount] using hinner
  | base _ ih | unsigned _ ih | factor _ ih | term _ ih | last _ ih => exact ih hrest
  | minus _ _ ih | noted _ _ ih =>
      simpa [Token.uses, signatures, usesAll, uses, Level.toList] using ih hrest
  | power _ _ _ ihl ihr | times _ _ _ _ ihl ihr | plus _ _ _ _ ihl ihr | more _ _ _ ihl ihr =>
      refine (hjoint rfl ihl (ihr hrest)).trans ?_
      simp [signatures, usesAll, uses, Level.toList]

end Expr

/-! ### Expressions in text -/

theorem Environment.valueOf?_eq_none_iff {env : Environment} {name : Text} :
    env.valueOf? name = none ↔ env name = none ∧ name ≠ "pi".toList := by
  unfold valueOf?
  cases env name with
  | some value => simp
  | none => simp

namespace Expr

variable {env : Environment} {uses : List (Text × Option (List Expr))}

theorem Explains.exists_error_iff {α : Type} {x : Except ArithmeticError α}
    (h : Explains env uses x) : (∃ error, x = .error error) ↔ ∃ fault, Blames env uses fault := by
  cases x with
  | ok a => exact iff_of_false (by simp) fun ⟨fault, hblames⟩ => h fault hblames
  | error error => exact iff_of_true ⟨error, rfl⟩ ⟨error.fault, h⟩

/-- A function to blame is not there with so many arguments, or its result is undefined. -/
theorem blames_unknownFunction_iff {name : Text} : Blames env uses (.unknownFunction name) ↔
    (∃ arguments, (name, some arguments) ∈ uses ∧ (name, arguments.length) ∉ Value.functions) ∨
      ∃ arguments values, (name, some arguments) ∈ uses ∧ evalAll env arguments = .ok values ∧
        Value.IsUndefined name values := by
  constructor
  · intro h
    cases h with
    | function hmem hnone => exact .inl ⟨_, hmem, hnone⟩
    | result hmem hvalues hundefined => exact .inr ⟨_, _, hmem, hvalues, hundefined⟩
  · rintro (⟨arguments, hmem, hnone⟩ | ⟨arguments, values, hmem, hvalues, hundefined⟩)
    · exact .function hmem hnone
    · exact .result hmem hvalues hundefined

theorem exists_blames_iff : (∃ fault, Blames env uses fault) ↔
    (∃ name, (name, none) ∈ uses ∧ env name = none ∧ name ≠ "pi".toList) ∨
      ∃ name, Blames env uses (.unknownFunction name) := by
  constructor
  · rintro ⟨fault, h⟩
    cases h with
    | name hmem hnone => exact .inl ⟨_, hmem, Environment.valueOf?_eq_none_iff.1 hnone⟩
    | function hmem hnone => exact .inr ⟨_, .function hmem hnone⟩
    | result hmem hvalues hundefined => exact .inr ⟨_, .result hmem hvalues hundefined⟩
  · rintro (⟨name, hmem, hnone⟩ | ⟨name, h⟩)
    · exact ⟨_, .name hmem (Environment.valueOf?_eq_none_iff.2 hnone)⟩
    · exact ⟨_, h⟩

end Expr

/-- The value of a text is that of its tree. -/
theorem evalText_eq_eval {env : Environment} {s : Text} {tokens : Expr.Tokens} {expr : Expr}
    (hscan : Token.scan s = .ok tokens) (hexpr : Expr.Derives .sum tokens expr) :
    evalText env s = expr.eval env := by
  have htree := (@Expr.ofTokens_eq_ok_iff (Text.width s) tokens expr).2 hexpr
  simp only [evalText, hscan, htree, bind, Except.bind]

/-- An expression fails just at a name that is not called and has no value, at a call for
which there is no function with so many arguments, or at a call whose result is undefined.
A function is reported as unknown in the last two cases only. -/
theorem evalText_error_iff (env : Environment) {s : Text} {tokens : Expr.Tokens} {expr : Expr}
    (hscan : Token.scan s = .ok tokens) (hexpr : Expr.Derives .sum tokens expr) :
    ((∃ error, evalText env s = .error error) ↔
      (∃ name, (name, none) ∈ Token.uses (tokens.map Prod.snd) ∧ env name = none ∧
        name ≠ "pi".toList) ∨
      ∃ name, (∃ count, (name, some count) ∈ Token.uses (tokens.map Prod.snd) ∧
          (name, count) ∉ Value.functions) ∨
        ∃ arguments values, (name, some arguments) ∈ expr.uses ∧
          Expr.evalAll env arguments = .ok values ∧ Value.IsUndefined name values) ∧
    ∀ offset name, evalText env s = .error ⟨offset, .unknownFunction name⟩ →
      (∃ count, (name, some count) ∈ Token.uses (tokens.map Prod.snd) ∧
        (name, count) ∉ Value.functions) ∨
      ∃ arguments values, (name, some arguments) ∈ expr.uses ∧
        Expr.evalAll env arguments = .ok values ∧ Value.IsUndefined name values := by
  have huses : Token.uses (tokens.map Prod.snd) =
      expr.uses.map fun use => (use.1, use.2.map List.length) := by
    simpa [Token.uses, Expr.signatures, Expr.usesAll, Level.toList] using
      @Expr.Derives.uses_append _ _ _ hexpr [] (by simp)
  have hname : ∀ name, (name, none) ∈ Token.uses (tokens.map Prod.snd) ↔
      (name, none) ∈ expr.uses := by
    simp [huses]
  have hcall : ∀ name, (∃ count, (name, some count) ∈ Token.uses (tokens.map Prod.snd) ∧
      (name, count) ∉ Value.functions) ↔
        ∃ arguments, (name, some arguments) ∈ expr.uses ∧
          (name, arguments.length) ∉ Value.functions := by
    simp [huses]
  have hexplains := Expr.explains_eval env expr
  simp only [evalText_eq_eval hscan hexpr, hname, hcall, ← Expr.blames_unknownFunction_iff]
  refine ⟨hexplains.exists_error_iff.trans Expr.exists_blames_iff, fun offset name herror => ?_⟩
  rw [herror] at hexplains
  exact hexplains

/-- There is no logarithm to a given base. -/
theorem evalText_error_iff_logarithm :
    (Token.scan "log(y,2)".toList = .ok [(0, .name "log".toList), (3, .openParen),
        (4, .name ['y']), (5, .comma), (6, .number (.whole 2)), (7, .closeParen)] ∧
      Expr.Derives .sum [(0, .name "log".toList), (3, .openParen), (4, .name ['y']),
          (5, .comma), (6, .number (.whole 2)), (7, .closeParen)]
        (.call 0 "log".toList [.name 4 ['y'], .number (.whole 2)])) ∧
    ∃ error, evalText (Environment.empty.set ['y'] (.whole 8)) "log(y,2)".toList =
      .error error := by
  have hscan : Token.scan "log(y,2)".toList = .ok [(0, .name "log".toList), (3, .openParen),
      (4, .name ['y']), (5, .comma), (6, .number (.whole 2)), (7, .closeParen)] := by
    simp +decide [Token.scan, Token.scanFrom_cons, Token.scanFrom_nil, Token.single?,
      Token.spanNumeral, show Token.numeral? ['2'] = some (.whole 2) from rfl]
  have hsum : ∀ {tokens : Expr.Tokens} {expr : Expr}, Expr.Derives .operand tokens expr →
      Expr.Derives .sum tokens expr :=
    fun operand => .term (.factor (.unsigned (.base operand)))
  have hexpr := hsum (.call 0 3 7 "log".toList
    (.more 5 (hsum (.name 4 ['y'])) (.last (hsum (.number 6 (.whole 2))))))
  exact ⟨⟨hscan, hexpr⟩, (evalText_error_iff _ hscan hexpr).1.2
    (.inr ⟨"log".toList, .inl ⟨2, by decide, by decide⟩⟩)⟩

/-- A remainder by zero and the size of the smallest whole number are reported as unknown
functions, although there are functions of these names for so many arguments and all names
have values. -/
theorem evalText_error_undefined :
    (("mod".toList, 2) ∈ Value.functions ∧
      ∃ tokens expr, Token.scan "mod(1,0)".toList = .ok tokens ∧ Expr.Derives .sum tokens expr ∧
        Token.uses (tokens.map Prod.snd) = [("mod".toList, some 2)] ∧
        evalText .empty "mod(1,0)".toList = .error ⟨0, .unknownFunction "mod".toList⟩) ∧
    ("abs".toList, 1) ∈ Value.functions ∧
      ∃ tokens expr, Token.scan "abs(n)".toList = .ok tokens ∧ Expr.Derives .sum tokens expr ∧
        Token.uses (tokens.map Prod.snd) = [("abs".toList, some 1), (['n'], none)] ∧
        evalText (Environment.empty.set ['n'] (.whole Value.smallest)) "abs(n)".toList =
          .error ⟨0, .unknownFunction "abs".toList⟩ := by
  have hsum : ∀ {tokens : Expr.Tokens} {expr : Expr}, Expr.Derives .operand tokens expr →
      Expr.Derives .sum tokens expr :=
    fun operand => .term (.factor (.unsigned (.base operand)))
  have hmod : Token.scan "mod(1,0)".toList = .ok [(0, .name "mod".toList), (3, .openParen),
      (4, .number (.whole 1)), (5, .comma), (6, .number (.whole 0)), (7, .closeParen)] := by
    simp +decide [Token.scan, Token.scanFrom_cons, Token.scanFrom_nil, Token.single?,
      Token.spanNumeral, show Token.numeral? ['1'] = some (.whole 1) from rfl,
      show Token.numeral? ['0'] = some (.whole 0) from rfl]
  have habs : Token.scan "abs(n)".toList = .ok [(0, .name "abs".toList), (3, .openParen),
      (4, .name ['n']), (5, .closeParen)] := by
    simp +decide [Token.scan, Token.scanFrom_cons, Token.scanFrom_nil, Token.single?]
  have hmodExpr := hsum (.call 0 3 7 "mod".toList
    (.more 5 (hsum (.number 4 (.whole 1))) (.last (hsum (.number 6 (.whole 0))))))
  have habsExpr := hsum (.call 0 3 5 "abs".toList (.last (hsum (.name 4 ['n']))))
  refine ⟨⟨by decide, _, _, hmod, hmodExpr, rfl, ?_⟩, by decide, _, _, habs, habsExpr, rfl, ?_⟩
  · rw [evalText_eq_eval hmod hmodExpr]
    rfl
  · rw [evalText_eq_eval habs habsExpr]
    rfl

end OdeModel
