import OdeModel.Proofs.Arithmetic.Lexemes

/-!
# Whole numbers of 64 bits

Literals, operators and functions give a whole number only where it fits into 64 bits, so
every whole number that an expression has as its value does.
-/

namespace OdeModel

namespace Value

/-- The value is a double or a whole number that fits. -/
def IsBounded : Value → Prop
  | whole n => smallest ≤ n ∧ n ≤ largest
  | real _ => True

variable {a b value : Value}

theorem isBounded_of_fit? {n : Int} (h : fit? n = some value) : value.IsBounded := by
  unfold fit? at h
  split at h
  next hfits =>
    cases h
    exact hfits
  next => contradiction

/-- A result that is rounded where there is no exact one. -/
theorem isBounded_getD {found? : Option Value} (h : ∀ value ∈ found?, value.IsBounded)
    (x : Float) : (found?.getD (real x)).IsBounded := by
  cases found? with
  | none => trivial
  | some value => exact h value rfl

theorem isBounded_neg (a : Value) : a.neg.IsBounded := by
  cases a with
  | whole n => exact isBounded_getD (fun _ => isBounded_of_fit?) _
  | real x => trivial

theorem isBounded_apply (op : Operator) (a b : Value) : (op.apply a b).IsBounded := by
  have hexact : ∀ m n, ∀ value ∈ op.wholeResult? m n, value.IsBounded := by
    intro m n value h
    cases op with
    | add | sub | mul => exact isBounded_of_fit? h
    | div => cases h
  unfold Operator.apply
  split
  next => exact isBounded_getD (hexact _ _) _
  next => trivial

theorem isBounded_power (a b : Value) : (a.power b).IsBounded := by
  have hexact : ∀ m n, ∀ value ∈ exactPower? m n, value.IsBounded := by
    intro m n value h
    unfold exactPower? at h
    split at h
    · cases h
    split at h
    · exact isBounded_of_fit? h
    split at h
    · cases h
    · exact isBounded_of_fit? h
  unfold power
  split
  next => exact isBounded_getD (hexact _ _) _
  next => trivial

theorem isBounded_of_abs? (h : a.abs? = some value) : value.IsBounded := by
  cases a with
  | whole n => exact isBounded_of_fit? h
  | real x =>
      cases h
      trivial

theorem isBounded_ofFloat (x : Float) : (ofFloat x).IsBounded := by
  unfold ofFloat
  split
  next => exact ⟨x.toInt64.le_toInt, Int.le_sub_one_of_lt x.toInt64.toInt_lt⟩
  next => trivial

theorem isBounded_step (x : Float) : (step x).IsBounded := by
  unfold step
  split <;> exact ⟨by decide, by decide⟩

theorem isBounded_sign (x : Float) : (sign x).IsBounded := by
  unfold sign
  split
  · exact ⟨by decide, by decide⟩
  split <;> exact ⟨by decide, by decide⟩

theorem isBounded_maximum (ha : a.IsBounded) (hb : b.IsBounded) : (a.maximum b).IsBounded := by
  cases a with
  | real x => trivial
  | whole m =>
      cases b with
      | real x => trivial
      | whole n => exact ⟨ha.1.trans (Int.le_max_left m n), Int.max_le.2 ⟨ha.2, hb.2⟩⟩

theorem isBounded_minimum (ha : a.IsBounded) (hb : b.IsBounded) : (a.minimum b).IsBounded := by
  cases a with
  | real x => trivial
  | whole m =>
      cases b with
      | real x => trivial
      | whole n => exact ⟨Int.le_min.2 ⟨ha.1, hb.1⟩, (Int.min_le_left m n).trans ha.2⟩

/-- A remainder is not negative and smaller than the divisor. -/
theorem isBounded_of_modulo? (hb : b.IsBounded) (h : a.modulo? b = some value) :
    value.IsBounded := by
  unfold modulo? at h
  split at h
  next m n =>
    split at h
    · cases h
    next hn =>
      cases h
      obtain ⟨hlow, hhigh⟩ : smallest ≤ n ∧ n ≤ largest := hb
      have hpos := Int.emod_nonneg m (not_or.1 hn).1
      have hlt := Int.emod_lt m (not_or.1 hn).1
      have hsmallest : smallest = -2 ^ 63 := rfl
      have hlargest : largest = 2 ^ 63 - 1 := rfl
      exact ⟨by omega, by omega⟩
  next =>
    cases h
    trivial

theorem isBounded_of_callOne? {name : String} (h : callOne? name a = some value) :
    value.IsBounded := by
  unfold callOne? at h
  split at h
  case h_1 => exact isBounded_of_abs? h
  case h_22 => cases h
  all_goals
    cases h
    first
      | trivial
      | exact isBounded_ofFloat _
      | exact isBounded_step _
      | exact isBounded_sign _

theorem isBounded_of_callTwo? {name : String} (ha : a.IsBounded) (hb : b.IsBounded)
    (h : callTwo? name a b = some value) : value.IsBounded := by
  unfold callTwo? at h
  split at h
  · cases h
    trivial
  · cases h
    exact isBounded_maximum ha hb
  · cases h
    exact isBounded_minimum ha hb
  · exact isBounded_of_modulo? hb h
  · cases h

theorem isBounded_of_call? {name : Text} {values : List Value}
    (hvalues : ∀ value ∈ values, value.IsBounded) (h : call? name values = some value) :
    value.IsBounded := by
  unfold call? at h
  split at h
  · exact isBounded_of_callOne? h
  · exact isBounded_of_callTwo? (hvalues _ (by simp)) (hvalues _ (by simp)) h
  · cases h

theorem isBounded_of_numeral? {s : Text} (h : Token.numeral? s = some value) :
    value.IsBounded := by
  unfold Token.numeral? at h
  split at h
  next =>
    obtain ⟨n, -, h⟩ := Option.bind_eq_some_iff.1 h
    exact isBounded_of_fit? h
  next =>
    obtain ⟨d, -, rfl⟩ := Option.map_eq_some_iff.1 h
    trivial

end Value

/-- The single values that something at a level has. -/
def Level.toList {α : Type} : (level : Level) → level.Meaning α → List α
  | arguments, values => values
  | sum, value | product, value | signed, value | power, value | operand, value => [value]

namespace Expr

/-- The value of a tree at a level of the grammar: the arguments of a call have one each. -/
def evalAt (env : Environment) :
    (level : Level) → level.Meaning Expr → Except ArithmeticError (level.Meaning Value)
  | .arguments => evalAll env
  | .sum | .product | .signed | .power | .operand => eval env

variable {env : Environment}

theorem eval_name_eq_ok_iff {offset : Nat} {word : Text} {value : Value} :
    (name offset word).eval env = .ok value ↔ env.valueOf? word = some value := by
  rw [eval]
  cases env.valueOf? word <;> simp

theorem eval_call_eq_ok_iff {offset : Nat} {function : Text} {exprs : List Expr}
    {value : Value} : (call offset function exprs).eval env = .ok value ↔
      ∃ values, evalAll env exprs = .ok values ∧ Value.call? function values = some value := by
  rw [eval, bind_eq_ok_iff]
  refine exists_congr fun values => and_congr_right fun _ => ?_
  cases Value.call? function values <;> simp

/-- With literals and names that fit every value fits. -/
theorem Derives.isBounded (henv : ∀ word value, env.valueOf? word = some value → value.IsBounded)
    {level : Level} {tokens : Tokens} {expr : level.Meaning Expr} (h : Derives level tokens expr)
    (htokens : ∀ value, .number value ∈ tokens.map Prod.snd → value.IsBounded)
    {result : level.Meaning Value} (hresult : evalAt env level expr = .ok result) :
    ∀ value ∈ level.toList result, value.IsBounded := by
  induction h with
  | number offset value =>
      cases hresult
      exact List.forall_mem_singleton.2 (htokens value (by simp))
  | name offset word =>
      exact List.forall_mem_singleton.2 (henv word _ (eval_name_eq_ok_iff.1 hresult))
  | group start close _ ih => exact ih (fun value hmem => htokens value (by simp [hmem])) hresult
  | call offset start close function _ ih =>
      obtain ⟨values, hvalues, hcall⟩ := eval_call_eq_ok_iff.1 hresult
      have hall := ih (fun value hmem => htokens value (by simp [hmem])) hvalues
      exact List.forall_mem_singleton.2 (Value.isBounded_of_call? hall hcall)
  | base _ ih | unsigned _ ih | factor _ ih | term _ ih => exact ih htokens hresult
  | noted _ _ ih => exact ih (fun value hmem => htokens value (by simp [hmem])) hresult
  | minus =>
      obtain ⟨value, -, h⟩ := bind_eq_ok_iff.1 hresult
      cases h
      exact List.forall_mem_singleton.2 (Value.isBounded_neg value)
  | power =>
      obtain ⟨a, -, h⟩ := bind_eq_ok_iff.1 hresult
      obtain ⟨b, -, h⟩ := bind_eq_ok_iff.1 h
      cases h
      exact List.forall_mem_singleton.2 (Value.isBounded_power a b)
  | times | plus =>
      obtain ⟨a, -, h⟩ := bind_eq_ok_iff.1 hresult
      obtain ⟨b, -, h⟩ := bind_eq_ok_iff.1 h
      cases h
      exact List.forall_mem_singleton.2 (Value.isBounded_apply _ a b)
  | last _ ih =>
      obtain ⟨value, hvalue, h⟩ := bind_eq_ok_iff.1 hresult
      cases h
      exact ih htokens hvalue
  | more offset _ _ iha ihl =>
      obtain ⟨value, hvalue, h⟩ := bind_eq_ok_iff.1 hresult
      obtain ⟨values, hvalues, h⟩ := bind_eq_ok_iff.1 h
      cases h
      refine List.forall_mem_cons.2 ⟨?_, ihl (fun value hmem => htokens value ?_) hvalues⟩
      · exact iha (fun value hmem => htokens value (by simp [hmem])) hvalue _
          (List.mem_singleton_self _)
      · simp [hmem]

end Expr

/-- The literals of a text fit. -/
theorem Token.Lexes.isBounded {s : Text} {tokens : List Token} (h : Lexes s tokens) :
    ∀ value, .number value ∈ tokens → value.IsBounded := by
  induction h with
  | nil => simp
  | blank _ _ ih => exact ih
  | stars _ ih => simpa using ih
  | number _ _ hvalue _ ih =>
      intro value hmem
      rcases List.mem_cons.1 hmem with heq | hmem
      · cases heq
        exact Value.isBounded_of_numeral? hvalue
      · exact ih value hmem
  | name _ _ _ _ ih => simpa using ih
  | @single c s token tokens hsingle _ _ ih =>
      intro value hmem
      rcases List.mem_cons.1 hmem with heq | hmem
      · subst heq
        unfold single? at hsingle
        split at hsingle <;> cases hsingle
      · exact ih value hmem

/-- The value of a text fits when those of its names do. -/
theorem isBounded_of_evalText {env : Environment}
    (henv : ∀ word value, env word = some value → value.IsBounded) {s : Text} {value : Value}
    (h : evalText env s = .ok value) : value.IsBounded := by
  obtain ⟨tokens, expr, hlexes, hderives, hvalue⟩ := exists_of_evalText h
  refine hderives.isBounded (fun word value hword => ?_) hlexes.isBounded hvalue value
    (List.mem_singleton_self _)
  unfold Environment.valueOf? at hword
  split at hword
  next hset =>
    cases hword
    exact henv word _ hset
  next =>
    split at hword
    next =>
      cases hword
      trivial
    next => cases hword

end OdeModel
