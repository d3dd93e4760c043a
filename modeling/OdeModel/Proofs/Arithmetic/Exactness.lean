import OdeModel.Proofs.Arithmetic.Spelling
import Mathlib.Algebra.Ring.Int.Parity

/-!
# Exact results

An expression over whole numbers, with signs, sums, differences, products, powers and
parentheses, has an exact value. Whatever its operators give as a whole number is exact, a
double never becomes a whole number again, and nothing is rounded as long as all exact values
fit into 64 bits.
-/

namespace OdeModel

namespace Operator

/-- The result of an operator on integers, where it is one for all of them. -/
def onInts? : Operator → Int → Int → Option Int
  | add, a, b => some (a + b)
  | sub, a, b => some (a - b)
  | mul, a, b => some (a * b)
  | div, _, _ => none

end Operator

namespace Value

/-- The integer is one of 64 bits. -/
def Fits (n : Int) : Prop := smallest ≤ n ∧ n ≤ largest

instance (n : Int) : Decidable (Fits n) := inferInstanceAs (Decidable (_ ∧ _))

variable {a b : Value} {n : Int}

theorem fit?_eq_some_iff {m : Int} : fit? n = some (whole m) ↔ n = m ∧ Fits m := by
  unfold fit?
  split
  next h =>
    rw [Option.some_inj, whole.injEq]
    exact ⟨fun heq => ⟨heq, heq ▸ h⟩, And.left⟩
  next h => exact ⟨nofun, fun ⟨heq, hm⟩ => absurd (heq ▸ hm) h⟩

/-- A result that is rounded where there is no exact one is whole only if it is exact. -/
theorem getD_eq_whole_iff {found? : Option Value} {x : Float} :
    found?.getD (real x) = whole n ↔ found? = some (whole n) := by
  cases found? <;> simp

theorem neg_eq_whole_iff : a.neg = whole n ↔ ∃ m, a = whole m ∧ -m = n ∧ Fits n := by
  cases a with
  | whole m => simp only [neg, getD_eq_whole_iff, fit?_eq_some_iff, whole.injEq, exists_eq_left']
  | real x => simp [neg]

theorem apply_eq_whole_iff {op : Operator} : op.apply a b = whole n ↔
    ∃ x y, a = whole x ∧ b = whole y ∧ op.onInts? x y = some n ∧ Fits n := by
  have hexact : ∀ x y, op.wholeResult? x y = some (whole n) ↔
      op.onInts? x y = some n ∧ Fits n := by
    intro x y
    cases op <;> simp [Operator.wholeResult?, Operator.onInts?, fit?_eq_some_iff]
  cases a with
  | real x => simp [Operator.apply]
  | whole x =>
      cases b with
      | real y => simp [Operator.apply]
      | whole y => simp [Operator.apply, getD_eq_whole_iff, hexact]

/-- A base of two or more in size has no power of 64 bits with an exponent above 63. -/
theorem not_fits_pow {base : Int} (hbase : 2 ≤ base.natAbs) {k : Nat} (hk : 64 ≤ k) :
    ¬ Fits (base ^ k) := by
  have hlarge : 2 ^ 64 ≤ (base ^ k).natAbs := by
    rw [Int.natAbs_pow]
    exact (Nat.pow_le_pow_right (by decide) hk).trans (Nat.pow_le_pow_left hbase k)
  have hsmallest : smallest = -2 ^ 63 := rfl
  have hlargest : largest = 2 ^ 63 - 1 := rfl
  rintro ⟨hlow, hhigh⟩
  omega

/-- The powers of a base of one at most in size depend on the parity of the exponent. -/
theorem pow_of_natAbs_le_one {base : Int} (hbase : base.natAbs ≤ 1) (k : Nat) :
    base ^ k = if (k : Int) = 0 then 1 else if (k : Int) % 2 = 0 then base * base else base := by
  obtain rfl | hk := Nat.eq_zero_or_pos k
  · simp
  rw [if_neg (by omega)]
  obtain rfl | rfl | rfl : base = 0 ∨ base = 1 ∨ base = -1 := by omega
  · rw [zero_pow hk.ne', mul_zero, ite_self]
  · rw [one_pow, mul_one, ite_self]
  · rcases Nat.even_or_odd k with heven | hodd
    · rw [heven.neg_one_pow, if_pos (by have := Nat.even_iff.1 heven; omega)]
      rfl
    · rw [hodd.neg_one_pow, if_neg (by have := Nat.odd_iff.1 hodd; omega)]

/-- With an exponent of 32 bits a power is the exact one, where that fits. -/
theorem exactPower?_eq_fit? {base exponent : Int} (hlow : 0 ≤ exponent)
    (hhigh : exponent < 2 ^ 32) : exactPower? base exponent = fit? (base ^ exponent.toNat) := by
  obtain ⟨k, rfl⟩ := Int.eq_ofNat_of_zero_le hlow
  have hrange : ¬ ((k : Int) < 0 ∨ Int.pow 2 32 ≤ k) := by
    have hpow : Int.pow 2 32 = 2 ^ 32 := rfl
    omega
  rw [exactPower?, if_neg hrange, Int.toNat_natCast]
  by_cases hbase : base.natAbs ≤ 1
  · rw [if_pos hbase, pow_of_natAbs_le_one hbase]
  · rw [if_neg hbase]
    split
    next hlarge =>
      have hnot : ¬ Fits (base ^ k) := not_fits_pow (by omega) (by omega)
      exact (if_neg hnot).symm
    next => rfl

theorem power_eq_whole_iff : a.power b = whole n ↔ ∃ x y, a = whole x ∧ b = whole y ∧
    (0 ≤ y ∧ y < 2 ^ 32) ∧ x ^ y.toNat = n ∧ Fits n := by
  cases a with
  | real x => simp [power]
  | whole x =>
      cases b with
      | real y => simp [power]
      | whole y =>
          simp only [power, getD_eq_whole_iff, whole.injEq, ↓existsAndEq, true_and]
          by_cases hrange : 0 ≤ y ∧ y < 2 ^ 32
          · rw [exactPower?_eq_fit? hrange.1 hrange.2, fit?_eq_some_iff]
            exact (and_iff_right hrange).symm
          · have hnone : exactPower? x y = none := by
              rw [exactPower?, if_pos]
              have hpow : Int.pow 2 32 = 2 ^ 32 := rfl
              omega
            rw [hnone]
            exact ⟨nofun, fun h => absurd h.1 hrange⟩

end Value

namespace Phrase

open Value (whole)

variable {env : Environment}

/-- The expression is made of whole numbers, of names of such, of signs, sums, differences,
products, powers and parentheses. -/
def OverIntegers (env : Environment) : {level : Level} → Phrase level → Prop
  | _, literal numeral => ∀ c ∈ numeral.text, c.isDigit = true
  | _, name word => ∃ n, env word.text = some (whole n)
  | _, group inner => inner.OverIntegers env
  | _, call _ _ => False
  | _, base operand => operand.OverIntegers env
  | _, power _ left right => left.OverIntegers env ∧ right.OverIntegers env
  | _, unsigned operand => operand.OverIntegers env
  | _, sign _ operand => operand.OverIntegers env
  | _, factor signed => signed.OverIntegers env
  | _, times divide left right =>
      divide = false ∧ left.OverIntegers env ∧ right.OverIntegers env
  | _, term product => product.OverIntegers env
  | _, plus _ left right => left.OverIntegers env ∧ right.OverIntegers env
  | _, last _ => False
  | _, more _ _ => False

/-- The value of an expression over the integers, where a power needs an exponent that is
not negative. -/
def exact (env : Environment) : {level : Level} → Phrase level → Option Int
  | _, literal numeral => (readDigits? numeral.text).map Int.ofNat
  | _, name word => (env word.text).bind Value.toInt?
  | _, group inner => inner.exact env
  | _, call _ _ => none
  | _, base operand => operand.exact env
  | _, power _ left right => do
      let a ← left.exact env
      let b ← right.exact env
      if 0 ≤ b then some (a ^ b.toNat) else none
  | _, unsigned operand => operand.exact env
  | _, sign minus operand => do
      let a ← operand.exact env
      return if minus then -a else a
  | _, factor signed => signed.exact env
  | _, times divide left right => do
      let a ← left.exact env
      let b ← right.exact env
      (factorOperator divide).onInts? a b
  | _, term product => product.exact env
  | _, plus minus left right => do
      let a ← left.exact env
      let b ← right.exact env
      (termOperator minus).onInts? a b
  | _, last _ => none
  | _, more _ _ => none

/-- Every exact value in the expression is one of 64 bits, and every exponent is one of 32
bits without a sign. -/
def StaysInRange (env : Environment) : {level : Level} → Phrase level → Prop
  | _, literal numeral => ∀ n ∈ (literal numeral).exact env, Value.Fits n
  | _, name word => ∀ n ∈ (name word).exact env, Value.Fits n
  | _, group inner => inner.StaysInRange env
  | _, call _ arguments => arguments.StaysInRange env
  | _, base operand => operand.StaysInRange env
  | _, power stars left right => left.StaysInRange env ∧ right.StaysInRange env ∧
      (∀ e ∈ right.exact env, 0 ≤ e ∧ e < 2 ^ 32) ∧
        ∀ n ∈ (power stars left right).exact env, Value.Fits n
  | _, unsigned operand => operand.StaysInRange env
  | _, sign minus operand => operand.StaysInRange env ∧
      ∀ n ∈ (sign minus operand).exact env, Value.Fits n
  | _, factor signed => signed.StaysInRange env
  | _, times divide left right => left.StaysInRange env ∧ right.StaysInRange env ∧
      ∀ n ∈ (times divide left right).exact env, Value.Fits n
  | _, term product => product.StaysInRange env
  | _, plus minus left right => left.StaysInRange env ∧ right.StaysInRange env ∧
      ∀ n ∈ (plus minus left right).exact env, Value.Fits n
  | _, last argument => argument.StaysInRange env
  | _, more argument later => argument.StaysInRange env ∧ later.StaysInRange env

/-- The value is exact, or there is more than one. -/
def IsExact : {level : Level} → level.Result → Option Int → Prop
  | .arguments, _, _ => True
  | .sum, value, exact | .product, value, exact | .signed, value, exact | .power, value, exact
  | .operand, value, exact => ∀ n, value = some (whole n) → exact = some n

/-- The value is whole, and so is the exact one, or there is more than one. -/
def IsWhole : {level : Level} → level.Result → Option Int → Prop
  | .arguments, _, _ => True
  | .sum, value, exact | .product, value, exact | .signed, value, exact | .power, value, exact
  | .operand, value, exact => ∃ n, value = some (whole n) ∧ exact = some n

theorem isExact_value {level : Level} (phrase : Phrase level) (h : phrase.OverIntegers env) :
    IsExact (phrase.value env.valueOf? builtin) (phrase.exact env) := by
  induction phrase with
  | literal numeral =>
      intro n hvalue
      have hall : numeral.text.all Char.isDigit = true := List.all_eq_true.2 h
      rw [value, Token.numeral?, if_pos hall] at hvalue
      obtain ⟨m, hread, hfit⟩ := Option.bind_eq_some_iff.1 hvalue
      rw [exact, hread]
      exact congrArg some (Value.fit?_eq_some_iff.1 hfit).1
  | name word =>
      intro n hvalue
      obtain ⟨m, hm⟩ := h
      simp only [value, Environment.valueOf?, hm] at hvalue
      cases hvalue
      simp [exact, hm, Value.toInt?]
  | group inner ih => exact ih h
  | call function arguments => exact h.elim
  | base operand ih => exact ih h
  | power stars left right ihl ihr =>
      intro n hvalue
      obtain ⟨a, ha, hvalue⟩ := Option.bind_eq_some_iff.1 hvalue
      obtain ⟨b, hb, hvalue⟩ := Option.bind_eq_some_iff.1 hvalue
      obtain ⟨x, y, rfl, rfl, hrange, rfl, -⟩ :=
        Value.power_eq_whole_iff.1 (Option.some.inj hvalue)
      simp [exact, ihl h.1 x ha, ihr h.2 y hb, hrange.1]
  | unsigned operand ih => exact ih h
  | sign minus operand ih =>
      intro n hvalue
      obtain ⟨a, ha, hvalue⟩ := Option.bind_eq_some_iff.1 hvalue
      cases minus with
      | false =>
          cases hvalue
          simp [exact, ih h n ha]
      | true =>
          obtain ⟨x, rfl, rfl, -⟩ := Value.neg_eq_whole_iff.1 (Option.some.inj hvalue)
          simp [exact, ih h x ha]
  | factor signed ih => exact ih h
  | times divide left right ihl ihr =>
      intro n hvalue
      obtain ⟨a, ha, hvalue⟩ := Option.bind_eq_some_iff.1 hvalue
      obtain ⟨b, hb, hvalue⟩ := Option.bind_eq_some_iff.1 hvalue
      obtain ⟨x, y, rfl, rfl, hexact, -⟩ := Value.apply_eq_whole_iff.1 (Option.some.inj hvalue)
      simp [exact, ihl h.2.1 x ha, ihr h.2.2 y hb, hexact]
  | term product ih => exact ih h
  | plus minus left right ihl ihr =>
      intro n hvalue
      obtain ⟨a, ha, hvalue⟩ := Option.bind_eq_some_iff.1 hvalue
      obtain ⟨b, hb, hvalue⟩ := Option.bind_eq_some_iff.1 hvalue
      obtain ⟨x, y, rfl, rfl, hexact, -⟩ := Value.apply_eq_whole_iff.1 (Option.some.inj hvalue)
      simp [exact, ihl h.1 x ha, ihr h.2 y hb, hexact]
  | last argument => trivial
  | more argument later => trivial

theorem isWhole_value {level : Level} (phrase : Phrase level) (h : phrase.OverIntegers env)
    (hrange : phrase.StaysInRange env) :
    IsWhole (phrase.value env.valueOf? builtin) (phrase.exact env) := by
  induction phrase with
  | literal numeral =>
      have hall : numeral.text.all Char.isDigit = true := List.all_eq_true.2 h
      have hread : readDigits? numeral.text = some (digitsValue numeral.text) := by
        simp [readDigits?, hall, numeral.ne_nil]
      have hexact : exact env (literal numeral) = some (digitsValue numeral.text : Int) := by
        rw [exact, hread]
        rfl
      refine ⟨_, ?_, hexact⟩
      rw [value, Token.numeral?, if_pos hall, hread]
      exact Value.fit?_eq_some_iff.2 ⟨rfl, hrange _ hexact⟩
  | name word =>
      obtain ⟨n, hn⟩ := h
      exact ⟨n, by simp [value, Environment.valueOf?, hn], by simp [exact, hn, Value.toInt?]⟩
  | group inner ih => exact ih h hrange
  | call function arguments => exact h.elim
  | base operand ih => exact ih h hrange
  | power stars left right ihl ihr =>
      obtain ⟨hleft, hright, hexponent, hfits⟩ := hrange
      obtain ⟨x, hx, hx'⟩ := ihl h.1 hleft
      obtain ⟨y, hy, hy'⟩ := ihr h.2 hright
      have hexact : exact env (power stars left right) = some (x ^ y.toNat) := by
        simp [exact, hx', hy', (hexponent y hy').1]
      refine ⟨_, ?_, hexact⟩
      have hvalue := Value.power_eq_whole_iff.2
        ⟨x, y, rfl, rfl, hexponent y hy', rfl, hfits _ hexact⟩
      simp [value, hx, hy, hvalue]
  | unsigned operand ih => exact ih h hrange
  | sign minus operand ih =>
      obtain ⟨hoperand, hfits⟩ := hrange
      obtain ⟨x, hx, hx'⟩ := ih h hoperand
      cases minus with
      | false => exact ⟨x, by simp [value, hx], by simp [exact, hx']⟩
      | true =>
          have hexact : exact env (sign true operand) = some (-x) := by simp [exact, hx']
          have hvalue := Value.neg_eq_whole_iff.2 ⟨x, rfl, rfl, hfits _ hexact⟩
          exact ⟨-x, by simp [value, hx, hvalue], hexact⟩
  | factor signed ih => exact ih h hrange
  | times divide left right ihl ihr =>
      obtain ⟨rfl, hl, hr⟩ := h
      obtain ⟨hleft, hright, hfits⟩ := hrange
      obtain ⟨x, hx, hx'⟩ := ihl hl hleft
      obtain ⟨y, hy, hy'⟩ := ihr hr hright
      have hexact : exact env (times false left right) = some (x * y) := by
        simp [exact, hx', hy', factorOperator, Operator.onInts?]
      have hmul : Operator.mul.onInts? x y = some (x * y) := rfl
      have hvalue := Value.apply_eq_whole_iff.2 ⟨x, y, rfl, rfl, hmul, hfits _ hexact⟩
      exact ⟨_, by simp [value, hx, hy, factorOperator, hvalue], hexact⟩
  | term product ih => exact ih h hrange
  | plus minus left right ihl ihr =>
      obtain ⟨hleft, hright, hfits⟩ := hrange
      obtain ⟨x, hx, hx'⟩ := ihl h.1 hleft
      obtain ⟨y, hy, hy'⟩ := ihr h.2 hright
      obtain ⟨n, hn⟩ : ∃ n, (termOperator minus).onInts? x y = some n := by
        cases minus <;> exact ⟨_, rfl⟩
      have hexact : exact env (plus minus left right) = some n := by simp [exact, hx', hy', hn]
      have hvalue := Value.apply_eq_whole_iff.2 ⟨x, y, rfl, rfl, hn, hfits _ hexact⟩
      exact ⟨n, by simp [value, hx, hy, hvalue], hexact⟩
  | last argument => trivial
  | more argument later => trivial

/-- Whenever an expression over the integers is evaluated to a whole number, that is its exact
value, and it is evaluated to one if all exact values in it fit into 64 bits and all exponents
into 32. -/
theorem evalText_exact {phrase : Phrase .sum} (h : phrase.OverIntegers env) {s : Text}
    (hs : Spells phrase.lexemes s) :
    (∀ n, evalText env s = .ok (whole n) → phrase.exact env = some n) ∧
      (phrase.StaysInRange env → ∃ n, evalText env s = .ok (whole n)) := by
  have hvalue := phrase.evalText_spelled env hs
  constructor
  · intro n hn
    rw [hn] at hvalue
    exact phrase.isExact_value h n hvalue.symm
  · intro hrange
    obtain ⟨n, hn, -⟩ := phrase.isWhole_value h hrange
    refine ⟨n, ?_⟩
    rw [hn] at hvalue
    cases heval : evalText env s with
    | ok value =>
        rw [heval] at hvalue
        exact congrArg Except.ok (Option.some.inj hvalue)
    | error error =>
        rw [heval] at hvalue
        cases hvalue

/-- Twice one less than a power of two, and a name added to it. -/
def nearLimit : Phrase .sum :=
  have literal (text : Text) (hne : text ≠ [])
      (h : text.all (fun d => d.isDigit || d == '.') = true) : Phrase .operand :=
    .literal ⟨text, hne, List.all_eq_true.1 h⟩
  have two := literal "2".toList (by decide) rfl
  have difference : Phrase .sum :=
    .plus true (.term (.factor (.unsigned (.power true two
      (.unsigned (.base (literal "62".toList (by decide) rfl)))))))
      (.factor (.unsigned (.base (literal "1".toList (by decide) rfl))))
  .plus false
    (.term (.times false (.factor (.unsigned (.base (.group difference)))) (.unsigned (.base two))))
    (.factor (.unsigned (.base (.name (.ofText ['n'] (by decide))))))

theorem evalText_exact_nearLimit :
    (nearLimit.OverIntegers (Environment.empty.set ['n'] (whole 1)) ∧
      Spells nearLimit.lexemes "(2 **62 - 1)*2 + n ".toList) ∧
    nearLimit.StaysInRange (Environment.empty.set ['n'] (whole 1)) ∧
    nearLimit.exact (Environment.empty.set ['n'] (whole 1)) = some Value.largest ∧
    evalText (Environment.empty.set ['n'] (whole 1)) "(2 **62 - 1)*2 + n ".toList =
      .ok (whole Value.largest) := by
  have hinteger : nearLimit.OverIntegers (Environment.empty.set ['n'] (whole 1)) := by
    simp [nearLimit, OverIntegers, Environment.set, Symbol.ofText]
  have hspells : Spells nearLimit.lexemes "(2 **62 - 1)*2 + n ".toList :=
    .word _ (.word _ (.blank rfl (.word _ (.word _ (.blank rfl (.word _ (.blank rfl (.word _
      (.word _ (.word _ (.word _ (.blank rfl (.word _ (.blank rfl (.word _
        (.blank rfl .nil))))))))))))))))
  have hexact : nearLimit.exact (Environment.empty.set ['n'] (whole 1)) = some Value.largest := by
    rfl
  have hrange : nearLimit.StaysInRange (Environment.empty.set ['n'] (whole 1)) := by
    refine ⟨⟨⟨⟨?_, ?_, ?_, ?_⟩, ?_, ?_⟩, ?_, ?_⟩, ?_, ?_⟩
    all_goals
      rintro _ ⟨⟩
      decide
  obtain ⟨hvalue, hwhole⟩ := evalText_exact hinteger hspells
  obtain ⟨n, hn⟩ := hwhole hrange
  have heq := (hvalue n hn).symm.trans hexact
  cases heq
  exact ⟨⟨hinteger, hspells⟩, hrange, hexact, hn⟩

end Phrase

end OdeModel
