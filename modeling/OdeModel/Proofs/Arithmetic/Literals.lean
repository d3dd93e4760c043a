import OdeModel.Proofs.Arithmetic.Lexemes
import OdeModel.Proofs.Arithmetic.Numerals
import Mathlib.Data.List.Chain

/-!
# Numeric texts

A number with or without a sign before it is one operand, its digits, and has a value as an
expression unless these digits are a whole number of more than 64 bits.
-/

namespace OdeModel

open Text

namespace Text

theorem figure_of_startsNumber {c : Char} {rest : Text} (h : startsNumber (c :: rest) = true) :
    (c.isDigit || c == '.') = true := by
  cases rest with
  | nil => exact Bool.or_eq_true_iff.2 (.inl h)
  | cons d rest =>
      simp only [startsNumber, Bool.or_eq_true, Bool.and_eq_true] at h ⊢
      exact h.imp id And.left

theorem spanSign_cases (s : Text) : (spanSign s).1 = [] ∨
    ∃ c, (spanSign s).1 = [c] ∧ (c = '+' ∨ c = '-') := by
  unfold spanSign
  split
  · exact .inl rfl
  next c rest =>
    split
    next hsign => exact .inr ⟨c, rfl, by simpa using hsign⟩
    next => exact .inl rfl

/-- All of a literal is the number that an operand starts with. -/
theorem spanNumber_of_read? {s : Text} {d : Decimal} (h : Decimal.read? s = some d) :
    startsNumber s = true ∧ spanNumber s = (s, []) := by
  obtain ⟨hstart, mantissa, exponent, n, rfl, hmantissa, hexponent⟩ := Decimal.exists_of_read? h
  have hspan := spanNumber_of_readExponent? hmantissa hexponent (s := []) (by simp [EndsNumber])
  rw [List.append_nil] at hspan
  exact ⟨hstart, hspan⟩

/-- A literal by itself is one operand. -/
theorem operandsFrom_of_read? {s : Text} {d : Decimal} (h : Decimal.read? s = some d)
    (offset : Nat) : operandsFrom offset s = [⟨offset, s, true⟩] := by
  obtain ⟨hstart, hspan⟩ := spanNumber_of_read? h
  cases s with
  | nil => cases hstart
  | cons c s =>
      rw [operandsFrom, if_neg (by simp [isNameStart_of_startsNumber hstart]), if_pos hstart,
        hspan]
      simp [operandsFrom]

/-- A sign is no operand. -/
theorem operandsFrom_sign {c : Char} (h : c = '+' ∨ c = '-') (offset : Nat) (s : Text) :
    operandsFrom offset (c :: s) = operandsFrom (offset + 1) s := by
  have hchar : isNameStart c = false ∧ c.isDigit = false ∧ (c == '.') = false ∧
      c.utf8Size = 1 := by
    rcases h with rfl | rfl <;> decide
  have hnumber : startsNumber (c :: s) = false := by
    cases s <;> simp [startsNumber, hchar]
  rw [operandsFrom, if_neg (by simp [hchar]), if_neg (by simp [hnumber]), hchar.2.2.2]

end Text

namespace Token

/-- Every character of an exponent goes on with a number. -/
theorem isChain_of_readExponent? {exponent : Text} {n : Int}
    (h : Decimal.readExponent? exponent = some n) :
    exponent.IsChain (fun c d => continuesNumber c d = true) ∧
      ∀ d ∈ exponent.head?, ∀ c, continuesNumber c d = true := by
  cases exponent with
  | nil => exact ⟨.nil, by simp⟩
  | cons e rest =>
      rw [Decimal.readExponent?] at h
      split at h
      next he =>
        obtain ⟨value, hdigits, -⟩ := Option.bind_eq_some_iff.1 h
        have hmark : ∀ c, continuesNumber c e = true := by
          intro c
          rw [Bool.or_eq_true, beq_iff_eq, beq_iff_eq] at he
          rcases he with rfl | rfl <;> simp [continuesNumber]
        have hall : ∀ c ∈ (spanSign rest).2, ∀ last, continuesNumber last c = true := by
          intro c hc last
          unfold readDigits? at hdigits
          split at hdigits
          next hall =>
            rw [Bool.and_eq_true, List.all_eq_true] at hall
            simp [continuesNumber, hall.2 c hc]
          next => contradiction
        have hchain : (spanSign rest).2.IsChain (fun c d => continuesNumber c d = true) :=
          List.Pairwise.isChain (List.pairwise_of_forall_mem_list fun c _ d hd => hall d hd c)
        refine ⟨?_, fun d hd => by cases Option.mem_some.1 hd; exact hmark⟩
        -- a sign may stand right behind the mark only
        have hsplit := spanSign_append rest
        rcases spanSign_cases rest with hnil | ⟨sign, hsign, hcases⟩
        · rw [hnil, List.nil_append] at hsplit
          rw [← hsplit]
          exact hchain.cons fun d hd => hall d (List.mem_of_mem_head? hd) e
        · rw [hsign, List.singleton_append] at hsplit
          rw [← hsplit]
          refine .cons_cons ?_ (hchain.cons fun d hd => hall d (List.mem_of_mem_head? hd) sign)
          rcases hcases with rfl | rfl <;> simpa [continuesNumber] using he
      next => contradiction

/-- A number takes all of a literal. -/
theorem spanNumeral_of_read? {c : Char} {figures : Text} {d : Decimal}
    (h : Decimal.read? (c :: figures) = some d) : spanNumeral c figures = (figures, []) := by
  obtain ⟨-, mantissa, exponent, n, hsplit, hmantissa, hexponent⟩ := Decimal.exists_of_read? h
  obtain ⟨hchain, hhead⟩ := isChain_of_readExponent? hexponent
  have hfigure : ∀ last, ∀ d ∈ mantissa, continuesNumber last d = true := by
    intro last d hd
    unfold continuesNumber
    rw [hmantissa d hd]
    rfl
  have hall : (mantissa ++ exponent).IsChain fun c d => continuesNumber c d = true :=
    (List.Pairwise.isChain (List.pairwise_of_forall_mem_list fun c _ d hd => hfigure c d hd)).append
      hchain fun c _ d hd => hhead d hd c
  rw [← hsplit] at hall
  have hspan := spanNumeral_eq_iff (s := []).2 ⟨hall, by simp⟩
  rwa [List.append_nil] at hspan

/-- A literal by itself is one token, its value, or it is refused. -/
theorem scanFrom_of_read? {s : Text} {d : Decimal} (h : Decimal.read? s = some d) (offset : Nat) :
    scanFrom offset s =
      match numeral? s with
      | none => .error ⟨offset, .invalidNumber s⟩
      | some value => .ok [(offset, number value)] := by
  cases s with
  | nil => cases h
  | cons c figures =>
      have hc := figure_of_startsNumber (Decimal.exists_of_read? h).1
      have hstars : ∀ rest, c = '*' → figures = '*' :: rest → False := by
        rintro rest rfl -
        cases hc
      rw [scanFrom_cons _ hstars, if_neg (by simp [isBlank_of_figure hc]), if_pos hc]
      simp only [spanNumeral_of_read? h, scanFrom_nil]
      cases numeral? (c :: figures) <;> rfl

end Token

/-- The value of a text that is a number with or without a sign. -/
theorem evalText_of_isNumeric {s : Text} (h : isNumeric s = true) (env : Environment) :
    evalText env s =
      match Token.numeral? (spanSign s).2 with
      | none => .error ⟨width (spanSign s).1, .invalidNumber (spanSign s).2⟩
      | some value => .ok (if (spanSign s).1 = ['-'] then value.neg else value) := by
  obtain ⟨d, hd⟩ := Option.isSome_iff_exists.1 (Bool.and_eq_true_iff.1 h).1
  have hsplit := spanSign_append s
  have hscan := Token.scanFrom_of_read? hd
  generalize (spanSign s).2 = body at hsplit hscan ⊢
  have hbody : ∀ offset value,
      Expr.Derives .signed [(offset, Token.number value)] (.number value) :=
    fun offset value => .unsigned (.base (.number offset value))
  rcases spanSign_cases s with hsign | ⟨c, hsign, hcases⟩
  · rw [hsign] at hsplit ⊢
    subst hsplit
    specialize hscan 0
    cases hvalue : Token.numeral? body with
    | none =>
        rw [hvalue] at hscan
        rw [evalText, List.nil_append, Token.scan, hscan]
        rfl
    | some value =>
        rw [hvalue] at hscan
        exact evalText_eq_ok_iff.2 ⟨_, _, hscan, .term (.factor (hbody 0 value)), rfl⟩
  · rw [hsign] at hsplit ⊢
    subst hsplit
    have hsingle : Token.scanFrom 0 (c :: body) =
        (Token.scanFrom 1 body).map ((0, .operator (if c = '-' then .sub else .add)) :: ·) := by
      apply Token.scanFrom_single
      all_goals rcases hcases with rfl | rfl <;> simp [Token.single?, isSeparator]
    rw [hscan 1] at hsingle
    have hwidth : width [c] = 1 := by rcases hcases with rfl | rfl <;> rfl
    cases hvalue : Token.numeral? body with
    | none =>
        rw [hvalue] at hsingle
        rw [evalText, List.singleton_append, Token.scan, hsingle, hwidth]
        rfl
    | some value =>
        rw [hvalue] at hsingle
        rcases hcases with rfl | rfl
        · exact evalText_eq_ok_iff.2
            ⟨_, _, hsingle, .term (.factor (.noted 0 (hbody 1 value))), rfl⟩
        · exact evalText_eq_ok_iff.2
            ⟨_, _, hsingle, .term (.factor (.minus 0 (hbody 1 value))), rfl⟩

namespace Text

/-- A number is one operand, all of it behind the sign. -/
theorem operands_of_isNumeric {s : Text} (h : isNumeric s = true) :
    operands s = [⟨width (spanSign s).1, (spanSign s).2, true⟩] := by
  obtain ⟨d, hd⟩ := Option.isSome_iff_exists.1 (Bool.and_eq_true_iff.1 h).1
  have hsplit := spanSign_append s
  have hoperand := operandsFrom_of_read? hd
  rcases spanSign_cases s with hsign | ⟨c, hsign, hcases⟩
  · rw [hsign, List.nil_append] at hsplit
    rw [hsplit] at hoperand
    rw [operands, hoperand 0, hsign, hsplit]
    rfl
  · rw [hsign, List.singleton_append] at hsplit
    have hwidth : width [c] = 1 := by rcases hcases with rfl | rfl <;> rfl
    conv_lhs => rw [← hsplit]
    rw [operands, operandsFrom_sign hcases, hoperand 1, hsign, hwidth]

/-- A number with or without a sign is one operand, all of it behind the sign, and it has a
value exactly if it is no whole number of more than 64 bits. -/
theorem isNumeric_agrees {s : Text} (h : isNumeric s = true) (env : Environment) :
    operands s = [⟨width (spanSign s).1, (spanSign s).2, true⟩] ∧
      ((∃ value, evalText env s = .ok value) ↔
        ((spanSign s).2.all Char.isDigit = true → digitsValue (spanSign s).2 ≤ Value.largest)) := by
  have hread : (Decimal.read? (spanSign s).2).isSome = true := (Bool.and_eq_true_iff.1 h).1
  have hvalue : (∃ value, evalText env s = .ok value) ↔
      (Token.numeral? (spanSign s).2).isSome = true := by
    rw [evalText_of_isNumeric h]
    cases Token.numeral? (spanSign s).2 <;> simp
  refine ⟨operands_of_isNumeric h, ?_⟩
  rw [hvalue, Token.isSome_numeral?_iff]
  exact and_iff_right hread

theorem isNumeric_agrees_largest : isNumeric "-9223372036854775807".toList = true ∧
    (operands "-9223372036854775807".toList = [⟨width (spanSign "-9223372036854775807".toList).1,
      (spanSign "-9223372036854775807".toList).2, true⟩] ∧
      ((∃ value, evalText .empty "-9223372036854775807".toList = .ok value) ↔
        ((spanSign "-9223372036854775807".toList).2.all Char.isDigit = true →
          digitsValue (spanSign "-9223372036854775807".toList).2 ≤ Value.largest))) :=
  ⟨by decide, isNumeric_agrees (by decide) .empty⟩

/-- A whole number of 64 bits and one more is numeric but is refused as an expression. -/
theorem isNumeric_without_value :
    isNumeric "9223372036854775808".toList = true ∧
      ¬ ∃ value, evalText .empty "9223372036854775808".toList = .ok value := by
  have hnumeric : isNumeric "9223372036854775808".toList = true := by decide
  refine ⟨hnumeric, ?_⟩
  rintro ⟨value, hvalue⟩
  rw [evalText_of_isNumeric hnumeric] at hvalue
  cases hvalue

end Text

end OdeModel
