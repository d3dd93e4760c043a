import OdeModel.Text.Name

/-!
# Operands

The names and the number literals of an expression, from left to right. A
literal is a run of digits and points with an exponent where one is complete,
so the letter `e` after a number is a name of its own unless digits follow.
-/

namespace OdeModel

/-- A name or a number literal in an expression. -/
structure Operand where
  /-- Position of the first character. -/
  offset : Nat
  /-- The operand as written. -/
  text : Text
  /-- The operand is a number literal. -/
  isNumber : Bool
  deriving Repr, DecidableEq

namespace Text

/-- Splits off a sign. -/
def spanSign : Text → Text × Text
  | [] => ([], [])
  | c :: rest => if c == '+' || c == '-' then ([c], rest) else ([], c :: rest)

/-- Splits off a complete exponent: `e` or `E`, perhaps a sign, and digits. -/
def spanExponent : Text → Text × Text
  | [] => ([], [])
  | e :: rest =>
      if (e == 'e' || e == 'E') && (spanSign rest).2.head?.any Char.isDigit then
        (e :: (spanSign rest).1 ++ (spanSign rest).2.takeWhile Char.isDigit,
          (spanSign rest).2.dropWhile Char.isDigit)
      else ([], e :: rest)

/-- Splits off a number literal at its first digit or point. -/
def spanNumber (s : Text) : Text × Text :=
  let isMantissa := fun (c : Char) => c.isDigit || c == '.'
  let (exponent, rest) := spanExponent (s.dropWhile isMantissa)
  (s.takeWhile isMantissa ++ exponent, rest)

/-- A number literal starts here: a digit, or a point with a digit after it. -/
def startsNumber : Text → Bool
  | [] => false
  | [c] => c.isDigit
  | c :: d :: _ => c.isDigit || (c == '.' && d.isDigit)

theorem spanSign_append (s : Text) : (spanSign s).1 ++ (spanSign s).2 = s := by
  unfold spanSign
  split
  · rfl
  · split <;> rfl

theorem spanExponent_append (s : Text) : (spanExponent s).1 ++ (spanExponent s).2 = s := by
  unfold spanExponent
  split
  · rfl
  · next e rest =>
      split
      · simp [spanSign_append]
      · rfl

/-- A number literal and what follows it make up the text. -/
theorem spanNumber_append (s : Text) : (spanNumber s).1 ++ (spanNumber s).2 = s := by
  simp [spanNumber, spanExponent_append]

/-- A number literal is never empty. -/
theorem spanNumber_fst_ne_nil {s : Text} (h : startsNumber s = true) :
    (spanNumber s).1 ≠ [] := by
  have hm : ∃ c r, s = c :: r ∧ (c.isDigit || c == '.') = true := by
    match s, h with
    | [c], h => exact ⟨c, [], rfl, by simp_all [startsNumber]⟩
    | c :: d :: r, h =>
        refine ⟨c, d :: r, rfl, ?_⟩
        simp only [startsNumber, Bool.or_eq_true, Bool.and_eq_true] at h ⊢
        exact h.imp id And.left
  obtain ⟨c, r, rfl, hc⟩ := hm
  simp [spanNumber, hc]

theorem length_spanNumber_lt {s : Text} (h : startsNumber s = true) :
    (spanNumber s).2.length < s.length := by
  have hs := congrArg List.length (spanNumber_append s)
  have hn := List.length_pos_iff.2 (spanNumber_fst_ne_nil h)
  simp only [List.length_append] at hs
  omega

theorem length_dropWhile_cons_lt {p : Char → Bool} {c : Char} {rest : Text} (h : p c = true) :
    ((c :: rest).dropWhile p).length < (c :: rest).length := by
  rw [List.dropWhile_cons, if_pos h]
  exact Nat.lt_succ_of_le (List.dropWhile_sublist p).length_le

theorem isNameChar_of_isNameStart {c : Char} (h : isNameStart c = true) :
    isNameChar c = true := by
  simp only [isNameStart, isNameChar, Bool.or_eq_true] at h ⊢
  exact h.imp Or.inl id

/-- The operands of a text that stands at position `offset`. -/
def operandsFrom (offset : Nat) (s : Text) : List Operand :=
  match s with
  | [] => []
  | c :: rest =>
      if isNameStart c then
        let name := (c :: rest).takeWhile isNameChar
        ⟨offset, name, false⟩ ::
          operandsFrom (offset + width name) ((c :: rest).dropWhile isNameChar)
      else if startsNumber (c :: rest) then
        let number := (spanNumber (c :: rest)).1
        ⟨offset, number, true⟩ ::
          operandsFrom (offset + width number) (spanNumber (c :: rest)).2
      else operandsFrom (offset + c.utf8Size) rest
termination_by s.length
decreasing_by
  · exact length_dropWhile_cons_lt (isNameChar_of_isNameStart (by assumption))
  · exact length_spanNumber_lt (by assumption)
  · simp

/-- The names and number literals of an expression, in order. -/
def operands (s : Text) : List Operand := operandsFrom 0 s

end Text

end OdeModel
