import OdeModel.Proofs.Arithmetic.Lexing
import OdeModel.Proofs.Text.Operands

/-!
# Number literals

The scanner takes all characters that can go on with a number and then asks for a value;
the operands of a text end a literal where no more of one can be read. Where there is a
value both take the same characters. The digits of a whole number have it as their value.
-/

namespace OdeModel

open Text

/-! ### Digits -/

theorem isDigit_of_mem_natText {n : Nat} {c : Char} (h : c ∈ natText n) : c.isDigit = true :=
  Nat.isDigit_of_mem_toDigits (by decide) (by decide) h

theorem natText_ne_nil (n : Nat) : natText n ≠ [] := Nat.toDigits_ne_nil

theorem digitsValue_natText (n : Nat) : digitsValue (natText n) = n :=
  Nat.ofDigitChars_toDigits (by decide) (by decide)

theorem readDigits?_natText (n : Nat) : readDigits? (natText n) = some n := by
  have hall : (natText n).all Char.isDigit = true :=
    List.all_eq_true.2 fun _ => isDigit_of_mem_natText
  simp [readDigits?, hall, digitsValue_natText, natText_ne_nil]

/-! ### Literals -/

namespace Text

theorem startsNumber_append {s : Text} (h : startsNumber s = true) (t : Text) :
    startsNumber (s ++ t) = true := by
  match s, t, h with
  | [c], [], h => exact h
  | [c], d :: t, h =>
      have hc : c.isDigit = true := h
      simp [startsNumber, hc]
  | c :: d :: s, t, h => exact h

theorem spanExponent_of_readExponent? {exponent s : Text} {n : Int}
    (h : Decimal.readExponent? exponent = some n) (hs : s.EndsNumber) :
    spanExponent (exponent ++ s) = (exponent, s) := by
  cases exponent with
  | nil =>
      cases s with
      | nil => rfl
      | cons c s =>
          have hc := hs c rfl
          simp only [Bool.or_eq_false_iff] at hc
          simp [spanExponent, hc]
  | cons e rest =>
      rw [Decimal.readExponent?] at h
      split at h
      next he =>
        obtain ⟨value, hdigits, -⟩ := Option.bind_eq_some_iff.1 h
        unfold readDigits? at hdigits
        split at hdigits
        next hall =>
          rw [Bool.and_eq_true, Bool.not_eq_true', List.isEmpty_eq_false_iff,
            List.all_eq_true] at hall
          obtain ⟨hne, hall⟩ := hall
          have hsign : spanSign (rest ++ s) = ((spanSign rest).1, (spanSign rest).2 ++ s) := by
            cases rest with
            | nil => exact absurd rfl hne
            | cons c rest =>
                rw [List.cons_append, spanSign, spanSign]
                split
                next => rfl
                next => rfl
          obtain ⟨d, digits, hd⟩ := List.exists_cons_of_ne_nil hne
          obtain ⟨htake, hdrop⟩ := takeWhile_dropWhile_append hall fun c hc => by
            have hstop := hs c hc
            simp only [Bool.or_eq_false_iff] at hstop
            exact hstop.1.1.1
          have hhead : ((spanSign rest).2 ++ s).head?.any Char.isDigit = true := by
            rw [hd]
            exact hall d (by rw [hd]; exact List.mem_cons_self)
          rw [List.cons_append, spanExponent, hsign, if_pos (by rw [he, hhead]; rfl)]
          dsimp only
          rw [htake, hdrop, List.cons_append, spanSign_append]
        next => contradiction
      next => contradiction

theorem spanNumber_of_readExponent? {mantissa exponent s : Text} {n : Int}
    (hmantissa : ∀ c ∈ mantissa, (c.isDigit || c == '.') = true)
    (hexponent : Decimal.readExponent? exponent = some n) (hs : s.EndsNumber) :
    spanNumber (mantissa ++ exponent ++ s) = (mantissa ++ exponent, s) := by
  have hhead : ∀ c ∈ (exponent ++ s).head?, (c.isDigit || c == '.') = false := by
    intro c hc
    cases exponent with
    | nil =>
        have hstop := hs c hc
        simp only [Bool.or_eq_false_iff] at hstop
        simp [hstop]
    | cons e rest =>
        cases Option.mem_some.1 hc
        rw [Decimal.readExponent?] at hexponent
        split at hexponent
        next he =>
          rw [Bool.or_eq_true, beq_iff_eq, beq_iff_eq] at he
          rcases he with rfl | rfl <;> decide
        next => contradiction
  obtain ⟨htake, hdrop⟩ := takeWhile_dropWhile_append hmantissa hhead
  rw [spanNumber, List.append_assoc, htake, hdrop, spanExponent_of_readExponent? hexponent hs]

end Text

namespace Decimal

/-- Digits alone are a literal. -/
theorem isSome_read?_of_digits {s : Text} (hne : s ≠ []) (hall : ∀ c ∈ s, c.isDigit = true) :
    (read? s).isSome = true := by
  obtain ⟨htake, hdrop⟩ := @takeWhile_dropWhile_append _ s [] hall (by simp)
  rw [List.append_nil] at htake hdrop
  rw [read?, htake, hdrop]
  simp [readExponent?, hne]

/-- A literal is digits and points, perhaps with an exponent behind them. -/
theorem exists_of_read? {s : Text} {d : Decimal} (h : read? s = some d) :
    startsNumber s = true ∧ ∃ mantissa exponent n, s = mantissa ++ exponent ∧
      (∀ c ∈ mantissa, (c.isDigit || c == '.') = true) ∧ readExponent? exponent = some n := by
  have hdigits : ∀ {c : Char} (rest : Text), c.isDigit = true → startsNumber (c :: rest) = true :=
    fun rest hc => startsNumber_append (s := [_]) hc rest
  have hfigure : ∀ {c : Char}, c.isDigit = true → (c.isDigit || c == '.') = true :=
    fun hc => by rw [hc, Bool.true_or]
  have hsplit := List.takeWhile_append_dropWhile (p := Char.isDigit) (l := s)
  have hwhole : ∀ c ∈ s.takeWhile Char.isDigit, c.isDigit = true :=
    fun c hc => List.mem_takeWhile_imp hc
  unfold read? at h
  generalize s.takeWhile Char.isDigit = whole at hsplit hwhole h
  split at h
  next rest hrest =>
    -- digits, a point and more digits
    unfold readFraction? at h
    obtain ⟨exponent, hexponent, hresult⟩ := Option.bind_eq_some_iff.1 h
    clear h
    have hsplit' := List.takeWhile_append_dropWhile (p := Char.isDigit) (l := rest)
    have hfraction : ∀ c ∈ rest.takeWhile Char.isDigit, c.isDigit = true :=
      fun c hc => List.mem_takeWhile_imp hc
    rw [hrest] at hsplit
    generalize rest.takeWhile Char.isDigit = fraction at hsplit' hfraction hresult
    generalize rest.dropWhile Char.isDigit = later at hsplit' hexponent
    subst hsplit' hsplit
    refine ⟨?_, whole ++ '.' :: fraction, later, exponent, by simp, ?_, hexponent⟩
    · cases whole with
      | cons c whole => exact hdigits _ (hwhole c List.mem_cons_self)
      | nil =>
          cases fraction with
          | nil => simp at hresult
          | cons c fraction => simp [startsNumber, hfraction c List.mem_cons_self]
    · simp only [List.mem_append, List.mem_cons]
      rintro c (hc | rfl | hc)
      · exact hfigure (hwhole c hc)
      · rfl
      · exact hfigure (hfraction c hc)
  next =>
    obtain ⟨exponent, hexponent, hresult⟩ := Option.bind_eq_some_iff.1 h
    clear h
    generalize s.dropWhile Char.isDigit = later at hsplit hexponent
    subst hsplit
    refine ⟨?_, whole, later, exponent, rfl, fun c hc => hfigure (hwhole c hc), hexponent⟩
    cases whole with
    | nil => simp at hresult
    | cons c whole => exact hdigits _ (hwhole c List.mem_cons_self)

end Decimal

namespace Token

theorem numeral?_natText (n : Nat) : numeral? (natText n) = Value.fit? n := by
  have hall : (natText n).all Char.isDigit = true :=
    List.all_eq_true.2 fun _ => isDigit_of_mem_natText
  rw [numeral?, if_pos hall, readDigits?_natText]
  rfl

/-- A literal has a value, unless it is a whole number that does not fit. -/
theorem isSome_numeral?_iff {s : Text} : (numeral? s).isSome = true ↔
    (Decimal.read? s).isSome = true ∧
      (s.all Char.isDigit = true → digitsValue s ≤ Value.largest) := by
  unfold numeral?
  split
  next hall =>
    by_cases hne : s = []
    · subst hne
      decide
    have hread := Decimal.isSome_read?_of_digits hne (List.all_eq_true.1 hall)
    have hsmallest : Value.smallest ≤ digitsValue s :=
      Int.le_trans (by decide) (Int.natCast_nonneg _)
    have hdigits : readDigits? s = some (digitsValue s) := by simp [readDigits?, hall, hne]
    rw [hdigits]
    simp [Value.fit?, hread, hall, hsmallest]
  next hall => simp [hall]

/-- A text with a value is digits and points, perhaps with an exponent behind them. -/
theorem exists_of_numeral? {s : Text} {value : Value} (h : numeral? s = some value) :
    startsNumber s = true ∧ ∃ mantissa exponent n, s = mantissa ++ exponent ∧
      (∀ c ∈ mantissa, (c.isDigit || c == '.') = true) ∧
      Decimal.readExponent? exponent = some n := by
  obtain ⟨hread, -⟩ := isSome_numeral?_iff.1 (by rw [h]; rfl)
  obtain ⟨d, hd⟩ := Option.isSome_iff_exists.1 hread
  exact Decimal.exists_of_read? hd

/-- Where a literal has a value the operands of a text end it where the scanner does. -/
theorem spanNumber_of_numeral? {s rest : Text} {value : Value} (h : numeral? s = some value)
    (hrest : rest.EndsNumber) :
    startsNumber (s ++ rest) = true ∧ spanNumber (s ++ rest) = (s, rest) := by
  obtain ⟨hstart, mantissa, exponent, n, rfl, hmantissa, hexponent⟩ := exists_of_numeral? h
  exact ⟨startsNumber_append hstart rest, spanNumber_of_readExponent? hmantissa hexponent hrest⟩

/-- A number goes on as long as its characters do and ends before the first other one. -/
theorem spanNumeral_eq_iff {last : Char} {figures s : Text} :
    spanNumeral last (figures ++ s) = (figures, s) ↔
      (last :: figures).IsChain (fun c d => continuesNumber c d = true) ∧
        ∀ d ∈ s.head?, continuesNumber ((last :: figures).getLast (by simp)) d = false := by
  induction figures generalizing last with
  | nil =>
      cases s with
      | nil => simp [spanNumeral]
      | cons d s =>
          rw [List.nil_append, spanNumeral]
          split
          next h => simp [h]
          next h => simp [h]
  | cons c figures ih =>
      rw [List.cons_append, spanNumeral, List.isChain_cons_cons, List.getLast_cons (by simp)]
      split
      next h =>
        rw [and_assoc, ← ih]
        simp [h, Prod.ext_iff]
      next h => simp [h]

end Token

end OdeModel
