import OdeModel.Proofs.Arithmetic.Phrase
import OdeModel.Proofs.Text.Runs
import Mathlib.Tactic.IntervalCases

/-!
# The tokens of a phrase

The text of a phrase is cut into the tokens of its parts, each at its place, when
all of its literals have a value; otherwise it cannot be cut at all.
-/

namespace OdeModel

/-- The operators, brackets and the comma, which no name or number goes on with. -/
def isSeparator (c : Char) : Bool :=
  c == '(' || c == ')' || c == ',' || c == '+' || c == '-' || c == '*' || c == '/' || c == '^'

namespace Text

/-- Nothing in the rest belongs to a name or number before it. -/
def Separated (rest : Text) : Prop := rest.head?.all isSeparator = true

theorem Separated.cons {c : Char} (h : isSeparator c = true) (rest : Text) :
    Separated (c :: rest) := h

theorem separated_nil : Separated [] := rfl

/-- No number goes on with the rest, one that ends in `e` apart. -/
def EndsNumber (rest : Text) : Prop :=
  ∀ c ∈ rest.head?, (c.isDigit || c == '.' || c == 'e' || c == 'E') = false

/-- No name goes on with the rest. -/
def EndsName (rest : Text) : Prop := ∀ c ∈ rest.head?, isNameChar c = false

end Text

theorem isSeparator_cases {c : Char} (h : isSeparator c = true) :
    c = '(' ∨ c = ')' ∨ c = ',' ∨ c = '+' ∨ c = '-' ∨ c = '*' ∨ c = '/' ∨ c = '^' := by
  simpa [isSeparator, or_assoc] using h

/-- A separator belongs to neither a number nor a name. -/
theorem not_mem_of_isSeparator {c : Char} (h : isSeparator c = true) :
    (c.isDigit || c == '.') = false ∧ isNameChar c = false := by
  rcases isSeparator_cases h with rfl | rfl | rfl | rfl | rfl | rfl | rfl | rfl <;> decide

theorem utf8Size_of_isSeparator {c : Char} (h : isSeparator c = true) : c.utf8Size = 1 := by
  rcases isSeparator_cases h with rfl | rfl | rfl | rfl | rfl | rfl | rfl | rfl <;> rfl

theorem Text.Separated.endsNumber {rest : Text} (h : Separated rest) : EndsNumber rest := by
  intro c hc
  rw [Separated, hc] at h
  have hc : isSeparator c = true := h
  rcases isSeparator_cases hc with rfl | rfl | rfl | rfl | rfl | rfl | rfl | rfl <;> rfl

theorem Text.Separated.endsName {rest : Text} (h : Separated rest) : EndsName rest := by
  intro c hc
  rw [Separated, hc] at h
  exact (not_mem_of_isSeparator h).2

theorem toNat_of_figure {c : Char} (h : (c.isDigit || c == '.') = true) :
    46 ≤ c.toNat ∧ c.toNat ≤ 57 := by
  rw [Bool.or_eq_true, beq_iff_eq] at h
  rcases h with h | rfl
  · simp only [Char.isDigit, Bool.and_eq_true, decide_eq_true_eq, UInt32.le_iff_toNat_le] at h
    have hlow : ('0'.val).toNat = 48 := rfl
    have hhigh : ('9'.val).toNat = 57 := rfl
    have hval : c.val.toNat = c.toNat := rfl
    omega
  · decide

theorem isBlank_of_figure {c : Char} (h : (c.isDigit || c == '.') = true) : isBlank c = false := by
  obtain ⟨hlow, hhigh⟩ := toNat_of_figure h
  simp only [isBlank, Bool.or_eq_false_iff, Bool.and_eq_false_iff, decide_eq_false_iff_not,
    beq_eq_false_iff_ne]
  omega

/-- First and last code point of every range of blanks behind the ASCII ones. -/
def blankRanges : List (Nat × Nat) :=
  [(0x85, 0x85), (0xA0, 0xA0), (0x1680, 0x1680), (0x2000, 0x200A), (0x2028, 0x2029),
    (0x202F, 0x202F), (0x205F, 0x205F), (0x3000, 0x3000)]

theorem isBlank_of_ranges {ranges : List (Nat × Nat)}
    (hapart : (ranges.all fun letters => blankRanges.all fun blanks =>
      Nat.blt blanks.2 letters.1 || Nat.blt letters.2 blanks.1) = true) {c : Char}
    (hlarge : ¬ c.toNat < 128)
    (h : (ranges.any fun (first, last) => first ≤ c.toNat && c.toNat ≤ last) = true) :
    isBlank c = false := by
  rw [Bool.eq_false_iff]
  intro hblank
  simp only [isBlank, Bool.or_eq_true, Bool.and_eq_true, decide_eq_true_eq, beq_iff_eq] at hblank
  obtain ⟨letters, hletters, hin⟩ := List.any_eq_true.1 h
  obtain ⟨blanks, hblanks, hlow, hhigh⟩ :
      ∃ blanks ∈ blankRanges, blanks.1 ≤ c.toNat ∧ c.toNat ≤ blanks.2 := by
    simp only [blankRanges, List.mem_cons, List.not_mem_nil, or_false, exists_eq_or_imp,
      exists_eq_left]
    omega
  have hout := List.all_eq_true.1 (List.all_eq_true.1 hapart letters hletters) blanks hblanks
  simp only [Bool.and_eq_true, decide_eq_true_eq, Bool.or_eq_true, Nat.blt_eq] at hin hout
  omega

theorem isBlank_of_ascii {c : Char} (hc : (c.isAlpha || c.isDigit) = true) :
    isBlank c = false := by
  have hval : c.val.toNat = c.toNat := rfl
  have hbounds : ('A'.val).toNat = 65 ∧ ('Z'.val).toNat = 90 ∧ ('a'.val).toNat = 97 ∧
      ('z'.val).toNat = 122 ∧ ('0'.val).toNat = 48 ∧ ('9'.val).toNat = 57 :=
    ⟨rfl, rfl, rfl, rfl, rfl, rfl⟩
  unfold Char.isAlpha Char.isUpper Char.isLower Char.isDigit at hc
  simp only [Bool.or_eq_true, Bool.and_eq_true, decide_eq_true_eq, UInt32.le_iff_toNat_le,
    ge_iff_le] at hc
  rw [Bool.eq_false_iff]
  intro hblank
  simp only [isBlank, Bool.or_eq_true, Bool.and_eq_true, decide_eq_true_eq, beq_iff_eq] at hblank
  omega

/-- No character of a name is a blank. -/
theorem isBlank_of_isNameChar {c : Char} (h : isNameChar c = true) : isBlank c = false := by
  simp only [isNameChar, isLetter, isNumeral, Bool.or_eq_true, beq_iff_eq] at h
  rcases h with (h | h) | rfl
  · split at h
    next => exact isBlank_of_ascii (by rw [h]; rfl)
    next hlarge => exact isBlank_of_ranges (by decide +kernel) hlarge h
  · split at h
    next => exact isBlank_of_ascii (by rw [h, Bool.or_true])
    next hlarge => exact isBlank_of_ranges (by decide +kernel) hlarge h
  · decide

theorem isBlank_of_isNameStart {c : Char} (h : isNameStart c = true) : isBlank c = false :=
  isBlank_of_isNameChar (Text.isNameChar_of_isNameStart h)

theorem not_figure_of_isNameStart {c : Char} (h : isNameStart c = true) :
    (c.isDigit || c == '.') = false := by
  rw [Bool.eq_false_iff]
  intro hfigure
  obtain ⟨hlow, hhigh⟩ := toNat_of_figure hfigure
  have hnone : ∀ n, 46 ≤ n → n ≤ 57 → isNameStart (Char.ofNat n) = false := by
    intro n hlow hhigh
    interval_cases n <;> decide
  have hfalse := hnone c.toNat hlow hhigh
  rw [Char.ofNat_toNat, h] at hfalse
  cases hfalse

namespace Token

theorem spanNumeral_figures {last : Char} (hlast : (last.isDigit || last == '.') = true)
    {figures : Text} (hfigures : ∀ c ∈ figures, (c.isDigit || c == '.') = true) {rest : Text}
    (hrest : rest.EndsNumber) : spanNumeral last (figures ++ rest) = (figures, rest) := by
  induction figures generalizing last with
  | nil =>
      cases rest with
      | nil => rfl
      | cons c rest =>
          have hexponent : last ≠ 'e' ∧ last ≠ 'E' := by
            constructor <;> rintro rfl <;> exact absurd hlast (by decide)
          have hstop : continuesNumber last c = false := by
            simp [continuesNumber, hrest c rfl, hexponent]
          simp [spanNumeral, hstop]
  | cons c figures ih =>
      obtain ⟨hc, hlater⟩ := List.forall_mem_cons.1 hfigures
      have hgo : continuesNumber last c = true := by
        unfold continuesNumber
        rw [hc]
        rfl
      rw [List.cons_append, spanNumeral, if_pos hgo, ih hc hlater]

variable (offset : Nat)

theorem scanFrom_nil : scanFrom offset [] = .ok [] := by rw [scanFrom.eq_def]

/-- What is read at a character that does not start two stars. -/
theorem scanFrom_cons {c : Char} {rest : Text}
    (hstars : ∀ later, c = '*' → rest = '*' :: later → False) :
    scanFrom offset (c :: rest) =
      if isBlank c then scanFrom (offset + c.utf8Size) rest
      else if c.isDigit || c == '.' then
        match numeral? (c :: (spanNumeral c rest).1) with
        | none => .error ⟨offset, .invalidNumber (c :: (spanNumeral c rest).1)⟩
        | some value => do
            return (offset, number value) ::
              (← scanFrom (offset + Text.width (c :: (spanNumeral c rest).1))
                (spanNumeral c rest).2)
      else if isNameStart c then do
        return (offset, name ((c :: rest).takeWhile isNameChar)) ::
          (← scanFrom (offset + Text.width ((c :: rest).takeWhile isNameChar))
            ((c :: rest).dropWhile isNameChar))
      else
        match single? c with
        | none => .error ⟨offset, .unexpectedCharacter c⟩
        | some token => do return (offset, token) :: (← scanFrom (offset + c.utf8Size) rest) := by
  rw [scanFrom.eq_def]
  split
  next h => cases h
  next later h =>
    cases h
    exact (hstars later rfl rfl).elim
  next h =>
    cases h
    rfl

theorem scanFrom_stars (rest : Text) :
    scanFrom offset ('*' :: '*' :: rest) =
      (scanFrom (offset + 2) rest).map ((offset, power) :: ·) := by
  rw [scanFrom.eq_def]
  rfl

theorem scanFrom_single {c : Char} {token : Token} (hsingle : single? c = some token)
    (hseparator : isSeparator c = true) {rest : Text} (hstar : c = '*' → rest.head? ≠ some '*') :
    scanFrom offset (c :: rest) = (scanFrom (offset + 1) rest).map ((offset, token) :: ·) := by
  have hwidth := utf8Size_of_isSeparator hseparator
  have hblank : isBlank c = false := by
    rcases isSeparator_cases hseparator with rfl | rfl | rfl | rfl | rfl | rfl | rfl | rfl <;>
      decide
  have hstart : isNameStart c = false := by
    rcases isSeparator_cases hseparator with rfl | rfl | rfl | rfl | rfl | rfl | rfl | rfl <;>
      decide
  have hstars : ∀ later, c = '*' → rest = '*' :: later → False := by
    rintro later rfl rfl
    exact hstar rfl rfl
  rw [scanFrom_cons _ hstars, if_neg (by simp [hblank]),
    if_neg (by simp [not_mem_of_isSeparator hseparator]), if_neg (by simp [hstart]), hsingle,
    hwidth]
  rfl

theorem scanFrom_numeral (numeral : Numeral) {rest : Text} (hrest : rest.EndsNumber) :
    scanFrom offset (numeral.text ++ rest) =
      match numeral? numeral.text with
      | none => .error ⟨offset, .invalidNumber numeral.text⟩
      | some value =>
          (scanFrom (offset + Text.width numeral.text) rest).map ((offset, number value) :: ·) := by
  obtain ⟨text, hne, hfigures⟩ := numeral
  obtain ⟨c, figures, rfl⟩ := List.exists_cons_of_ne_nil hne
  obtain ⟨hc, hlater⟩ := List.forall_mem_cons.1 hfigures
  have hspan := spanNumeral_figures hc hlater hrest
  dsimp only
  rw [List.cons_append]
  generalize hall : figures ++ rest = all at hspan ⊢
  have hstars : ∀ later, c = '*' → all = '*' :: later → False := by
    rintro later rfl -
    contradiction
  rw [scanFrom_cons _ hstars, if_neg (by simp [isBlank_of_figure hc]), if_pos (by simpa using hc),
    hspan]
  cases numeral? (c :: figures) <;> rfl

theorem scanFrom_word (word : Symbol) {rest : Text} (hrest : rest.EndsName) :
    scanFrom offset (word.text ++ rest) =
      (scanFrom (offset + Text.width word.text) rest).map ((offset, name word.text) :: ·) := by
  obtain ⟨text, hstart, hname⟩ := word
  cases text with
  | nil => contradiction
  | cons c letters =>
      have hc : isNameStart c = true := hstart
      obtain ⟨htake, hdrop⟩ := Text.takeWhile_dropWhile_append hname hrest
      dsimp only
      rw [List.cons_append] at htake hdrop ⊢
      generalize letters ++ rest = all at htake hdrop ⊢
      have hstars : ∀ later, c = '*' → all = '*' :: later → False := by
        rintro later rfl -
        contradiction
      rw [scanFrom_cons _ hstars, if_neg (by simp [isBlank_of_isNameStart hc]),
        if_neg (by simp [not_figure_of_isNameStart hc]), if_pos hc, htake, hdrop]
      rfl

/-- A text at a position is cut into the given tokens, whatever is put behind it with
a separator, if a condition holds; otherwise it cannot be cut. -/
def Scans (offset : Nat) (s : Text) (readable : Prop) (tokens : List (Nat × Token)) : Prop :=
  ∀ rest, Text.Separated rest →
    (readable → scanFrom offset (s ++ rest) =
      (scanFrom (offset + Text.width s) rest).map (tokens ++ ·)) ∧
    (¬ readable → ∃ error, scanFrom offset (s ++ rest) = .error error)

namespace Scans

variable {offset : Nat} {s t : Text} {readable readable' : Prop}
  {tokens tokens' : List (Nat × Token)}

theorem nil : Scans offset [] True [] := by
  intro rest _
  refine ⟨fun _ => ?_, fun h => absurd trivial h⟩
  rw [List.nil_append, Text.width_nil, Nat.add_zero]
  cases scanFrom offset rest <;> rfl

theorem append (hs : Scans offset s readable tokens)
    (ht : Scans (offset + Text.width s) t readable' tokens')
    (hseparated : ∀ rest, Text.Separated rest → Text.Separated (t ++ rest)) :
    Scans offset (s ++ t) (readable ∧ readable') (tokens ++ tokens') := by
  intro rest hrest
  obtain ⟨hgood, hbad⟩ := hs (t ++ rest) (hseparated rest hrest)
  obtain ⟨hgood', hbad'⟩ := ht rest hrest
  rw [List.append_assoc, Text.width_append, ← Nat.add_assoc]
  constructor
  · rintro ⟨hreadable, hreadable'⟩
    rw [hgood hreadable, hgood' hreadable']
    cases scanFrom (offset + Text.width s + Text.width t) rest with
    | error error => rfl
    | ok all => simp [Except.map]
  · intro hnot
    by_cases hreadable : readable
    · obtain ⟨error, herror⟩ := hbad' fun hreadable' => hnot ⟨hreadable, hreadable'⟩
      exact ⟨error, by rw [hgood hreadable, herror]; rfl⟩
    · exact hbad hreadable

theorem cons {c : Char} {token : Token} (hsingle : single? c = some token)
    (hseparator : isSeparator c = true)
    (hstar : c = '*' → ∀ rest, (t ++ rest).head? ≠ some '*')
    (ht : Scans (offset + 1) t readable tokens) :
    Scans offset (c :: t) readable ((offset, token) :: tokens) := by
  have hwidth := utf8Size_of_isSeparator hseparator
  intro rest hrest
  obtain ⟨hgood, hbad⟩ := ht rest hrest
  rw [List.cons_append, scanFrom_single offset hsingle hseparator fun hc => hstar hc rest,
    Text.width_cons, hwidth, ← Nat.add_assoc]
  constructor
  · intro hreadable
    rw [hgood hreadable]
    cases scanFrom (offset + 1 + Text.width t) rest <;> rfl
  · intro hnot
    obtain ⟨error, herror⟩ := hbad hnot
    exact ⟨error, by rw [herror]; rfl⟩

theorem stars (ht : Scans (offset + 2) t readable tokens) :
    Scans offset ('*' :: '*' :: t) readable ((offset, .power) :: tokens) := by
  intro rest hrest
  obtain ⟨hgood, hbad⟩ := ht rest hrest
  have hwidth : Text.width ('*' :: '*' :: t) = 2 + Text.width t := by
    rw [Text.width_cons, Text.width_cons, ← Nat.add_assoc]
    rfl
  rw [List.cons_append, List.cons_append, scanFrom_stars, hwidth, ← Nat.add_assoc]
  constructor
  · intro hreadable
    rw [hgood hreadable]
    cases scanFrom (offset + 2 + Text.width t) rest <;> rfl
  · intro hnot
    obtain ⟨error, herror⟩ := hbad hnot
    exact ⟨error, by rw [herror]; rfl⟩

theorem of_numeral (offset : Nat) (numeral : Numeral) :
    Scans offset numeral.text ((numeral? numeral.text).isSome = true)
      [(offset, .number ((numeral? numeral.text).getD (.whole 0)))] := by
  intro rest hrest
  rw [scanFrom_numeral offset numeral hrest.endsNumber]
  cases numeral? numeral.text <;> simp

theorem of_word (offset : Nat) (word : Symbol) :
    Scans offset word.text True [(offset, .name word.text)] :=
  fun _ hrest => ⟨fun _ => scanFrom_word offset word hrest.endsName, fun h => absurd trivial h⟩

theorem iff {readable' : Prop} (h : Scans offset s readable tokens)
    (hiff : readable ↔ readable') : Scans offset s readable' tokens := by
  rwa [propext hiff] at h

end Scans

end Token

namespace Phrase

/-- All literals in the phrase have a value. -/
def Readable : {level : Level} → Phrase level → Prop
  | _, literal numeral => (Token.numeral? numeral.text).isSome = true
  | _, name _ => True
  | _, group inner => inner.Readable
  | _, call _ arguments => arguments.Readable
  | _, base operand => operand.Readable
  | _, power _ left right => left.Readable ∧ right.Readable
  | _, unsigned operand => operand.Readable
  | _, sign _ operand => operand.Readable
  | _, factor signed => signed.Readable
  | _, times _ left right => left.Readable ∧ right.Readable
  | _, term product => product.Readable
  | _, plus _ left right => left.Readable ∧ right.Readable
  | _, last argument => argument.Readable
  | _, more argument later => argument.Readable ∧ later.Readable

/-- The tokens of a readable phrase that stands at a position. -/
def tokensAt : {level : Level} → Nat → Phrase level → List (Nat × Token)
  | _, offset, literal numeral =>
      [(offset, .number ((Token.numeral? numeral.text).getD (.whole 0)))]
  | _, offset, name word => [(offset, .name word.text)]
  | _, offset, group inner =>
      (offset, .openParen) :: inner.tokensAt (offset + 1) ++
        [(offset + 1 + Text.width inner.text, .closeParen)]
  | _, offset, call function arguments =>
      let start := offset + Text.width function.text
      (offset, .name function.text) :: (start, .openParen) :: arguments.tokensAt (start + 1) ++
        [(start + 1 + Text.width arguments.text, .closeParen)]
  | _, offset, base operand => operand.tokensAt offset
  | _, offset, power stars left right =>
      let middle := offset + Text.width left.text
      left.tokensAt offset ++ (middle, .power) ::
        right.tokensAt (middle + Text.width (powerSign stars))
  | _, offset, unsigned operand => operand.tokensAt offset
  | _, offset, sign minus operand =>
      (offset, .operator (termOperator minus)) :: operand.tokensAt (offset + 1)
  | _, offset, factor signed => signed.tokensAt offset
  | _, offset, times divide left right =>
      let middle := offset + Text.width left.text
      left.tokensAt offset ++ (middle, .operator (factorOperator divide)) ::
        right.tokensAt (middle + 1)
  | _, offset, term product => product.tokensAt offset
  | _, offset, plus minus left right =>
      let middle := offset + Text.width left.text
      left.tokensAt offset ++ (middle, .operator (termOperator minus)) ::
        right.tokensAt (middle + 1)
  | _, offset, last argument => argument.tokensAt offset
  | _, offset, more argument later =>
      let middle := offset + Text.width argument.text
      argument.tokensAt offset ++ (middle, .comma) :: later.tokensAt (middle + 1)

/-- The text of a phrase starts with a literal, a name, a parenthesis or a sign. -/
theorem exists_text_eq_cons {level : Level} (phrase : Phrase level) :
    ∃ c rest, phrase.text = c :: rest ∧ ((c.isDigit || c == '.') = true ∨
      isNameStart c = true ∨ c = '(' ∨ c = '+' ∨ c = '-') := by
  have hword : ∀ word : Symbol, ∃ c rest, word.text = c :: rest ∧ isNameStart c = true := by
    rintro ⟨text, hstart, hname⟩
    cases text with
    | nil => contradiction
    | cons c letters => exact ⟨c, letters, rfl, hstart⟩
  induction phrase with
  | literal numeral =>
      obtain ⟨c, figures, hcons⟩ := List.exists_cons_of_ne_nil numeral.ne_nil
      exact ⟨c, figures, hcons,
        Or.inl (numeral.figures c (by rw [hcons]; exact List.mem_cons_self))⟩
  | name word =>
      obtain ⟨c, letters, hcons, hc⟩ := hword word
      exact ⟨c, letters, hcons, Or.inr (Or.inl hc)⟩
  | group inner ih => exact ⟨'(', _, rfl, by simp⟩
  | call function arguments ih =>
      obtain ⟨c, letters, hcons, hc⟩ := hword function
      exact ⟨c, _, by rw [text, hcons]; rfl, Or.inr (Or.inl hc)⟩
  | base operand ih => exact ih
  | power stars left right ihl ihr =>
      obtain ⟨c, rest, hcons, hc⟩ := ihl
      exact ⟨c, _, by rw [text, hcons]; rfl, hc⟩
  | unsigned operand ih => exact ih
  | sign minus operand ih =>
      exact ⟨_, _, rfl, by cases minus <;> simp [termOperator, Operator.sign]⟩
  | factor signed ih => exact ih
  | times divide left right ihl ihr =>
      obtain ⟨c, rest, hcons, hc⟩ := ihl
      exact ⟨c, _, by rw [text, hcons]; rfl, hc⟩
  | term product ih => exact ih
  | plus minus left right ihl ihr =>
      obtain ⟨c, rest, hcons, hc⟩ := ihl
      exact ⟨c, _, by rw [text, hcons]; rfl, hc⟩
  | last argument ih => exact ih
  | more argument later iha ihl =>
      obtain ⟨c, rest, hcons, hc⟩ := iha
      exact ⟨c, _, by rw [text, hcons]; rfl, hc⟩

theorem head?_text_ne_star {level : Level} (phrase : Phrase level) (rest : Text) :
    (phrase.text ++ rest).head? ≠ some '*' := by
  obtain ⟨c, later, hcons, hc⟩ := phrase.exists_text_eq_cons
  rw [hcons]
  rintro ⟨⟩
  revert hc
  decide

/-- A readable phrase is cut into its tokens; one that is not readable cannot be
cut. -/
theorem scans_text {level : Level} (phrase : Phrase level) (offset : Nat) :
    Token.Scans offset phrase.text phrase.Readable (phrase.tokensAt offset) := by
  have hclose : ∀ offset, Token.Scans offset [')'] True [(offset, .closeParen)] := fun offset =>
    Token.Scans.nil.cons rfl rfl fun h => absurd h (by decide)
  have hterm : ∀ minus, Token.single? (termOperator minus).sign =
      some (.operator (termOperator minus)) ∧ isSeparator (termOperator minus).sign = true := by
    rintro (_ | _) <;> exact ⟨rfl, rfl⟩
  have hfactor : ∀ divide, Token.single? (factorOperator divide).sign =
      some (.operator (factorOperator divide)) ∧
        isSeparator (factorOperator divide).sign = true := by
    rintro (_ | _) <;> exact ⟨rfl, rfl⟩
  induction phrase generalizing offset with
  | literal numeral => exact Token.Scans.of_numeral offset numeral
  | name word => exact Token.Scans.of_word offset word
  | group inner ih =>
      have hinner := (ih (offset + 1)).append (hclose _) fun rest _ => Text.Separated.cons rfl _
      exact (hinner.cons rfl rfl fun h => absurd h (by decide)).iff (iff_of_eq (and_true _))
  | call function arguments ih =>
      have hinner := (ih (offset + Text.width function.text + 1)).append (hclose _)
        fun rest _ => Text.Separated.cons rfl _
      have hopen := hinner.cons (c := '(') rfl rfl fun h => absurd h (by decide)
      have hcall := (Token.Scans.of_word offset function).append hopen
        fun rest _ => Text.Separated.cons rfl _
      rw [text, List.append_assoc]
      exact hcall.iff (by rw [true_and, and_true, Readable])
  | base operand ih => exact ih offset
  | power stars left right ihl ihr =>
      rw [text, List.append_assoc]
      cases stars with
      | true =>
          exact (ihl offset).append (ihr (offset + Text.width left.text + 2)).stars
            fun rest _ => Text.Separated.cons rfl _
      | false =>
          have hright := (ihr (offset + Text.width left.text + 1)).cons (c := '^') rfl rfl
            fun h => absurd h (by decide)
          exact (ihl offset).append hright fun rest _ => Text.Separated.cons rfl _
  | unsigned operand ih => exact ih offset
  | sign minus operand ih =>
      exact (ih (offset + 1)).cons (hterm minus).1 (hterm minus).2
        fun h => absurd h (by cases minus <;> decide)
  | factor signed ih => exact ih offset
  | times divide left right ihl ihr =>
      have hright := (ihr (offset + Text.width left.text + 1)).cons (hfactor divide).1
        (hfactor divide).2 fun _ => right.head?_text_ne_star
      exact (ihl offset).append hright fun rest _ => Text.Separated.cons (hfactor divide).2 _
  | term product ih => exact ih offset
  | plus minus left right ihl ihr =>
      have hright := (ihr (offset + Text.width left.text + 1)).cons (hterm minus).1
        (hterm minus).2 fun _ => right.head?_text_ne_star
      exact (ihl offset).append hright fun rest _ => Text.Separated.cons (hterm minus).2 _
  | last argument ih => exact ih offset
  | more argument later iha ihl =>
      have hlater := (ihl (offset + Text.width argument.text + 1)).cons (c := ',') rfl rfl
        fun _ => later.head?_text_ne_star
      exact (iha offset).append hlater fun rest _ => Text.Separated.cons rfl _

end Phrase

end OdeModel
