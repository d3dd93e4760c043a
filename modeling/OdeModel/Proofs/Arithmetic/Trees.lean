import OdeModel.Proofs.Arithmetic.Numerals
import OdeModel.Proofs.Arithmetic.Spelling

/-!
# Expression trees in text

A tree of numbers, names, signs, operators and calls is written with parentheses only where
the place of a part takes nothing that binds as loosely. The text has the value of the tree.
-/

namespace OdeModel

/-- The digits of a whole number of 64 bits. -/
structure Digits where
  /-- The digits. -/
  text : Text
  ne_nil : text ≠ []
  isDigit : ∀ c ∈ text, c.isDigit = true
  fits : digitsValue text ≤ Value.largest

namespace Digits

/-- The digits as a literal. -/
def numeral (digits : Digits) : Numeral where
  text := digits.text
  ne_nil := digits.ne_nil
  figures := fun c hc => by rw [digits.isDigit c hc, Bool.true_or]

/-- The number that the digits stand for. -/
def value (digits : Digits) : Value := .whole (digitsValue digits.text)

theorem numeral?_text (digits : Digits) : Token.numeral? digits.text = some digits.value := by
  have hall : digits.text.all Char.isDigit = true := List.all_eq_true.2 digits.isDigit
  have hread : readDigits? digits.text = some (digitsValue digits.text) := by
    simp [readDigits?, hall, digits.ne_nil]
  have hsmallest : Value.smallest ≤ digitsValue digits.text :=
    (by decide : Value.smallest ≤ 0).trans (Int.natCast_nonneg _)
  simp [Token.numeral?, hall, hread, Value.fit?, hsmallest, digits.fits, value]

/-- The digits of a number. -/
def ofNat (n : Nat) (h : n ≤ Value.largest) : Digits where
  text := natText n
  ne_nil := natText_ne_nil n
  isDigit := fun _ => isDigit_of_mem_natText
  fits := by rwa [digitsValue_natText]

end Digits

namespace Level

/-- How tightly a phrase of the level holds together. -/
def rank : Level → Nat
  | arguments => 0
  | sum => 1
  | product => 2
  | signed => 3
  | power => 4
  | operand => 5

end Level

/-- An expression, or the arguments of a call. -/
inductive Tree : Level → Type
  /-- A whole number. -/
  | number (digits : Digits) : Tree .sum
  /-- A name. -/
  | name (word : Symbol) : Tree .sum
  /-- Something with a minus or a plus before it. -/
  | sign (minus : Bool) (operand : Tree .sum) : Tree .sum
  /-- A difference or a sum. -/
  | plus (minus : Bool) (left right : Tree .sum) : Tree .sum
  /-- A quotient or a product. -/
  | times (divide : Bool) (left right : Tree .sum) : Tree .sum
  /-- A power, with `**` or with `^`. -/
  | power (stars : Bool) (base exponent : Tree .sum) : Tree .sum
  /-- A call of a function. -/
  | call (function : Symbol) (arguments : Tree .arguments) : Tree .sum
  /-- The last argument of a call. -/
  | last (argument : Tree .sum) : Tree .arguments
  /-- An argument with others behind it. -/
  | more (argument : Tree .sum) (later : Tree .arguments) : Tree .arguments

namespace Tree

open Phrase (termOperator factorOperator builtin)

/-- The value of a tree, from the values of its parts. -/
def value (names : Text → Option Value) : {level : Level} → Tree level → level.Result
  | _, number digits => some digits.value
  | _, name word => names word.text
  | _, sign minus operand => do
      let a ← operand.value names
      return if minus then a.neg else a
  | _, plus minus left right => do
      let a ← left.value names
      let b ← right.value names
      return (termOperator minus).apply a b
  | _, times divide left right => do
      let a ← left.value names
      let b ← right.value names
      return (factorOperator divide).apply a b
  | _, power _ base exponent => do
      let a ← base.value names
      let b ← exponent.value names
      return a.power b
  | _, call function arguments => builtin function.text (arguments.value names)
  | _, last argument => [argument.value names]
  | _, more argument later => argument.value names :: later.value names

/-- The names in a tree that are not called. -/
def freeNames : {level : Level} → Tree level → List Text
  | _, number _ => []
  | _, name word => [word.text]
  | _, sign _ operand => operand.freeNames
  | _, plus _ left right => left.freeNames ++ right.freeNames
  | _, times _ left right => left.freeNames ++ right.freeNames
  | _, power _ base exponent => base.freeNames ++ exponent.freeNames
  | _, call _ arguments => arguments.freeNames
  | _, last argument => argument.freeNames
  | _, more argument later => argument.freeNames ++ later.freeNames

/-- The calls in a tree, each with its function and its arguments. -/
def calls : {level : Level} → Tree level → List (Symbol × Tree .arguments)
  | _, number _ => []
  | _, name _ => []
  | _, sign _ operand => operand.calls
  | _, plus _ left right => left.calls ++ right.calls
  | _, times _ left right => left.calls ++ right.calls
  | _, power _ base exponent => base.calls ++ exponent.calls
  | _, call function arguments => (function, arguments) :: arguments.calls
  | _, last argument => argument.calls
  | _, more argument later => argument.calls ++ later.calls

/-- Words in parentheses, if these are needed. -/
def enclosedIf (needed : Bool) (lexemes : List Lexeme) : List Lexeme :=
  if needed then .openParen :: (lexemes ++ [.closeParen]) else lexemes

/-- The words of a tree in a place that takes phrases of some level and of the tighter ones:
in parentheses if the tree holds together less tightly than that. -/
def lexemes : {level : Level} → (place : Level) → Tree level → List Lexeme
  | _, _, number digits => [.literal digits.numeral]
  | _, _, name word => [.word word]
  | _, place, sign minus operand =>
      enclosedIf (Level.signed.rank < place.rank)
        (.operator (termOperator minus) :: operand.lexemes .signed)
  | _, place, plus minus left right =>
      enclosedIf (Level.sum.rank < place.rank)
        (left.lexemes .sum ++ .operator (termOperator minus) :: right.lexemes .product)
  | _, place, times divide left right =>
      enclosedIf (Level.product.rank < place.rank)
        (left.lexemes .product ++ .operator (factorOperator divide) :: right.lexemes .signed)
  | _, place, power stars base exponent =>
      enclosedIf (Level.power.rank < place.rank)
        (base.lexemes .operand ++ .power stars :: exponent.lexemes .signed)
  | _, _, call function arguments =>
      .word function :: .openParen :: (arguments.lexemes .arguments ++ [.closeParen])
  | _, _, last argument => argument.lexemes .sum
  | _, _, more argument later => argument.lexemes .sum ++ .comma :: later.lexemes .arguments

variable (names : Text → Option Value)

/-! ### Trees as phrases -/

/-- In every place where an expression may stand, the words are those of a phrase that has
the value. -/
structure Fills (names : Text → Option Value) (lexemes : Level → List Lexeme)
    (value : Option Value) : Prop where
  sum : ∃ phrase : Phrase .sum, phrase.lexemes = lexemes .sum ∧
    phrase.value names builtin = value
  product : ∃ phrase : Phrase .product, phrase.lexemes = lexemes .product ∧
    phrase.value names builtin = value
  signed : ∃ phrase : Phrase .signed, phrase.lexemes = lexemes .signed ∧
    phrase.value names builtin = value
  operand : ∃ phrase : Phrase .operand, phrase.lexemes = lexemes .operand ∧
    phrase.value names builtin = value

namespace Fills

theorem of_operand (phrase : Phrase .operand) :
    Fills names (fun _ => phrase.lexemes) (phrase.value names builtin) where
  sum := ⟨.term (.factor (.unsigned (.base phrase))), rfl, rfl⟩
  product := ⟨.factor (.unsigned (.base phrase)), rfl, rfl⟩
  signed := ⟨.unsigned (.base phrase), rfl, rfl⟩
  operand := ⟨phrase, rfl, rfl⟩

theorem of_power (phrase : Phrase .power) :
    Fills names (fun place => enclosedIf (Level.power.rank < place.rank) phrase.lexemes)
      (phrase.value names builtin) where
  sum := ⟨.term (.factor (.unsigned phrase)), rfl, rfl⟩
  product := ⟨.factor (.unsigned phrase), rfl, rfl⟩
  signed := ⟨.unsigned phrase, rfl, rfl⟩
  operand := ⟨.group (.term (.factor (.unsigned phrase))), rfl, rfl⟩

theorem of_signed (phrase : Phrase .signed) :
    Fills names (fun place => enclosedIf (Level.signed.rank < place.rank) phrase.lexemes)
      (phrase.value names builtin) where
  sum := ⟨.term (.factor phrase), rfl, rfl⟩
  product := ⟨.factor phrase, rfl, rfl⟩
  signed := ⟨phrase, rfl, rfl⟩
  operand := ⟨.group (.term (.factor phrase)), rfl, rfl⟩

theorem of_product (phrase : Phrase .product) :
    Fills names (fun place => enclosedIf (Level.product.rank < place.rank) phrase.lexemes)
      (phrase.value names builtin) where
  sum := ⟨.term phrase, rfl, rfl⟩
  product := ⟨phrase, rfl, rfl⟩
  signed := ⟨.unsigned (.base (.group (.term phrase))), rfl, rfl⟩
  operand := ⟨.group (.term phrase), rfl, rfl⟩

theorem of_sum (phrase : Phrase .sum) :
    Fills names (fun place => enclosedIf (Level.sum.rank < place.rank) phrase.lexemes)
      (phrase.value names builtin) where
  sum := ⟨phrase, rfl, rfl⟩
  product := ⟨.factor (.unsigned (.base (.group phrase))), rfl, rfl⟩
  signed := ⟨.unsigned (.base (.group phrase)), rfl, rfl⟩
  operand := ⟨.group phrase, rfl, rfl⟩

end Fills

/-- The words are those of a phrase with the value, or of one with the values. -/
def IsPhrase (names : Text → Option Value) :
    {level : Level} → (Level → List Lexeme) → level.Result → Prop
  | .arguments, lexemes, values => ∃ phrase : Phrase .arguments,
      phrase.lexemes = lexemes .arguments ∧ phrase.value names builtin = values
  | .sum, lexemes, value | .product, lexemes, value | .signed, lexemes, value
  | .power, lexemes, value | .operand, lexemes, value => Fills names lexemes value

/-- A tree is written as a phrase with the value of the tree. -/
theorem isPhrase_lexemes {level : Level} (tree : Tree level) :
    IsPhrase names (fun place => tree.lexemes place) (tree.value names) := by
  induction tree with
  | number digits =>
      have h := Fills.of_operand names (.literal digits.numeral)
      have hvalue : Phrase.value names builtin (.literal digits.numeral) = some digits.value :=
        digits.numeral?_text
      rw [hvalue] at h
      exact h
  | name word => exact Fills.of_operand names (.name word)
  | sign minus operand ih =>
      obtain ⟨phrase, hlexemes, hvalue⟩ := Fills.signed ih
      have h := Fills.of_signed names (.sign minus phrase)
      simp only [Phrase.lexemes, Phrase.value, hlexemes, hvalue] at h
      exact h
  | plus minus left right ihl ihr =>
      obtain ⟨left', hleft, hleftValue⟩ := Fills.sum ihl
      obtain ⟨right', hright, hrightValue⟩ := Fills.product ihr
      have h := Fills.of_sum names (.plus minus left' right')
      simp only [Phrase.lexemes, Phrase.value, hleft, hleftValue, hright, hrightValue] at h
      exact h
  | times divide left right ihl ihr =>
      obtain ⟨left', hleft, hleftValue⟩ := Fills.product ihl
      obtain ⟨right', hright, hrightValue⟩ := Fills.signed ihr
      have h := Fills.of_product names (.times divide left' right')
      simp only [Phrase.lexemes, Phrase.value, hleft, hleftValue, hright, hrightValue] at h
      exact h
  | power stars base exponent ihl ihr =>
      obtain ⟨left', hleft, hleftValue⟩ := Fills.operand ihl
      obtain ⟨right', hright, hrightValue⟩ := Fills.signed ihr
      have h := Fills.of_power names (.power stars left' right')
      simp only [Phrase.lexemes, Phrase.value, hleft, hleftValue, hright, hrightValue] at h
      exact h
  | call function arguments ih =>
      obtain ⟨phrase, hlexemes, hvalues⟩ := ih
      have h := Fills.of_operand names (.call function phrase)
      simp only [Phrase.lexemes, Phrase.value, hlexemes, hvalues] at h
      exact h
  | last argument ih =>
      obtain ⟨phrase, hlexemes, hvalue⟩ := Fills.sum ih
      exact ⟨.last phrase, hlexemes, congrArg (fun value => [value]) hvalue⟩
  | more argument later iha ihl =>
      obtain ⟨first, hfirst, hfirstValue⟩ := Fills.sum iha
      obtain ⟨others, hothers, hothersValues⟩ := ihl
      refine ⟨.more first others, ?_, ?_⟩
      · simp only [Phrase.lexemes, lexemes, hfirst, hothers]
      · simp only [Phrase.value, value, hfirstValue, hothersValues]

/-! ### Calls without a result -/

variable {names}

/-- The tree calls a function that has no result on the arguments, which all have values. -/
def CallsInVain (names : Text → Option Value) {level : Level} (tree : Tree level) : Prop :=
  ∃ call ∈ tree.calls, ∃ values, (call.2.value names).mapM id = some values ∧
    Value.call? call.1.text values = none

theorem callsInVain_append {level level' level'' : Level} {tree : Tree level}
    {left : Tree level'} {right : Tree level''} (h : tree.calls = left.calls ++ right.calls) :
    tree.CallsInVain names ↔ left.CallsInVain names ∨ right.CallsInVain names := by
  simp only [CallsInVain, h, List.mem_append, or_and_right, exists_or]

/-- A tree whose names have values has none itself exactly if a call in it has no result. -/
theorem fails_value_iff {level : Level} (tree : Tree level)
    (hnames : ∀ name ∈ tree.freeNames, (names name).isSome = true) :
    Phrase.Fails (tree.value names) ↔ tree.CallsInVain names := by
  have hpair : ∀ {α β γ : Type} (a : Option α) (b : Option β) (f : α → β → γ),
      (do let x ← a; let y ← b; return f x y) = none ↔ a = none ∨ b = none := by
    intro α β γ a b f
    cases a <;> cases b <;> simp
  -- the parts of a tree have the names of the tree
  have hparts : ∀ {level level' level'' : Level} {tree : Tree level} {left : Tree level'}
      {right : Tree level''}, tree.freeNames = left.freeNames ++ right.freeNames →
      (∀ name ∈ tree.freeNames, (names name).isSome = true) →
      (∀ name ∈ left.freeNames, (names name).isSome = true) ∧
        ∀ name ∈ right.freeNames, (names name).isSome = true := by
    intro _ _ _ tree left right h hnames
    rwa [h, List.forall_mem_append] at hnames
  induction tree with
  | number digits => simp [Phrase.Fails, value, CallsInVain, calls]
  | name word =>
      obtain ⟨value, hvalue⟩ := Option.isSome_iff_exists.1 (hnames word.text List.mem_cons_self)
      simp [Phrase.Fails, Tree.value, hvalue, CallsInVain, calls]
  | sign minus operand ih =>
      refine Iff.trans ?_ (ih hnames)
      simp only [Phrase.Fails, value]
      cases operand.value names <;> simp
  | plus minus left right ihl ihr =>
      obtain ⟨hleft, hright⟩ := hparts rfl hnames
      rw [callsInVain_append rfl]
      exact (hpair _ _ _).trans (or_congr (ihl hleft) (ihr hright))
  | times divide left right ihl ihr =>
      obtain ⟨hleft, hright⟩ := hparts rfl hnames
      rw [callsInVain_append rfl]
      exact (hpair _ _ _).trans (or_congr (ihl hleft) (ihr hright))
  | power stars base exponent ihl ihr =>
      obtain ⟨hbase, hexponent⟩ := hparts rfl hnames
      rw [callsInVain_append rfl]
      exact (hpair _ _ _).trans (or_congr (ihl hbase) (ihr hexponent))
  | call function arguments ih =>
      have hcall : (Tree.call function arguments).CallsInVain names ↔
          (∃ values, (arguments.value names).mapM id = some values ∧
            Value.call? function.text values = none) ∨ arguments.CallsInVain names := by
        simp only [CallsInVain, calls, List.mem_cons, or_and_right, exists_or, exists_eq_left]
      refine Iff.trans ?_ (hcall.trans (or_congr_right (ih hnames).symm)).symm
      simp only [Phrase.Fails, value, builtin]
      cases (arguments.value names).mapM id <;> simp
  | last argument ih =>
      refine Iff.trans ?_ (ih hnames)
      simp only [Phrase.Fails, value, List.mapM_cons, List.mapM_nil]
      cases argument.value names <;> simp
  | more argument later iha ihl =>
      obtain ⟨hargument, hlater⟩ := hparts rfl hnames
      rw [callsInVain_append rfl]
      refine Iff.trans ?_ (or_congr (iha hargument) (ihl hlater))
      simp only [Phrase.Fails, value, List.mapM_cons]
      exact hpair _ _ _

/-- A tree is evaluated from the bottom up, however it is spelled, and there is an error
exactly if a call in it has no result. -/
theorem evalText_lexemes (env : Environment) (tree : Tree .sum)
    (hnames : ∀ name ∈ tree.freeNames, (∃ value, env name = some value) ∨ name = "pi".toList)
    {s : Text} (hs : Spells (tree.lexemes .sum) s) :
    (evalText env s).toOption = tree.value env.valueOf? ∧
      ((∃ error, evalText env s = .error error) ↔
        ∃ call ∈ tree.calls, ∃ values,
          (call.2.value env.valueOf?).mapM id = some values ∧
            Value.call? call.1.text values = none) := by
  obtain ⟨phrase, hlexemes, hvalue⟩ := Fills.sum (tree.isPhrase_lexemes env.valueOf?)
  have heval : (evalText env s).toOption = tree.value env.valueOf? := by
    rw [phrase.evalText_spelled env (by rwa [hlexemes]), hvalue]
  refine ⟨heval, ?_⟩
  have hknown : ∀ name ∈ tree.freeNames, (env.valueOf? name).isSome = true := by
    intro name hname
    unfold Environment.valueOf?
    rcases hnames name hname with ⟨value, hvalue⟩ | rfl
    · rw [hvalue]
      rfl
    · cases env "pi".toList <;> rfl
  refine Iff.trans ?_ (tree.fails_value_iff hknown)
  rw [Phrase.Fails, ← heval]
  cases evalText env s <;> simp [Except.toOption]

/-- A product of a negated power and of a call, whose second argument is a difference with
another one behind the minus. -/
def nested : Tree .sum :=
  have x := name (.ofText ['x'] (by decide))
  have number (n : Nat) (h : n ≤ Value.largest) := number (.ofNat n h)
  .times false (.sign true (.power false (number 2 (by decide)) (.sign true x)))
    (.call (.ofText "max".toList (by decide)) (.more (number 1 (by decide))
      (.last (.plus true (.name (.ofText "pi".toList (by decide)))
        (.plus true (number 3 (by decide)) x)))))

theorem evalText_lexemes_nested :
    (∀ name ∈ nested.freeNames,
      (∃ value, Environment.empty.set ['x'] (.whole 5) name = some value) ∨ name = "pi".toList) ∧
    Spells (nested.lexemes .sum) "-2 ^ -x* max( 1,pi - (3-x))".toList ∧
    (evalText (Environment.empty.set ['x'] (.whole 5)) "-2 ^ -x* max( 1,pi - (3-x))".toList).toOption
      = nested.value (Environment.empty.set ['x'] (.whole 5)).valueOf? ∧
    ((∃ error, evalText (Environment.empty.set ['x'] (.whole 5))
        "-2 ^ -x* max( 1,pi - (3-x))".toList = .error error) ↔
      ∃ call ∈ nested.calls, ∃ values,
        (call.2.value (Environment.empty.set ['x'] (.whole 5)).valueOf?).mapM id = some values ∧
          Value.call? call.1.text values = none) := by
  have hnames : ∀ name ∈ nested.freeNames,
      (∃ value, Environment.empty.set ['x'] (.whole 5) name = some value) ∨
        name = "pi".toList := by
    intro name hname
    have hcases : name = ['x'] ∨ name = "pi".toList ∨ name = ['x'] := by
      simpa [nested, freeNames, Symbol.ofText] using hname
    rcases hcases with rfl | rfl | rfl
    · exact .inl ⟨_, rfl⟩
    · exact .inr rfl
    · exact .inl ⟨_, rfl⟩
  have hspells : Spells (nested.lexemes .sum) "-2 ^ -x* max( 1,pi - (3-x))".toList :=
    .word _ (.word _ (.blank rfl (.word _ (.blank rfl (.word _ (.word _ (.word _ (.blank rfl
      (.word _ (.word _ (.blank rfl (.word _ (.word _ (.word _ (.blank rfl (.word _ (.blank rfl
        (.word _ (.word _ (.word _ (.word _ (.word _ (.word _ .nil)))))))))))))))))))))))
  exact ⟨hnames, hspells, evalText_lexemes _ nested hnames hspells⟩

end Tree

end OdeModel
