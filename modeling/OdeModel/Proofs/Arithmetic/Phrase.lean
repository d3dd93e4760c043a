import OdeModel.Arithmetic.Reader
import OdeModel.Inlining.Atomic

/-!
# Arithmetic expressions

The expressions that have a value, as phrases of the grammar: sums of products of
signed powers of operands. A phrase has a text and a value, and other phrases can be
put into the places of its names.
-/

namespace OdeModel

/-- A number literal without exponent: digits and points. -/
structure Numeral where
  /-- The literal. -/
  text : Text
  ne_nil : text ≠ []
  figures : ∀ c ∈ text, (c.isDigit || c == '.') = true

/-- A name as it stands in an expression. -/
structure Symbol where
  /-- The name. -/
  text : Text
  start : text.head?.any isNameStart = true
  isNameText : ∀ c ∈ text, isNameChar c = true

/-- The name that is written as the given text. -/
def Symbol.ofText (text : Text)
    (h : (text.head?.any isNameStart && text.all isNameChar) = true) : Symbol where
  text := text
  start := (Bool.and_eq_true_iff.1 h).1
  isNameText := List.all_eq_true.1 (Bool.and_eq_true_iff.1 h).2

/-- What a phrase can be a part of. -/
inductive Level where
  | arguments
  | sum
  | product
  | signed
  | power
  | operand
  deriving Repr, DecidableEq

/-- What a phrase stands for: the arguments of a call for several values. -/
@[reducible] def Level.Meaning (α : Type) : Level → Type
  | arguments => List α
  | sum | product | signed | power | operand => α

/-- The value of a phrase, if it has one: each argument of a call has its own. -/
@[reducible] def Level.Result : Level → Type
  | arguments => List (Option Value)
  | sum | product | signed | power | operand => Option Value

/-- A piece of an arithmetic expression. -/
inductive Phrase : Level → Type
  /-- A number. -/
  | literal (numeral : Numeral) : Phrase .operand
  /-- A name. -/
  | name (word : Symbol) : Phrase .operand
  /-- An expression in parentheses. -/
  | group (inner : Phrase .sum) : Phrase .operand
  /-- A call of a function. -/
  | call (function : Symbol) (arguments : Phrase .arguments) : Phrase .operand
  /-- An operand by itself. -/
  | base (operand : Phrase .operand) : Phrase .power
  /-- A power, with `**` or with `^`. -/
  | power (stars : Bool) (base : Phrase .operand) (exponent : Phrase .signed) : Phrase .power
  /-- A power by itself. -/
  | unsigned (power : Phrase .power) : Phrase .signed
  /-- Something with a minus or a plus before it. -/
  | sign (minus : Bool) (operand : Phrase .signed) : Phrase .signed
  /-- A first factor. -/
  | factor (signed : Phrase .signed) : Phrase .product
  /-- A quotient or a product. -/
  | times (divide : Bool) (left : Phrase .product) (right : Phrase .signed) : Phrase .product
  /-- A first term. -/
  | term (product : Phrase .product) : Phrase .sum
  /-- A difference or a sum. -/
  | plus (minus : Bool) (left : Phrase .sum) (right : Phrase .product) : Phrase .sum
  /-- The last argument of a call. -/
  | last (argument : Phrase .sum) : Phrase .arguments
  /-- An argument with others behind it. -/
  | more (argument : Phrase .sum) (later : Phrase .arguments) : Phrase .arguments

namespace Phrase

/-- The operator of a sum or difference. -/
def termOperator (minus : Bool) : Operator := if minus then .sub else .add

/-- The operator of a product or quotient. -/
def factorOperator (divide : Bool) : Operator := if divide then .div else .mul

/-- How the operator of a power is written. -/
def powerSign (stars : Bool) : Text := if stars then ['*', '*'] else ['^']

/-- The phrase as it is written. -/
def text : {level : Level} → Phrase level → Text
  | _, literal numeral => numeral.text
  | _, name word => word.text
  | _, group inner => '(' :: inner.text ++ [')']
  | _, call function arguments => function.text ++ '(' :: arguments.text ++ [')']
  | _, base operand => operand.text
  | _, power stars left right => left.text ++ powerSign stars ++ right.text
  | _, unsigned operand => operand.text
  | _, sign minus operand => (termOperator minus).sign :: operand.text
  | _, factor signed => signed.text
  | _, times divide left right => left.text ++ (factorOperator divide).sign :: right.text
  | _, term product => product.text
  | _, plus minus left right => left.text ++ (termOperator minus).sign :: right.text
  | _, last argument => argument.text
  | _, more argument later => argument.text ++ ',' :: later.text

/-- The value of a call of a built-in function, all of whose arguments need one. -/
def builtin (function : Text) (arguments : List (Option Value)) : Option Value := do
  Value.call? function (← arguments.mapM id)

/-- The value of a phrase when names and functions have the given ones. -/
def value (names : Text → Option Value) (functions : Text → List (Option Value) → Option Value) :
    {level : Level} → Phrase level → level.Result
  | _, literal numeral => Token.numeral? numeral.text
  | _, name word => names word.text
  | _, group inner => inner.value names functions
  | _, call function arguments => functions function.text (arguments.value names functions)
  | _, base operand => operand.value names functions
  | _, power _ left right => do
      let a ← left.value names functions
      let b ← right.value names functions
      return a.power b
  | _, unsigned operand => operand.value names functions
  | _, sign minus operand => do
      let a ← operand.value names functions
      return if minus then a.neg else a
  | _, factor signed => signed.value names functions
  | _, times divide left right => do
      let a ← left.value names functions
      let b ← right.value names functions
      return (factorOperator divide).apply a b
  | _, term product => product.value names functions
  | _, plus minus left right => do
      let a ← left.value names functions
      let b ← right.value names functions
      return (termOperator minus).apply a b
  | _, last argument => [argument.value names functions]
  | _, more argument later => argument.value names functions :: later.value names functions

/-- The names that a phrase reads. -/
def freeNames : {level : Level} → Phrase level → List Text
  | _, literal _ => []
  | _, name word => [word.text]
  | _, group inner => inner.freeNames
  | _, call _ arguments => arguments.freeNames
  | _, base operand => operand.freeNames
  | _, power _ left right => left.freeNames ++ right.freeNames
  | _, unsigned operand => operand.freeNames
  | _, sign _ operand => operand.freeNames
  | _, factor signed => signed.freeNames
  | _, times _ left right => left.freeNames ++ right.freeNames
  | _, term product => product.freeNames
  | _, plus _ left right => left.freeNames ++ right.freeNames
  | _, last argument => argument.freeNames
  | _, more argument later => argument.freeNames ++ later.freeNames

/-- The functions that a phrase calls. -/
def callees : {level : Level} → Phrase level → List Text
  | _, literal _ => []
  | _, name _ => []
  | _, group inner => inner.callees
  | _, call function arguments => function.text :: arguments.callees
  | _, base operand => operand.callees
  | _, power _ left right => left.callees ++ right.callees
  | _, unsigned operand => operand.callees
  | _, sign _ operand => operand.callees
  | _, factor signed => signed.callees
  | _, times _ left right => left.callees ++ right.callees
  | _, term product => product.callees
  | _, plus _ left right => left.callees ++ right.callees
  | _, last argument => argument.callees
  | _, more argument later => argument.callees ++ later.callees

/-- The single operand that the phrase is, if it is one. -/
def operand? : {level : Level} → Phrase level → Option (Phrase .operand)
  | _, literal numeral => some (literal numeral)
  | _, name word => some (name word)
  | _, group inner => some (group inner)
  | _, call function arguments => some (call function arguments)
  | _, base operand => operand.operand?
  | _, unsigned operand => operand.operand?
  | _, factor signed => signed.operand?
  | _, term product => product.operand?
  | _, _ => none

/-- The expression as an operand of another one: in parentheses, unless its text is
seen to be a single operand. -/
def asOperand (phrase : Phrase .sum) : Phrase .operand :=
  if Text.isAtomic phrase.text then phrase.operand?.getD (group phrase) else group phrase

/-- The phrase with expressions in the places of some names. -/
def subst (standIn : Text → Option (Phrase .sum)) :
    {level : Level} → Phrase level → Phrase level
  | _, literal numeral => literal numeral
  | _, name word =>
      match standIn word.text with
      | none => name word
      | some phrase => phrase.asOperand
  | _, group inner => group (inner.subst standIn)
  | _, call function arguments => call function (arguments.subst standIn)
  | _, base operand => base (operand.subst standIn)
  | _, power stars left right => power stars (left.subst standIn) (right.subst standIn)
  | _, unsigned operand => unsigned (operand.subst standIn)
  | _, sign minus operand => sign minus (operand.subst standIn)
  | _, factor signed => factor (signed.subst standIn)
  | _, times divide left right => times divide (left.subst standIn) (right.subst standIn)
  | _, term product => term (product.subst standIn)
  | _, plus minus left right => plus minus (left.subst standIn) (right.subst standIn)
  | _, last argument => last (argument.subst standIn)
  | _, more argument later => more (argument.subst standIn) (later.subst standIn)

/-! ### Values -/

variable {names names' : Text → Option Value}
  {functions functions' : Text → List (Option Value) → Option Value}

/-- The value of a phrase depends on the names that it reads and the functions that it
calls only. -/
theorem value_congr {level : Level} (phrase : Phrase level)
    (hnames : ∀ name ∈ phrase.freeNames, names name = names' name)
    (hfunctions : ∀ function ∈ phrase.callees, functions function = functions' function) :
    phrase.value names functions = phrase.value names' functions' := by
  induction phrase with
  | literal numeral => rfl
  | name word => exact hnames word.text List.mem_cons_self
  | group inner ih => exact ih hnames hfunctions
  | call function arguments ih =>
      obtain ⟨hfunction, harguments⟩ := List.forall_mem_cons.1 hfunctions
      simp only [value, hfunction, ih hnames harguments]
  | base operand ih => exact ih hnames hfunctions
  | power stars left right ihl ihr =>
      rw [freeNames, List.forall_mem_append] at hnames
      rw [callees, List.forall_mem_append] at hfunctions
      simp only [value, ihl hnames.1 hfunctions.1, ihr hnames.2 hfunctions.2]
  | unsigned operand ih => exact ih hnames hfunctions
  | sign minus operand ih => simp only [value, ih hnames hfunctions]
  | factor signed ih => exact ih hnames hfunctions
  | times divide left right ihl ihr =>
      rw [freeNames, List.forall_mem_append] at hnames
      rw [callees, List.forall_mem_append] at hfunctions
      simp only [value, ihl hnames.1 hfunctions.1, ihr hnames.2 hfunctions.2]
  | term product ih => exact ih hnames hfunctions
  | plus minus left right ihl ihr =>
      rw [freeNames, List.forall_mem_append] at hnames
      rw [callees, List.forall_mem_append] at hfunctions
      simp only [value, ihl hnames.1 hfunctions.1, ihr hnames.2 hfunctions.2]
  | last argument ih => simp only [value, ih hnames hfunctions]
  | more argument later iha ihl =>
      rw [freeNames, List.forall_mem_append] at hnames
      rw [callees, List.forall_mem_append] at hfunctions
      simp only [value, iha hnames.1 hfunctions.1, ihl hnames.2 hfunctions.2]

@[simp] theorem operand?_of_operand (phrase : Phrase .operand) :
    phrase.operand? = some phrase := by
  cases phrase <;> rfl

/-- An expression that is a single operand has nothing around it. -/
theorem eq_of_operand?_eq_some {phrase : Phrase .sum} {operand : Phrase .operand}
    (h : phrase.operand? = some operand) :
    phrase = term (factor (unsigned (base operand))) := by
  cases phrase with
  | plus minus left right => contradiction
  | term product =>
      cases product with
      | times divide left right => contradiction
      | factor signed =>
          cases signed with
          | sign minus inner => contradiction
          | unsigned power =>
              cases power with
              | power stars left right => contradiction
              | base inner =>
                  change inner.operand? = some operand at h
                  rw [operand?_of_operand] at h
                  rw [Option.some.inj h]

@[simp] theorem value_asOperand (phrase : Phrase .sum) :
    phrase.asOperand.value names functions = phrase.value names functions := by
  unfold asOperand
  split
  next =>
    cases h : phrase.operand? with
    | none => rfl
    | some operand =>
        rw [eq_of_operand?_eq_some h]
        rfl
  next => rfl

/-- The value of a phrase with expressions in the places of some names is its value
when these names have the values of the expressions. -/
theorem value_subst (standIn : Text → Option (Phrase .sum)) {level : Level}
    (phrase : Phrase level) :
    (phrase.subst standIn).value names functions =
      phrase.value (fun name =>
        match standIn name with
        | none => names name
        | some expr => expr.value names functions) functions := by
  induction phrase with
  | literal numeral => rfl
  | name word =>
      rw [subst, value]
      cases standIn word.text with
      | none => rfl
      | some expr => exact value_asOperand expr
  | group inner ih => simpa only [subst, value] using ih
  | call function arguments ih => simp only [subst, value, ih]
  | base operand ih => simpa only [subst, value] using ih
  | power stars left right ihl ihr => simp only [subst, value, ihl, ihr]
  | unsigned operand ih => simpa only [subst, value] using ih
  | sign minus operand ih => simp only [subst, value, ih]
  | factor signed ih => simpa only [subst, value] using ih
  | times divide left right ihl ihr => simp only [subst, value, ihl, ihr]
  | term product ih => simpa only [subst, value] using ih
  | plus minus left right ihl ihr => simp only [subst, value, ihl, ihr]
  | last argument ih => simp only [subst, value, ih]
  | more argument later iha ihl => simp only [subst, value, iha, ihl]

end Phrase

end OdeModel
