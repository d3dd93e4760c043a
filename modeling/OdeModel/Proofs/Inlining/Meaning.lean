import OdeModel.Proofs.Arithmetic.Reading
import OdeModel.Proofs.Inlining.Names
import OdeModel.Proofs.Inlining.Substitution

/-!
# Inlining of names keeps values

When every name stands for the value of its own definition, putting that definition
in its place changes no value. This is so for one expression, then for the definitions
of a category, and then for all categories one after the other.
-/

namespace OdeModel

namespace Text

/-- The text of an arithmetic expression that calls built-in functions only. -/
def IsArithmetic (s : Text) : Prop :=
  ∃ phrase : Phrase .sum, phrase.text = s ∧
    ∀ function ∈ phrase.callees, Vocabulary.isBuiltin function = true

/-- A name that a model may define and that has no other meaning. -/
def IsFreeName (s : Text) : Prop := isIdentifier s = true ∧ Vocabulary.isBuiltin s = false

namespace IsFreeName

variable {s : Text}

/-- A free name as it stands in an expression. -/
def symbol (h : IsFreeName s) : Symbol :=
  ⟨s, (isNameText_of_isIdentifier h.1).1, (isNameText_of_isIdentifier h.1).2.2⟩

theorem ne_pi (h : IsFreeName s) : s ≠ ['p', 'i'] := by
  rintro rfl
  exact absurd h.2 (by decide)

end IsFreeName

end Text

namespace Environment

variable {env env' : Environment} {s : Text}

theorem valueOf?_of_isFreeName (hs : s.IsFreeName) : env.valueOf? s = env s := by
  unfold valueOf?
  cases env s with
  | some value => rfl
  | none => exact if_neg hs.ne_pi

/-- A free name has the value that the environment gives it. -/
theorem evalText_of_isFreeName (hs : s.IsFreeName) : (evalText env s).toOption = env s := by
  have hvalue := Phrase.evalText_text env (.term (.factor (.unsigned (.base (.name hs.symbol)))))
  exact hvalue.trans (valueOf?_of_isFreeName hs)

/-- The value of an expression depends on its names only. -/
theorem evalText_congr (hs : s.IsArithmetic)
    (h : ∀ run ∈ Text.runs s, env run = env' run) :
    (evalText env s).toOption = (evalText env' s).toOption := by
  obtain ⟨phrase, rfl, -⟩ := hs
  rw [Phrase.evalText_text, Phrase.evalText_text]
  apply phrase.value_congr _ fun _ _ => rfl
  intro name hname
  rw [valueOf?, valueOf?, h name (phrase.freeNames_subset_runs hname)]

end Environment

namespace Inlining

namespace Glossary

variable {glossary : Glossary}

/-- Every name of the glossary has the value of its definition. -/
def rebind (glossary : Glossary) (env : Environment) : Environment := fun name =>
  match glossary.definition? name with
  | none => env name
  | some definition => (evalText env definition.expr).toOption

theorem Covers.rebind_eq_self (h : Covers glossary) {env : Environment}
    (hbound : ∀ definition ∈ glossary.definitions,
      env definition.name = (evalText env definition.expr).toOption) :
    glossary.rebind env = env := by
  funext name
  unfold rebind
  split
  next => rfl
  next definition hdefinition =>
    obtain ⟨hmem, rfl⟩ := h.definition?_eq_some_iff.1 hdefinition
    exact (hbound definition hmem).symm

theorem rebind_of_definition? {env : Environment} {name : Text} {definition : Definition}
    (h : glossary.definition? name = some definition) :
    glossary.rebind env name = (evalText env definition.expr).toOption := by
  rw [rebind, h]

theorem rebind_of_none {env : Environment} {name : Text}
    (h : glossary.definition? name = none) : glossary.rebind env name = env name := by
  rw [rebind, h]

/-- The phrases that stand in for the names of an expression. -/
structure StandsIn (glossary : Glossary) (expr : Text)
    (standIn : Text → Option (Phrase .sum)) : Prop where
  map_text : ∀ run ∈ Text.runs expr,
    (standIn run).map Phrase.text = (glossary.definition? run).map Definition.expr
  isFreeName : ∀ {run phrase}, standIn run = some phrase → run.IsFreeName
  isBuiltin : ∀ {run phrase}, standIn run = some phrase →
    ∀ function ∈ phrase.callees, Vocabulary.isBuiltin function = true

theorem Covers.exists_standsIn (h : Covers glossary)
    (hnames : ∀ definition ∈ glossary.definitions, definition.name.IsFreeName) {expr : Text}
    (hdefinitions : ∀ definition ∈ glossary.definitions,
      definition.name ∈ Text.runs expr → definition.expr.IsArithmetic) :
    ∃ standIn, StandsIn glossary expr standIn := by
  have hone : ∀ run, ∃ phrase? : Option (Phrase .sum),
      (run ∈ Text.runs expr →
        phrase?.map Phrase.text = (glossary.definition? run).map Definition.expr) ∧
      ∀ phrase, phrase? = some phrase → run.IsFreeName ∧
        ∀ function ∈ phrase.callees, Vocabulary.isBuiltin function = true := by
    intro run
    by_cases hrun : run ∈ Text.runs expr
    · cases hdefinition : glossary.definition? run with
      | none => exact ⟨none, by simp⟩
      | some definition =>
          obtain ⟨hmem, rfl⟩ := h.definition?_eq_some_iff.1 hdefinition
          obtain ⟨phrase, htext, hbuiltin⟩ := hdefinitions definition hmem hrun
          refine ⟨some phrase, by simp [htext], ?_⟩
          rintro _ ⟨⟩
          exact ⟨hnames definition hmem, hbuiltin⟩
    · exact ⟨none, by simp [hrun]⟩
  choose standIn htext hsome using hone
  exact ⟨standIn, htext, fun hphrase => (hsome _ _ hphrase).1, fun hphrase => (hsome _ _ hphrase).2⟩

/-- Expressions are put in the places of all names, unless a name is the whole
expression. -/
theorem Covers.replace_eq_text_subst (h : Covers glossary)
    (hparenthesize : glossary.parenthesize = true) {phrase : Phrase .sum}
    (hbuiltin : ∀ function ∈ phrase.callees, Vocabulary.isBuiltin function = true)
    {standIn : Text → Option (Phrase .sum)} (hstandIn : StandsIn glossary phrase.text standIn)
    (hwhole : phrase.text.all isNameChar = false) :
    (glossary.replace [] phrase.text).1 = (phrase.subst standIn).text := by
  rw [phrase.text_subst, h.replace_eq, hwhole]
  · apply Text.mapRuns_congr
    intro run hrun
    have htext := hstandIn.map_text run hrun
    rw [Glossary.standIn, if_neg List.not_mem_nil, Phrase.written, hparenthesize]
    cases hphrase : standIn run with
    | none =>
        rw [hphrase, Option.map_none, eq_comm, Option.map_eq_none_iff] at htext
        rw [htext]
    | some expr =>
        rw [hphrase, Option.map_some, eq_comm, Option.map_eq_some_iff] at htext
        obtain ⟨definition, hdefinition, hexpr⟩ := htext
        simp only [hdefinition, hexpr, Phrase.text_asOperand]
  · intro run hdigits
    rw [Option.eq_none_iff_forall_ne_some]
    exact fun expr hexpr => Text.not_digits_of_isIdentifier (hstandIn.isFreeName hexpr).1 hdigits
  · intro function hfunction
    rw [Option.eq_none_iff_forall_ne_some]
    intro expr hexpr
    have hfree := (hstandIn.isFreeName hexpr).2
    rw [hbuiltin function hfunction] at hfree
    contradiction

theorem StandsIn.isArithmetic_subst {phrase : Phrase .sum}
    (hbuiltin : ∀ function ∈ phrase.callees, Vocabulary.isBuiltin function = true)
    {standIn : Text → Option (Phrase .sum)} (hstandIn : StandsIn glossary phrase.text standIn) :
    (phrase.subst standIn).text.IsArithmetic := by
  refine ⟨phrase.subst standIn, rfl, fun function hfunction => ?_⟩
  rcases phrase.mem_callees_subst hfunction with hfunction | ⟨name, expr, hexpr, hfunction⟩
  · exact hbuiltin function hfunction
  · exact hstandIn.isBuiltin hexpr function hfunction

theorem StandsIn.evalText_subst {phrase : Phrase .sum} {standIn : Text → Option (Phrase .sum)}
    (hstandIn : StandsIn glossary phrase.text standIn) (env : Environment) :
    (evalText env (phrase.subst standIn).text).toOption =
      (evalText (glossary.rebind env) phrase.text).toOption := by
  rw [Phrase.evalText_text, Phrase.evalText_text, phrase.value_subst]
  apply phrase.value_congr _ fun _ _ => rfl
  intro run hname
  have htext := hstandIn.map_text run (phrase.freeNames_subset_runs hname)
  cases hphrase : standIn run with
  | none =>
      rw [hphrase, Option.map_none, eq_comm, Option.map_eq_none_iff] at htext
      simp only [Environment.valueOf?, rebind_of_none htext]
  | some expr =>
      rw [hphrase, Option.map_some, eq_comm, Option.map_eq_some_iff] at htext
      obtain ⟨definition, hdefinition, hexpr⟩ := htext
      change expr.value env.valueOf? Phrase.builtin = _
      rw [Environment.valueOf?_of_isFreeName (hstandIn.isFreeName hphrase),
        rebind_of_definition? hdefinition, hexpr, Phrase.evalText_text]

/-- Replacing the names of an expression gives them the values of their definitions. -/
theorem Covers.evalText_replace (h : Covers glossary)
    (hparenthesize : glossary.parenthesize = true)
    (hnames : ∀ definition ∈ glossary.definitions, definition.name.IsFreeName) {expr : Text}
    (hexpr : expr.IsArithmetic)
    (hdefinitions : ∀ definition ∈ glossary.definitions,
      definition.name ∈ Text.runs expr → definition.expr.IsArithmetic) :
    (glossary.replace [] expr).1.IsArithmetic ∧ ∀ env,
      (evalText env (glossary.replace [] expr).1).toOption =
        (evalText (glossary.rebind env) expr).toOption := by
  obtain ⟨phrase, rfl, hbuiltin⟩ := id hexpr
  cases hwhole : phrase.text.all isNameChar with
  | false =>
      obtain ⟨standIn, hstandIn⟩ := h.exists_standsIn hnames hdefinitions
      rw [h.replace_eq_text_subst hparenthesize hbuiltin hstandIn hwhole]
      exact ⟨hstandIn.isArithmetic_subst hbuiltin, hstandIn.evalText_subst⟩
  | true =>
      -- the expression is a single run: what takes its place gets no parentheses
      have hletters : Text.IsNameText phrase.text := List.all_eq_true.1 hwhole
      have hne : phrase.text ≠ [] := by
        obtain ⟨c, rest, hcons, -⟩ := phrase.exists_text_eq_cons
        simp [hcons]
      have hruns := Text.runs_of_isNameText hletters hne
      rw [h.replace_eq, Text.mapRuns_of_isNameText _ hletters hne, hwhole, Glossary.standIn,
        if_neg List.not_mem_nil]
      cases hdefinition : glossary.definition? phrase.text with
      | none =>
          refine ⟨hexpr, fun env => Environment.evalText_congr hexpr fun run hrun => ?_⟩
          rw [hruns, List.mem_singleton] at hrun
          rw [hrun, rebind_of_none hdefinition]
      | some definition =>
          obtain ⟨hmem, hname⟩ := h.definition?_eq_some_iff.1 hdefinition
          simp only [Text.wrap, Bool.not_true, Bool.and_false, Bool.false_and,
            Bool.false_eq_true, if_false]
          refine ⟨hdefinitions definition hmem (by simp [hname, hruns]), fun env => ?_⟩
          rw [← rebind_of_definition? hdefinition,
            Environment.evalText_of_isFreeName (hname ▸ hnames definition hmem)]

/-! ### The definitions of one category -/

namespace Resolved

variable {definitions : List Definition}

theorem isArithmetic (h : Resolved definitions glossary)
    (hparenthesize : glossary.parenthesize = true)
    (hnames : ∀ definition ∈ definitions, definition.name.IsFreeName)
    (hexprs : ∀ definition ∈ definitions, definition.expr.IsArithmetic) :
    ∀ resolved ∈ glossary.definitions, resolved.name.IsFreeName ∧ resolved.expr.IsArithmetic := by
  have hresolved : ∀ resolved ∈ glossary.definitions,
      ∃ old ∈ definitions, glossary.explain old = resolved := by
    rw [h.definitions_eq]
    exact fun resolved hmem => List.mem_map.1 hmem
  have hfree : ∀ resolved ∈ glossary.definitions, resolved.name.IsFreeName := by
    intro resolved hmem
    obtain ⟨old, hold, rfl⟩ := hresolved resolved hmem
    exact hnames old hold
  have hall : ∀ old ∈ definitions, (glossary.explain old).expr.IsArithmetic := by
    apply h.induction (p := fun old => (glossary.explain old).expr.IsArithmetic)
    intro old hold ih
    apply (h.covers.evalText_replace hparenthesize hfree (hexprs old hold) _).1
    intro resolved hmem hmention
    obtain ⟨other, hother, rfl⟩ := hresolved resolved hmem
    exact ih other hother hmention
  intro resolved hmem
  refine ⟨hfree resolved hmem, ?_⟩
  obtain ⟨old, hold, rfl⟩ := hresolved resolved hmem
  exact hall old hold

variable (h : Resolved definitions glossary) (hparenthesize : glossary.parenthesize = true)
  (hnames : ∀ definition ∈ definitions, definition.name.IsFreeName)
  (hexprs : ∀ definition ∈ definitions, definition.expr.IsArithmetic)
include h hparenthesize hnames hexprs

theorem evalText_replace {expr : Text} (hexpr : expr.IsArithmetic) :
    (glossary.replace [] expr).1.IsArithmetic ∧ ∀ env,
      (evalText env (glossary.replace [] expr).1).toOption =
        (evalText (glossary.rebind env) expr).toOption := by
  have hall := h.isArithmetic hparenthesize hnames hexprs
  exact h.covers.evalText_replace hparenthesize (fun resolved hmem => (hall resolved hmem).1) hexpr
    fun resolved hmem _ => (hall resolved hmem).2

/-- Where the names have the values of the old definitions, they have those of the
resolved ones. -/
theorem rebind_eq_self {bound : Environment}
    (hbound : ∀ definition ∈ definitions,
      bound definition.name = (evalText bound definition.expr).toOption) :
    glossary.rebind bound = bound := by
  have hall : ∀ old ∈ definitions,
      bound old.name = (evalText bound (glossary.explain old).expr).toOption := by
    apply h.induction (p := fun old =>
      bound old.name = (evalText bound (glossary.explain old).expr).toOption)
    intro old hold ih
    have hvalue := (h.evalText_replace hparenthesize hnames hexprs (hexprs old hold)).2 bound
    rw [hbound old hold, explain, hvalue]
    apply Environment.evalText_congr (hexprs old hold)
    intro run hrun
    cases hdefinition : glossary.definition? run with
    | none => rw [rebind_of_none hdefinition]
    | some resolved =>
        obtain ⟨hmem, rfl⟩ := h.covers.definition?_eq_some_iff.1 hdefinition
        rw [h.definitions_eq] at hmem
        obtain ⟨other, hother, rfl⟩ := List.mem_map.1 hmem
        rw [rebind_of_definition? hdefinition]
        exact ih other hother hrun
  apply h.covers.rebind_eq_self
  intro resolved hmem
  rw [h.definitions_eq] at hmem
  obtain ⟨old, hold, rfl⟩ := List.mem_map.1 hmem
  exact hall old hold

/-- In every environment the names can be given the values of their definitions. -/
theorem rebind_name (env : Environment) {definition : Definition}
    (hmem : definition ∈ definitions) :
    glossary.rebind env definition.name =
      (evalText (glossary.rebind env) definition.expr).toOption := by
  have hresolved : glossary.definition? definition.name = some (glossary.explain definition) := by
    rw [h.covers.definition?_eq_some_iff, h.definitions_eq]
    exact ⟨List.mem_map_of_mem hmem, rfl⟩
  rw [rebind_of_definition? hresolved]
  exact (h.evalText_replace hparenthesize hnames hexprs (hexprs definition hmem)).2 env

end Resolved

end Glossary

end Inlining

end OdeModel
