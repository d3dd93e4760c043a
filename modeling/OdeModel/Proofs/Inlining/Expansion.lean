import OdeModel.Proofs.Inlining.Scoping
import OdeModel.Proofs.Inlining.Substitution
import Mathlib.Data.List.Nodup

/-!
# Putting bodies in the places of calls

A call of a resolved function is replaced by its body with the arguments in the places
of the formal ones. What a body reads is then read where it has been put, so resolving
one function after the other gives calls their dynamic meaning.
-/

namespace OdeModel

namespace Phrase

variable {names : Text → Option Value} {functions : Text → List (Option Value) → Option Value}

/-- The arguments of a call. -/
def actuals : {level : Level} → Phrase level → List (Phrase .sum)
  | _, last argument => [argument]
  | _, more argument later => argument :: later.actuals
  | _, _ => []

theorem value_arguments : (arguments : Phrase .arguments) →
    arguments.value names functions =
      arguments.actuals.map fun actual => actual.value names functions
  | last argument => rfl
  | more argument later => by rw [value, actuals, List.map_cons, value_arguments later]

/-- The functions called by an argument are called by the arguments. -/
theorem callees_of_mem_actuals : (arguments : Phrase .arguments) → ∀ actual ∈ arguments.actuals,
    ∀ function ∈ actual.callees, function ∈ arguments.callees
  | last argument => by simp [actuals, callees]
  | more argument later => by
      have hlater := callees_of_mem_actuals later
      intro actual hactual function hfunction
      rw [callees, List.mem_append]
      rw [actuals] at hactual
      rcases List.mem_cons.1 hactual with rfl | hactual
      · exact Or.inl hfunction
      · exact Or.inr (hlater actual hactual function hfunction)

end Phrase

namespace Formula

/-- The body with expressions in the places of the formal arguments. -/
def instantiate (formula : Formula) (actuals : List (Phrase .sum)) : Phrase .sum :=
  formula.body.subst fun name => (formula.formals.idxOf? name).bind fun i => actuals[i]?

variable {names : Text → Option Value} {functions : Text → List (Option Value) → Option Value}

theorem value_instantiate (formula : Formula) {actuals : List (Phrase .sum)}
    (hlength : actuals.length = formula.formals.length) :
    (formula.instantiate actuals).value names functions =
      formula.body.value (bind formula.formals
        (actuals.map fun actual => actual.value names functions) names) functions := by
  rw [instantiate, Phrase.value_subst]
  apply formula.body.value_congr _ fun _ _ => rfl
  intro name _
  unfold bind
  cases hindex : formula.formals.idxOf? name with
  | none => rfl
  | some i =>
      obtain ⟨hlt, -⟩ := List.idxOf?_eq_some_iff.1 hindex
      rw [← hlength] at hlt
      simp [List.getElem?_eq_getElem hlt]

end Formula

namespace Phrase

variable {names : Text → Option Value} {functions : Text → List (Option Value) → Option Value}
  {resolved : Text → Option Formula}

/-- The phrase with the bodies of resolved functions in the places of their calls. -/
def expand (resolved : Text → Option Formula) : {level : Level} → Phrase level → Phrase level
  | _, literal numeral => literal numeral
  | _, name word => name word
  | _, group inner => group (inner.expand resolved)
  | _, call function arguments =>
      match resolved function.text with
      | none => call function (arguments.expand resolved)
      | some formula => (formula.instantiate (arguments.expand resolved).actuals).asOperand
  | _, base operand => base (operand.expand resolved)
  | _, power stars left right => power stars (left.expand resolved) (right.expand resolved)
  | _, unsigned operand => unsigned (operand.expand resolved)
  | _, sign minus operand => sign minus (operand.expand resolved)
  | _, factor signed => factor (signed.expand resolved)
  | _, times divide left right => times divide (left.expand resolved) (right.expand resolved)
  | _, term product => term (product.expand resolved)
  | _, plus minus left right => plus minus (left.expand resolved) (right.expand resolved)
  | _, last argument => last (argument.expand resolved)
  | _, more argument later => more (argument.expand resolved) (later.expand resolved)

/-- Every call of a resolved function has as many arguments as the function. -/
def Fits (resolved : Text → Option Formula) : {level : Level} → Phrase level → Prop
  | _, literal _ => True
  | _, name _ => True
  | _, group inner => inner.Fits resolved
  | _, call function arguments =>
      (∀ formula, resolved function.text = some formula →
        arguments.actuals.length = formula.formals.length) ∧ arguments.Fits resolved
  | _, base operand => operand.Fits resolved
  | _, power _ left right => left.Fits resolved ∧ right.Fits resolved
  | _, unsigned operand => operand.Fits resolved
  | _, sign _ operand => operand.Fits resolved
  | _, factor signed => signed.Fits resolved
  | _, times _ left right => left.Fits resolved ∧ right.Fits resolved
  | _, term product => product.Fits resolved
  | _, plus _ left right => left.Fits resolved ∧ right.Fits resolved
  | _, last argument => argument.Fits resolved
  | _, more argument later => argument.Fits resolved ∧ later.Fits resolved

/-- The meaning of a call of a resolved function: the value of its body, where the names
are those of the place of the call. -/
def meaning (resolved : Text → Option Formula) (names : Text → Option Value)
    (function : Text) (values : List (Option Value)) : Option Value :=
  match resolved function with
  | none => builtin function values
  | some formula => formula.body.value (Formula.bind formula.formals values names) builtin

theorem length_actuals_expand : (arguments : Phrase .arguments) →
    (arguments.expand resolved).actuals.length = arguments.actuals.length
  | last argument => rfl
  | more argument later => by
      rw [expand, actuals, actuals, List.length_cons, List.length_cons,
        length_actuals_expand later]

/-- The value of a phrase in which bodies stand in the places of calls. -/
theorem value_expand {level : Level} (phrase : Phrase level) (hfits : phrase.Fits resolved) :
    (phrase.expand resolved).value names builtin =
      phrase.value names (meaning resolved names) := by
  induction phrase with
  | literal numeral => rfl
  | name word => rfl
  | group inner ih => exact ih hfits
  | call function arguments ih =>
      obtain ⟨hlength, hfits⟩ := hfits
      have hvalues := ih hfits
      rw [expand, value]
      cases hformula : resolved function.text with
      | none =>
          simp only [value, hvalues, meaning, hformula]
      | some formula =>
          have hlength : (arguments.expand resolved).actuals.length = formula.formals.length :=
            (length_actuals_expand arguments).trans (hlength formula hformula)
          simp only [value_asOperand, meaning, hformula]
          rw [formula.value_instantiate hlength, ← value_arguments, hvalues]
  | base operand ih => exact ih hfits
  | power stars left right ihl ihr => simp only [expand, value, ihl hfits.1, ihr hfits.2]
  | unsigned operand ih => exact ih hfits
  | sign minus operand ih => simp only [expand, value, ih hfits]
  | factor signed ih => exact ih hfits
  | times divide left right ihl ihr => simp only [expand, value, ihl hfits.1, ihr hfits.2]
  | term product ih => exact ih hfits
  | plus minus left right ihl ihr => simp only [expand, value, ihl hfits.1, ihr hfits.2]
  | last argument ih => simp only [expand, value, ih hfits]
  | more argument later iha ihl => simp only [expand, value, iha hfits.1, ihl hfits.2]

/-- A call that is the whole phrase gives the body itself. -/
def expandWhole (resolved : Text → Option Formula) (phrase : Phrase .sum) : Phrase .sum :=
  match phrase.operand? with
  | some (call function arguments) =>
      match resolved function.text with
      | none => phrase.expand resolved
      | some formula => formula.instantiate (arguments.expand resolved).actuals
  | _ => phrase.expand resolved

theorem expandWhole_cases (resolved : Text → Option Formula) (phrase : Phrase .sum) :
    phrase.expandWhole resolved = phrase.expand resolved ∨
      ∃ function arguments formula,
        phrase = term (factor (unsigned (base (call function arguments)))) ∧
        resolved function.text = some formula ∧
        phrase.expandWhole resolved =
          formula.instantiate (arguments.expand resolved).actuals := by
  unfold expandWhole
  split
  next function arguments hoperand =>
    cases hformula : resolved function.text with
    | none => exact Or.inl rfl
    | some formula =>
        exact Or.inr ⟨function, arguments, formula, eq_of_operand?_eq_some hoperand, hformula, rfl⟩
  next => exact Or.inl rfl

theorem value_expandWhole (phrase : Phrase .sum) (hfits : phrase.Fits resolved) :
    (phrase.expandWhole resolved).value names builtin =
      phrase.value names (meaning resolved names) := by
  rw [← value_expand phrase hfits]
  rcases phrase.expandWhole_cases resolved with
    hexpand | ⟨function, arguments, formula, rfl, hformula, hexpand⟩
  · rw [hexpand]
  · rw [hexpand]
    simp only [expand, value, hformula, value_asOperand]

/-- The functions that are called after bodies have been put in the places of calls. -/
theorem mem_callees_expand {level : Level} (phrase : Phrase level) {function : Text}
    (h : function ∈ (phrase.expand resolved).callees) :
    (function ∈ phrase.callees ∧ resolved function = none) ∨
      ∃ called ∈ phrase.callees, ∃ formula, resolved called = some formula ∧
        function ∈ formula.body.callees := by
  have hmono : ∀ {old new : List Text}, old ⊆ new →
      ((function ∈ old ∧ resolved function = none) ∨
        ∃ called ∈ old, ∃ formula, resolved called = some formula ∧
          function ∈ formula.body.callees) →
      (function ∈ new ∧ resolved function = none) ∨
        ∃ called ∈ new, ∃ formula, resolved called = some formula ∧
          function ∈ formula.body.callees := by
    rintro old new hsub (⟨hmem, hnone⟩ | ⟨called, hcalled, hformula⟩)
    · exact Or.inl ⟨hsub hmem, hnone⟩
    · exact Or.inr ⟨called, hsub hcalled, hformula⟩
  have hleft : ∀ {first second : List Text}, first ⊆ first ++ second :=
    fun {first second} => List.subset_append_left first second
  have hright : ∀ {first second : List Text}, second ⊆ first ++ second :=
    fun {first second} => List.subset_append_right first second
  induction phrase with
  | literal numeral => contradiction
  | name word => contradiction
  | group inner ih => exact ih h
  | call called arguments ih =>
      rw [expand] at h
      cases hformula : resolved called.text with
      | none =>
          rw [hformula] at h
          rcases List.mem_cons.1 h with rfl | h
          · exact Or.inl ⟨List.mem_cons_self, hformula⟩
          · exact hmono (List.subset_cons_self _ _) (ih h)
      | some formula =>
          simp only [hformula] at h
          rw [callees_asOperand, Formula.instantiate] at h
          rcases formula.body.mem_callees_subst h with h | ⟨name, expr, hexpr, h⟩
          · exact Or.inr ⟨called.text, List.mem_cons_self, formula, hformula, h⟩
          · obtain ⟨i, -, hactual⟩ := Option.bind_eq_some_iff.1 hexpr
            have hexpand := callees_of_mem_actuals _ expr (List.mem_of_getElem? hactual) _ h
            exact hmono (List.subset_cons_self _ _) (ih hexpand)
  | base operand ih => exact ih h
  | power stars left right ihl ihr =>
      rcases List.mem_append.1 h with h | h
      · exact hmono hleft (ihl h)
      · exact hmono hright (ihr h)
  | unsigned operand ih => exact ih h
  | sign minus operand ih => exact ih h
  | factor signed ih => exact ih h
  | times divide left right ihl ihr =>
      rcases List.mem_append.1 h with h | h
      · exact hmono hleft (ihl h)
      · exact hmono hright (ihr h)
  | term product ih => exact ih h
  | plus minus left right ihl ihr =>
      rcases List.mem_append.1 h with h | h
      · exact hmono hleft (ihl h)
      · exact hmono hright (ihr h)
  | last argument ih => exact ih h
  | more argument later iha ihl =>
      rcases List.mem_append.1 h with h | h
      · exact hmono hleft (iha h)
      · exact hmono hright (ihl h)

theorem mem_callees_expandWhole (phrase : Phrase .sum) {function : Text}
    (h : function ∈ (phrase.expandWhole resolved).callees) :
    (function ∈ phrase.callees ∧ resolved function = none) ∨
      ∃ called ∈ phrase.callees, ∃ formula, resolved called = some formula ∧
        function ∈ formula.body.callees := by
  apply phrase.mem_callees_expand
  rcases phrase.expandWhole_cases resolved with
    hexpand | ⟨called, arguments, formula, rfl, hformula, hexpand⟩
  · rwa [← hexpand]
  · rw [hexpand] at h
    simpa only [expand, callees, hformula, callees_asOperand] using h

end Phrase

namespace Formula

/-! ### One function after the other -/

/-- The resolved function of a name. -/
def lookup (resolved : List Formula) (name : Text) : Option Formula :=
  resolved.find? fun formula => formula.name == name

theorem lookup_cons_of_ne {formula : Formula} {name : Text} (h : formula.name ≠ name)
    (resolved : List Formula) : lookup (formula :: resolved) name = lookup resolved name :=
  List.find?_cons_of_neg (by simpa using h)

theorem lookup_eq_none_iff {resolved : List Formula} {name : Text} :
    lookup resolved name = none ↔ name ∉ resolved.map Formula.name := by
  simp [lookup, List.find?_eq_none]

theorem mem_of_lookup {resolved : List Formula} {name : Text} {formula : Formula}
    (h : lookup resolved name = some formula) : formula ∈ resolved ∧ formula.name = name := by
  have hname := List.find?_some h
  exact ⟨List.mem_of_find?_eq_some h, by simpa using hname⟩

/-- The function with the bodies of others in the places of their calls. -/
def resolve (resolved : List Formula) (formula : Formula) : Formula :=
  { formula with body := formula.body.expandWhole (lookup resolved) }

/-- The resolved function has the value that the old one has when the calls in its body
have the meaning of the resolved functions, and no calls of functions of the model are
left in it. -/
structure Explains (formulas resolved : List Formula) (new old : Formula) : Prop where
  mem : old ∈ formulas
  name : new.name = old.name
  formals : new.formals = old.formals
  value : ∀ names, new.body.value names Phrase.builtin =
    old.body.value names (Phrase.meaning (lookup resolved) names)
  calls : ∀ callee, Calls formulas old callee → callee.name ∈ resolved.map Formula.name
  callees : ∀ function ∈ new.body.callees, function ∉ formulas.map Formula.name ∧
    ∃ callee, Relation.ReflTransGen (Calls formulas) old callee ∧ function ∈ callee.body.callees

/-- Functions that have been resolved one after the other, the last one first. -/
structure Resolved (formulas resolved : List Formula) : Prop where
  explains : ∀ new ∈ resolved, ∃ old, Explains formulas resolved new old
  founded : ∀ p : Formula → Prop, (∀ formula ∈ formulas,
    (∀ callee, Calls formulas formula callee → p callee) → p formula) →
      ∀ formula ∈ formulas, formula.name ∈ resolved.map Formula.name → p formula

variable {formulas resolved : List Formula}

theorem Resolved.nil (formulas : List Formula) : Resolved formulas [] :=
  ⟨by simp, by simp⟩

/-- Looking up among more functions gives a called function the same meaning. -/
theorem meaning_cons (formula : Formula) (hnew : formula.name ∉ resolved.map Formula.name)
    {old : Formula} (hname : formula.name ∈ formulas.map Formula.name)
    (hcalls : ∀ callee, Calls formulas old callee → callee.name ∈ resolved.map Formula.name)
    (hmem : old ∈ formulas) (names : Text → Option Value) :
    ∀ function ∈ old.body.callees,
      Phrase.meaning (lookup (formula :: resolved)) names function =
        Phrase.meaning (lookup resolved) names function := by
  intro function hfunction
  have hne : formula.name ≠ function := by
    rintro rfl
    obtain ⟨callee, hcallee, heq⟩ := List.mem_map.1 hname
    have hcalled := hcalls callee ⟨hmem, hcallee, heq ▸ hfunction⟩
    exact hnew (heq ▸ hcalled)
  funext values
  rw [Phrase.meaning, Phrase.meaning, lookup_cons_of_ne hne]

/-- A function can be resolved when all that it calls are resolved. -/
theorem Resolved.cons (h : Resolved formulas resolved)
    (hnodup : (formulas.map Formula.name).Nodup) {old : Formula} (hmem : old ∈ formulas)
    (hnew : old.name ∉ resolved.map Formula.name) (hfits : old.body.Fits (lookup resolved))
    (hcalls : ∀ callee, Calls formulas old callee → callee.name ∈ resolved.map Formula.name) :
    Resolved formulas (old.resolve resolved :: resolved) := by
  have hname : old.name ∈ formulas.map Formula.name := List.mem_map_of_mem hmem
  have hmeaning : ∀ other ∈ formulas,
      (∀ callee, Calls formulas other callee → callee.name ∈ resolved.map Formula.name) →
        ∀ names, other.body.value names (Phrase.meaning (lookup resolved) names) =
          other.body.value names
            (Phrase.meaning (lookup (old.resolve resolved :: resolved)) names) := by
    intro other hother hothers names
    apply other.body.value_congr fun _ _ => rfl
    exact fun function hfunction => (meaning_cons (old.resolve resolved) hnew hname hothers
      hother names function hfunction).symm
  constructor
  case explains =>
    rw [List.forall_mem_cons]
    constructor
    · refine ⟨old, hmem, rfl, rfl, fun names => ?_, fun callee hcallee => ?_,
        fun function hfunction => ?_⟩
      · rw [resolve, old.body.value_expandWhole hfits, hmeaning old hmem hcalls]
        rfl
      · exact List.mem_cons_of_mem _ (hcalls callee hcallee)
      · rcases old.body.mem_callees_expandWhole hfunction with
          ⟨hfunction, hnone⟩ | ⟨called, hcalled, new, hlookup, hfunction⟩
        · refine ⟨fun hdefined => ?_, old, Relation.ReflTransGen.refl, hfunction⟩
          obtain ⟨callee, hcallee, rfl⟩ := List.mem_map.1 hdefined
          exact lookup_eq_none_iff.1 hnone (hcalls callee ⟨hmem, hcallee, hfunction⟩)
        · obtain ⟨hresolved, rfl⟩ := mem_of_lookup hlookup
          obtain ⟨middle, hexplains⟩ := h.explains new hresolved
          obtain ⟨hundefined, callee, hreach, hcallee⟩ := hexplains.callees function hfunction
          have hcall : Calls formulas old middle :=
            ⟨hmem, hexplains.mem, hexplains.name ▸ hcalled⟩
          exact ⟨hundefined, callee, Relation.ReflTransGen.head hcall hreach, hcallee⟩
    · -- the others call functions that were resolved before, so nothing changes for them
      intro new hresolved
      obtain ⟨other, hexplains⟩ := h.explains new hresolved
      refine ⟨other, hexplains.mem, hexplains.name, hexplains.formals, fun names => ?_,
        fun callee hcallee => List.mem_cons_of_mem _ (hexplains.calls callee hcallee),
        hexplains.callees⟩
      rw [hexplains.value, hmeaning other hexplains.mem hexplains.calls]
  case founded =>
    intro p step formula hformula hresolved
    rcases List.mem_cons.1 hresolved with heq | hresolved
    · obtain rfl := List.inj_on_of_nodup_map hnodup hformula hmem heq
      apply step formula hformula
      exact fun callee hcallee =>
        h.founded p step callee hcallee.2.1 (hcalls callee hcallee)
    · exact h.founded p step formula hformula hresolved

/-- When all functions are resolved, calls have their dynamic meaning. -/
theorem Resolved.dynamic (h : Resolved formulas resolved)
    (hnodup : (formulas.map Formula.name).Nodup)
    (hall : ∀ formula ∈ formulas, formula.name ∈ resolved.map Formula.name) :
    Dynamic formulas (Phrase.meaning (lookup resolved)) where
  defined := by
    intro formula hmem names values
    obtain ⟨new, hlookup⟩ : ∃ new, lookup resolved formula.name = some new :=
      Option.ne_none_iff_exists'.1 fun hnone => lookup_eq_none_iff.1 hnone (hall formula hmem)
    obtain ⟨hnew, hname⟩ := mem_of_lookup hlookup
    obtain ⟨old, hexplains⟩ := h.explains new hnew
    obtain rfl :=
      List.inj_on_of_nodup_map hnodup hexplains.mem hmem (hexplains.name.symm.trans hname)
    rw [Phrase.meaning, hlookup, ← hexplains.formals]
    exact hexplains.value _
  other := by
    intro names name hname
    have hnone : lookup resolved name = none := by
      rw [lookup_eq_none_iff]
      intro hresolved
      obtain ⟨new, hnew, rfl⟩ := List.mem_map.1 hresolved
      obtain ⟨old, hexplains⟩ := h.explains new hnew
      exact hname (hexplains.name ▸ List.mem_map_of_mem hexplains.mem)
    funext values
    rw [Phrase.meaning, hnone]

end Formula

end OdeModel
