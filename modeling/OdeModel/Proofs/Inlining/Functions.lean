import OdeModel.Proofs.Inlining.Order
import OdeModel.Proofs.Inlining.Replacement

/-!
# Resolving functions

The functions of a model are resolved in their order of dependence, so every call in a
body is one of a function that is resolved already.
-/

namespace OdeModel

/-- The definition of a function whose body is the text of an expression. -/
structure Definition.Writes (definition : Definition) (formula : Formula) : Prop where
  name : definition.name = formula.name
  args : definition.args = formula.formals
  expr : definition.expr = formula.body.text

namespace Inlining

namespace Functions

/-- The functions that are called in the body of a function, by their numbers. -/
def calleesOf (definitions : List Definition) : Nat → List Nat :=
  Dependency.referencesOf (fun expr =>
    (Dictionary.callsAmong (definitions.map Definition.name) expr (Text.places 0 expr)).map
      Occurrence.id) definitions

/-- What the functions of a model fulfil. -/
structure Callable (formulas : List Formula) : Prop where
  name : ∀ formula ∈ formulas, Text.isIdentifier formula.name = true
  formals : ∀ formula ∈ formulas, ∀ formal ∈ formula.formals, Text.isIdentifier formal = true
  uncalled : Formula.FormalsUncalled formulas

/-- The state after some functions have been resolved. -/
structure Progress (formulas resolved : List Formula) (done : List Nat)
    (state : Functions × List Definition) : Prop where
  ready : Ready state.1 formulas resolved
  explains : Formula.Resolved formulas resolved
  writes : ∀ index formula, formulas[index]? = some formula → index ∉ done →
    ∃ definition, state.2[index]? = some definition ∧ definition.Writes formula
  mem_iff : ∀ name, name ∈ resolved.map Formula.name ↔
    ∃ index ∈ done, (formulas.map Formula.name)[index]? = some name

variable {functions : Functions} {definitions definitions' : List Definition}
  {formulas resolved : List Formula} {done : List Nat}
  {state state' : Functions × List Definition}

/-- The template of a number after one more template is there. -/
theorem lookup_cons_eq_ite (index : Nat) (template : Template)
    (templates : List (Nat × Template)) (id : Nat) :
    ((index, template) :: templates).lookup id =
      if id = index then some template else templates.lookup id := by
  rw [List.lookup_cons]
  by_cases hid : id = index
  · simp [hid]
  · rw [if_neg hid, beq_eq_false_iff_ne.2 hid]

/-! ### The order of dependence -/

theorem mem_calleesOf_iff {index next : Nat} : next ∈ calleesOf definitions index ↔
    ∃ definition, definitions[index]? = some definition ∧
      ∃ call ∈ Dictionary.callsAmong (definitions.map Definition.name) definition.expr
        (Text.places 0 definition.expr), call.id = next := by
  unfold calleesOf Dependency.referencesOf
  cases definitions[index]? <;> simp

theorem lt_of_mem_calleesOf {index next : Nat} (h : next ∈ calleesOf definitions index) :
    next < definitions.length := by
  obtain ⟨definition, -, call, hcall, rfl⟩ := mem_calleesOf_iff.1 h
  simpa using Dictionary.id_lt_of_mem_callsAmong hcall

theorem referencesOf_calls {names : Dictionary}
    (hnames : names.Holds (definitions.map Definition.name))
    (hwords : ∀ name ∈ definitions.map Definition.name, Text.IsNameText name) :
    Dependency.referencesOf (fun expr => (names.calls expr).map Occurrence.id) definitions =
      calleesOf definitions := by
  simp only [calleesOf, hnames.calls_eq hwords]

/-- In an order of dependence each function stands behind those that it calls. -/
theorem inOrder_of_ofDefinitions {names : Dictionary} {order : List Nat}
    (hnames : names.Holds (definitions.map Definition.name))
    (hwords : ∀ name ∈ definitions.map Definition.name, Text.IsNameText name)
    (h : Dependency.ofDefinitions (fun expr => (names.calls expr).map Occurrence.id) definitions =
      .ok order) :
    Dependency.InOrder (calleesOf definitions) [] order ∧
      ∀ index, index ∈ order ↔ index < definitions.length := by
  rw [Dependency.ofDefinitions_eq, mapError_eq_ok_iff, referencesOf_calls hnames hwords] at h
  have hvalid : ∀ index, ∀ next ∈ calleesOf definitions index, next < definitions.length :=
    fun _ _ => lt_of_mem_calleesOf
  have hspec := Dependency.order_spec hvalid
  rw [h] at hspec
  obtain ⟨hinorder, hperm⟩ := hspec
  exact ⟨hinorder, fun index => by rw [hperm.mem_iff, List.mem_range]⟩

/-- Functions are resolved one after the other, each behind those that it calls. -/
theorem ofDefinitions_order {scope : Scope} {parenthesize : Bool}
    (hwords : ∀ name ∈ definitions.map Definition.name, name ≠ [] ∧ Text.IsNameText name)
    (h : ofDefinitions scope parenthesize definitions = .ok (functions, definitions')) :
    ∃ (names : Dictionary) (order : List Nat), names.Holds (definitions.map Definition.name) ∧
      Dependency.InOrder (calleesOf definitions) [] order ∧
      (∀ index, index ∈ order ↔ index < definitions.length) ∧
      order.foldlM resolveAt (⟨names, [], scope, parenthesize⟩, definitions) =
        .ok (functions, definitions') := by
  unfold ofDefinitions Dictionary.ofNames at h
  obtain ⟨names, hdict, h⟩ := bind_eq_ok_iff.1 h
  obtain ⟨order, horder, h⟩ := bind_eq_ok_iff.1 h
  rw [mapError_eq_ok_iff] at hdict
  have hnames := (Dictionary.ofKeywords_spec fun name hname => (hwords name hname).1).2 names hdict
  obtain ⟨hinorder, hmem⟩ :=
    inOrder_of_ofDefinitions hnames (fun name hname => (hwords name hname).2) horder
  exact ⟨names, order, hnames, hinorder, hmem, h⟩

/-! ### Templates of phrases -/

/-- The body of a resolved function calls none of its formal arguments. -/
theorem Callable.uncalled_of_explains (h : Callable formulas) {old new : Formula}
    (hexplains : Formula.Explains formulas resolved new old) :
    ∀ function ∈ new.body.callees, function ∉ new.formals := by
  intro function hfunction
  obtain ⟨hundefined, callee, hreach, hcallee⟩ := hexplains.callees function hfunction
  rw [hexplains.formals]
  exact h.uncalled old hexplains.mem callee hreach function hcallee hundefined

/-- One more function is ready when its template is there. -/
theorem Ready.cons (h : Ready functions formulas resolved) {index : Nat} (new : Formula)
    (hindex : (formulas.map Formula.name)[index]? = some new.name) {template : Template}
    (htemplate : template.Of new) :
    Ready { functions with templates := (index, template) :: functions.templates } formulas
      (new :: resolved) := by
  have hname : ∀ {id name}, (formulas.map Formula.name)[id]? = some name → id ≠ index →
      Formula.lookup (new :: resolved) name = Formula.lookup resolved name := by
    intro id name hget hid
    apply Formula.lookup_cons_of_ne
    rintro rfl
    have hlt := (List.getElem?_eq_some_iff.1 hget).1
    exact hid ((List.getElem?_inj hlt h.names.nodup).1 (hget.trans hindex.symm))
  constructor
  case names => exact h.names
  case isIdentifier => exact h.isIdentifier
  case parenthesize => exact h.parenthesize
  case mem_names =>
    rw [List.forall_mem_cons]
    exact ⟨List.mem_of_getElem? hindex, h.mem_names⟩
  case unresolved =>
    intro id name hget hnone
    rw [lookup_cons_eq_ite] at hnone
    split at hnone
    next => contradiction
    next hid =>
      rw [hname hget hid]
      exact h.unresolved hget hnone
  case template =>
    intro id name other hget hsome
    rw [lookup_cons_eq_ite] at hsome
    split at hsome
    next hid =>
      cases hsome
      subst hid
      rw [hindex, Option.some.injEq] at hget
      refine ⟨new, ?_, htemplate⟩
      rw [Formula.lookup, List.find?_cons_of_pos]
      simpa using hget
    next hid =>
      rw [hname hget hid]
      exact h.template hget hsome

/-- A function that calls resolved functions only is resolved. -/
theorem Progress.resolveAt (h : Progress formulas resolved done state)
    (hcallable : Callable formulas) {index : Nat} {old : Formula}
    (hindex : formulas[index]? = some old) (hnew : index ∉ done)
    (hcalls : ∀ callee, Formula.Calls formulas old callee →
      callee.name ∈ resolved.map Formula.name)
    (hstate : Functions.resolveAt state index = .ok state') :
    Progress formulas (old.resolve resolved :: resolved) (done ++ [index]) state' := by
  have hmem := List.mem_of_getElem? hindex
  have hname : (formulas.map Formula.name)[index]? = some old.name := by
    rw [List.getElem?_map, hindex, Option.map_some]
  obtain ⟨definition, hdefinition, hwrites⟩ := h.writes index old hindex hnew
  unfold Functions.resolveAt at hstate
  simp only [hdefinition, hwrites.expr, hwrites.args] at hstate
  obtain ⟨expr, hexpr, hstate⟩ := bind_eq_ok_iff.1 hstate
  obtain ⟨template, htemplate, hstate⟩ := bind_eq_ok_iff.1 hstate
  rw [pure_eq_ok_iff] at hstate
  obtain ⟨rfl, hfits⟩ := old.body.replaceCalls_eq h.ready hexpr
  -- names differ, so no other function has resolved this one
  have hunresolved : old.name ∉ resolved.map Formula.name := by
    rw [h.mem_iff]
    rintro ⟨other, hother, hget⟩
    have hlt := (List.getElem?_eq_some_iff.1 hget).1
    have hsame := (List.getElem?_inj hlt h.ready.names.nodup).1 (hget.trans hname.symm)
    exact hnew (hsame ▸ hother)
  have hresolved := h.explains.cons h.ready.names.nodup hmem hunresolved hfits hcalls
  have hof : template.Of (old.resolve resolved) := by
    obtain ⟨other, hexplains⟩ := hresolved.explains _ List.mem_cons_self
    exact Template.of_ofDefinition (mapError_eq_ok_iff.1 htemplate) rfl rfl
      (hcallable.formals old hmem) (hcallable.uncalled_of_explains hexplains)
  subst hstate
  constructor
  case ready => exact h.ready.cons (old.resolve resolved) hname hof
  case explains => exact hresolved
  case writes =>
    intro i formula hget hi
    rw [List.mem_append, List.mem_singleton, not_or] at hi
    obtain ⟨other, hother, hwrites⟩ := h.writes i formula hget hi.1
    refine ⟨other, ?_, hwrites⟩
    rw [List.getElem?_set_ne fun heq => hi.2 heq.symm, hother]
  case mem_iff =>
    intro name
    rw [List.map_cons, List.mem_cons, h.mem_iff]
    simp only [List.mem_append, List.mem_singleton, or_and_right, exists_or, exists_eq_left, hname,
      Option.some.injEq]
    rw [or_comm, eq_comm]
    rfl

/-! ### All functions -/

theorem map_name_of_writes (h : List.Forall₂ Definition.Writes definitions formulas) :
    definitions.map Definition.name = formulas.map Formula.name := by
  rw [← List.forall₂_eq_eq_eq, List.forall₂_map_left_iff, List.forall₂_map_right_iff]
  exact h.imp fun _ _ hwrites => hwrites.name

/-- The functions that the body of a function calls, by their numbers. -/
theorem Ready.mem_referencesOf_iff (h : Ready functions formulas resolved)
    (hwrites : List.Forall₂ Definition.Writes definitions formulas) (index next : Nat) :
    next ∈ Dependency.referencesOf (fun expr => (functions.names.calls expr).map Occurrence.id)
        definitions index ↔
      ∃ caller, formulas[index]? = some caller ∧
        ∃ function ∈ caller.body.callees, (formulas.map Formula.name)[next]? = some function := by
  unfold Dependency.referencesOf
  cases hformula : formulas[index]? with
  | none =>
      have hnone : definitions[index]? = none := by
        rwa [List.getElem?_eq_none_iff, hwrites.length_eq, ← List.getElem?_eq_none_iff]
      simp [hnone]
  | some formula =>
      obtain ⟨definition, hdefinition, hwrites⟩ := exists_of_forall₂_getElem? hwrites hformula
      simp only [hdefinition, hwrites.expr, Option.some.injEq, exists_eq_left']
      rw [Phrase.calls_text h, Phrase.mem_map_id_callsAt_iff h.names.nodup]

/-- In the beginning no function is resolved. -/
theorem Progress.init {names : Dictionary} (hnames : names.Holds (formulas.map Formula.name))
    (hcallable : Callable formulas) (scope : Scope)
    (hwrites : List.Forall₂ Definition.Writes definitions formulas) :
    Progress formulas [] [] (⟨names, [], scope, true⟩, definitions) where
  ready := by
    refine ⟨hnames, ?_, rfl, by simp, fun _ _ => rfl, fun _ hsome => by cases hsome⟩
    intro name hname
    obtain ⟨formula, hmem, rfl⟩ := List.mem_map.1 hname
    exact hcallable.name formula hmem
  explains := Formula.Resolved.nil formulas
  writes := fun index formula hget _ => exists_of_forall₂_getElem? hwrites hget
  mem_iff := by simp

theorem Progress.foldlM_resolveAt {references : Nat → List Nat} (hcallable : Callable formulas)
    (hreferences : ∀ index caller, formulas[index]? = some caller →
      ∀ function ∈ caller.body.callees, ∀ next,
        (formulas.map Formula.name)[next]? = some function → next ∈ references index)
    {list : List Nat} (h : Progress formulas resolved done state)
    (hlist : Dependency.InOrder references done list)
    (hlt : ∀ index ∈ list, index < formulas.length)
    (hstate : list.foldlM Functions.resolveAt state = .ok state') :
    ∃ resolved', Progress formulas resolved' (done ++ list) state' := by
  refine hlist.foldlM (p := fun done state => ∃ resolved, Progress formulas resolved done state)
    ?_ ⟨resolved, h⟩ hstate
  rintro index hindex done state state' hnew hrefs ⟨resolved, h⟩ hfirst
  have hget := List.getElem?_eq_getElem (hlt index hindex)
  -- the order puts every called function before this one
  refine ⟨_, h.resolveAt hcallable hget hnew ?_ hfirst⟩
  rintro callee ⟨-, hcallee, hcalled⟩
  obtain ⟨next, hnext⟩ := List.mem_iff_getElem?.1 (List.mem_map_of_mem hcallee)
  rw [h.mem_iff]
  exact ⟨next, hrefs next (hreferences index _ hget _ hcalled next hnext), hnext⟩

/-- When the functions of a model can be resolved, they all are ready in the end. -/
theorem ofDefinitions_spec {scope : Scope} (hcallable : Callable formulas)
    (hwrites : List.Forall₂ Definition.Writes definitions formulas)
    (hresult : ofDefinitions scope true definitions = .ok (functions, definitions')) :
    ∃ resolved, Ready functions formulas resolved ∧ Formula.Resolved formulas resolved ∧
      ∀ formula ∈ formulas, formula.name ∈ resolved.map Formula.name := by
  have hnames := map_name_of_writes hwrites
  have hwords : ∀ name ∈ definitions.map Definition.name, name ≠ [] ∧ Text.IsNameText name := by
    rw [hnames, List.forall_mem_map]
    exact fun formula hmem => (Text.isNameText_of_isIdentifier (hcallable.name formula hmem)).2
  obtain ⟨names, order, hholds, hinorder, hmem, hresult⟩ := ofDefinitions_order hwords hresult
  rw [← referencesOf_calls hholds fun name hname => (hwords name hname).2] at hinorder
  have hinit := Progress.init (hnames ▸ hholds) hcallable scope hwrites
  have hreferences := hinit.ready.mem_referencesOf_iff hwrites
  rw [hwrites.length_eq] at hmem
  obtain ⟨resolved, hprogress⟩ := hinit.foldlM_resolveAt hcallable
    (fun index caller hcaller function hfunction next hnext =>
      (hreferences index next).2 ⟨caller, hcaller, function, hfunction, hnext⟩)
    hinorder (fun index => (hmem index).1) hresult
  refine ⟨resolved, hprogress.ready, hprogress.explains, fun formula hformula => ?_⟩
  obtain ⟨index, hindex⟩ :=
    List.mem_iff_getElem?.1 (List.mem_map_of_mem (f := Formula.name) hformula)
  rw [hprogress.mem_iff]
  refine ⟨index, (hmem index).2 ?_, hindex⟩
  simpa using (List.getElem?_eq_some_iff.1 hindex).1

end Functions

end Inlining

end OdeModel
