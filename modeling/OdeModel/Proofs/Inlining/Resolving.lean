import OdeModel.Proofs.Inlining.Functions

/-!
# Resolving one function after the other

What one step of the resolution does to the functions and their definitions, and where a
run of such steps stands.
-/

namespace OdeModel

namespace Inlining

namespace Functions

variable {definitions : List Definition} {start : Functions} {done : List Nat}
  {state state' : Functions × List Definition} {index : Nat} {old : Definition}

/-- A function is resolved when its calls can be replaced and its formal arguments differ. -/
theorem resolveAt_eq_ok_iff (hget : state.2[index]? = some old) :
    resolveAt state index = .ok state' ↔ ∃ expr template,
      state.1.replaceCalls old.line old.args old.expr = .ok expr ∧
      Template.ofDefinition { old with expr } = .ok template ∧
      state' = ({ state.1 with templates := (index, template) :: state.1.templates },
        state.2.set index { old with expr }) := by
  unfold resolveAt
  simp only [hget, bind_eq_ok_iff, mapError_eq_ok_iff, pure_eq_ok_iff]
  constructor
  · rintro ⟨expr, hexpr, template, htemplate, rfl⟩
    exact ⟨expr, template, hexpr, htemplate, rfl⟩
  · rintro ⟨expr, template, hexpr, htemplate, rfl⟩
    exact ⟨expr, hexpr, template, htemplate, rfl⟩

/-- The state after the functions of some numbers have been resolved: just these have
templates, and all others stand as they did. -/
structure Reached (start : Functions) (definitions : List Definition) (done : List Nat)
    (state : Functions × List Definition) : Prop where
  same : { state.1 with templates := start.templates } = start
  resolved : ∀ id, (state.1.templates.lookup id).isSome = true ↔ id ∈ done
  waiting : ∀ id, id ∉ done → state.2[id]? = definitions[id]?

theorem Reached.init (hstart : start.templates = []) (definitions : List Definition) :
    Reached start definitions [] (start, definitions) where
  same := rfl
  resolved := by simp [hstart]
  waiting := fun _ _ => rfl

theorem Reached.names_eq (h : Reached start definitions done state) :
    state.1.names = start.names := by
  simpa using congrArg names h.same

theorem Reached.scope_eq (h : Reached start definitions done state) :
    state.1.scope = start.scope := by
  simpa using congrArg Functions.scope h.same

theorem Reached.parenthesize_eq (h : Reached start definitions done state) :
    state.1.parenthesize = start.parenthesize := by
  simpa using congrArg Functions.parenthesize h.same

/-- Resolving one more function. -/
theorem Reached.resolveAt (h : Reached start definitions done state)
    (hindex : definitions[index]? = some old) (hnew : index ∉ done)
    (hstate : Functions.resolveAt state index = .ok state') :
    Reached start definitions (done ++ [index]) state' ∧ ∃ expr template,
      state.1.replaceCalls old.line old.args old.expr = .ok expr ∧
      Template.ofDefinition { old with expr } = .ok template ∧
      state' = ({ state.1 with templates := (index, template) :: state.1.templates },
        state.2.set index { old with expr }) := by
  obtain ⟨expr, template, hexpr, htemplate, rfl⟩ :=
    (resolveAt_eq_ok_iff ((h.waiting index hnew).trans hindex)).1 hstate
  refine ⟨⟨h.same, fun id => ?_, fun id hid => ?_⟩, expr, template, hexpr, htemplate, rfl⟩
  · rw [lookup_cons_eq_ite, List.mem_append, List.mem_singleton]
    split
    next hsame => simp [hsame]
    next hother => simp [h.resolved, hother]
  · rw [List.mem_append, List.mem_singleton, not_or] at hid
    rw [List.getElem?_set_ne fun heq => hid.2 heq.symm]
    exact h.waiting id hid.1

/-- The functions that are called in the body of a function are resolved when its turn
comes. -/
theorem Reached.isSome_of_mem_calls (h : Reached start definitions done state)
    (hnames : start.names.Holds (definitions.map Definition.name))
    (hwords : ∀ name ∈ definitions.map Definition.name, Text.IsNameText name)
    (hindex : definitions[index]? = some old)
    (hcallees : ∀ next ∈ calleesOf definitions index, next ∈ done) :
    ∀ call ∈ state.1.names.calls old.expr, (state.1.templates.lookup call.id).isSome = true := by
  rw [h.names_eq, hnames.calls_eq hwords]
  exact fun call hcall =>
    (h.resolved call.id).2 (hcallees _ (mem_calleesOf_iff.2 ⟨old, hindex, call, hcall, rfl⟩))

end Functions

end Inlining

end OdeModel
