import OdeModel.Proofs.Inlining.CallFree
import OdeModel.Proofs.Inlining.Resolving

/-!
# Replacing calls until none is left

When all calls of an expression are replaced, from the right, no call comes in with the
bodies, and none comes about where a body takes the place of a call. The functions are
resolved in their order of dependence, so this holds of their bodies first.
-/

namespace OdeModel

/-- What a definition keeps when its expression changes. -/
def Definition.head (definition : Definition) : Text × List Text :=
  (definition.name, definition.args)

namespace Inlining

open Text Dictionary

variable {passed : Bool} {words formals fewer : List Text}

/-- The template makes texts in which nothing is called out of such actual arguments, also
where the formal arguments of the functions have no special part. -/
def Template.StaysFree (passed : Bool) (words formals : List Text) (template : Template) : Prop :=
  ∀ fewer ⊆ formals, ∀ (parenthesize : Bool) (actuals : List Text),
    (∀ actual ∈ actuals, CallFree passed words fewer none actual) →
      CallFree passed words fewer none (template.instantiate parenthesize actuals)

namespace Functions

/-- In the bodies of the functions that are resolved nothing is called. -/
structure Clears (passed : Bool) (words formals : List Text) (functions : Functions) : Prop where
  holds : functions.names.Holds words
  isNameText : ∀ word ∈ words, IsNameText word
  staysFree : ∀ {id template}, functions.templates.lookup id = some template →
    template.StaysFree passed words formals

variable {functions : Functions}

theorem Clears.cons (h : functions.Clears passed words formals) (index : Nat)
    {template : Template} (htemplate : template.StaysFree passed words formals) :
    Clears passed words formals
      { functions with templates := (index, template) :: functions.templates } where
  holds := h.holds
  isNameText := h.isNameText
  staysFree := fun {id other} hother => by
    rw [lookup_cons_eq_ite] at hother
    split at hother
    next =>
      cases hother
      exact htemplate
    next => exact h.staysFree hother

/-- A call of a resolved function gives way to a text in which nothing is called, along
with all that follows it. -/
theorem Clears.replaceCall (h : functions.Clears passed words formals) (hfewer : fewer ⊆ formals)
    {before run rest : Text} {call : Occurrence}
    (hcall : occurrenceOf words (width before, run) = some call)
    (hresolved : (functions.templates.lookup call.id).isSome = true)
    (hprevious : before.getLast?.any isClosing = false)
    (hrest : CallFree passed words fewer (some '(') rest)
    {line : Nat} {locals : List Text} {result : Text}
    (hresult : functions.replaceCall line locals (before ++ run ++ '(' :: rest) call =
      .ok result) :
    ∃ new, result = before ++ new ∧ CallFree passed words fewer before.getLast? new := by
  obtain ⟨-, hplace, hstop⟩ := (occurrenceOf_eq_some_iff h.holds.nodup _ _).1 hcall
  rw [Prod.mk.injEq] at hplace
  obtain ⟨hstart, hkeyword⟩ := hplace
  rw [hstart, hkeyword, ← width_append] at hstop
  obtain ⟨template, htemplate⟩ := Option.isSome_iff_exists.1 hresolved
  unfold Functions.replaceCall at hresult
  rw [htemplate, hstop, hstart] at hresult
  dsimp only at hresult
  split at hresult
  next => contradiction
  next items close hsplit =>
    split at hresult
    next => contradiction
    next =>
      obtain ⟨-, -, hresult⟩ := bind_eq_ok_iff.1 hresult
      have htake : takeBytes (width before) (before ++ run ++ '(' :: rest) = before := by
        rw [List.append_assoc, takeBytes_width_append]
      rw [pure_eq_ok_iff, splice, htake, List.append_assoc] at hresult
      obtain ⟨hitems, hclose⟩ := splitList_pieces
        (fun c hc => by rw [beq_iff_eq] at hc; subst hc; decide) hsplit
      have hbody : CallFree passed words fewer none (template.instantiate
          functions.parenthesize (items.map Prod.snd)) := by
        apply h.staysFree htemplate fewer hfewer
        rw [List.forall_mem_map]
        exact fun item hitem => hrest.of_isPieceOf (hitems item hitem)
      have hnew := (hbody.wrap functions.parenthesize (width before == 0 &&
        close + 1 == width (before ++ run ++ '(' :: rest))).behind hprevious
      refine ⟨_, hresult.symm, ?_⟩
      rcases hclose with hend | ⟨inside, c, hc, hbehind⟩
      · rw [hend, List.append_nil]
        exact hnew
      · -- what follows the call follows a closing bracket
        rw [hbehind] at hrest
        exact hnew.append hc ((Throughout.append_cons_iff (isClosing_spec hc).2).1 hrest).2

/-- The first run of the rest of an expression is replaced when it is called; all that
follows is finished then. -/
theorem Clears.foldrM_run (h : functions.Clears passed words formals) (hfewer : fewer ⊆ formals)
    {line : Nat} {locals : List Text} {before run rest rest' result : Text} {c : Char}
    (hrun : IsNameText run) (hc : isNameChar c = false)
    (hfirst : Replaceable passed words fewer before.getLast? (run ++ [c]))
    (hresolved : ∀ call ∈ callsAmong words (before ++ run ++ c :: rest)
      (places (width before) run), (functions.templates.lookup call.id).isSome = true)
    (hrest : CallFree passed words fewer (some c) rest')
    (hresult : (callsAmong words (before ++ run ++ c :: rest)
      (places (width before) run)).foldrM
        (fun call expr => functions.replaceCall line locals expr call)
          (before ++ run ++ c :: rest') = .ok result) :
    ∃ new, result = before ++ new ∧ CallFree passed words fewer before.getLast? new := by
  -- a run that is not called stays
  have hstays : result = before ++ run ++ c :: rest' →
      (∀ site ∈ sites (run ++ [c]), site.run ∈ words → site.behind ≠ some '(') →
      ∃ new, result = before ++ new ∧ CallFree passed words fewer before.getLast? new := by
    rintro rfl huncalled
    refine ⟨run ++ c :: rest', by simp, (Throughout.append_cons_iff hc).2 ⟨?_, hrest⟩⟩
    refine ⟨fun site hmem => (hfirst.site site hmem).harmless ?_, hfirst.unopened⟩
    simpa [Site.within] using huncalled site hmem
  by_cases hne : run = []
  · subst hne
    exact hstays (pure_eq_ok_iff.1 hresult).symm (by simp [sites_cons hc])
  have hsites : sites (run ++ [c]) = [⟨none, run, some c⟩] := by
    rw [sites_concat hc, sites_of_isNameText hrun hne]
    rfl
  rw [hsites, List.forall_mem_singleton] at hstays
  rw [callsAmong_run words hrun hne, List.head?_cons] at hresult hresolved
  by_cases hopen : c = '('
  · subst hopen
    rw [if_pos rfl] at hresult hresolved
    cases hcall : occurrenceOf words (width before, run) with
    | none =>
        rw [hcall] at hresult
        refine hstays (pure_eq_ok_iff.1 hresult).symm fun hmem => ?_
        rw [occurrenceOf, Option.map_eq_none_iff, List.idxOf?_eq_none_iff] at hcall
        exact absurd hmem hcall
    | some call =>
        -- the name of a function stands behind no closing bracket
        have hword : run ∈ words := by
          by_contra hmem
          rw [occurrenceOf, List.idxOf?_eq_none_iff.2 hmem] at hcall
          contradiction
        have hsite := hfirst.site ⟨none, run, some '('⟩ (by rw [hsites]; simp)
        have hprevious : before.getLast?.any isClosing = false := by
          rw [Bool.eq_false_iff]
          exact fun hclosing => (hsite.detached hclosing).not_mem.1 hword
        rw [hcall] at hresult hresolved
        rw [Option.toList_some, List.foldrM_cons, List.foldrM_nil, pure_bind] at hresult
        exact h.replaceCall hfewer hcall (hresolved call (by simp)) hprevious hrest hresult
  · rw [if_neg (by simpa using hopen)] at hresult
    exact hstays (pure_eq_ok_iff.1 hresult).symm fun _ => by simpa using hopen

/-- Replacing the calls in the rest of an expression, from the right. -/
theorem Clears.foldrM_replaceCall (h : functions.Clears passed words formals)
    (hfewer : fewer ⊆ formals) {line : Nat} {locals : List Text} (before : Text)
    {s result : Text} (hs : Replaceable passed words fewer before.getLast? s)
    (hresolved : ∀ call ∈ callsAmong words (before ++ s) (places (width before) s),
      (functions.templates.lookup call.id).isSome = true)
    (hresult : (callsAmong words (before ++ s) (places (width before) s)).foldrM
      (fun call expr => functions.replaceCall line locals expr call) (before ++ s) =
        .ok result) :
    ∃ new, result = before ++ new ∧ CallFree passed words fewer before.getLast? new := by
  induction s using run_induction generalizing before result with
  | name run hrun =>
      by_cases hne : run = []
      · subst hne
        exact ⟨[], (pure_eq_ok_iff.1 hresult).symm, Throughout.nil _⟩
      · have hcalls := callsAmong_run words hrun hne before []
        rw [List.append_nil, if_neg (by simp)] at hcalls
        rw [hcalls] at hresult
        refine ⟨run, (pure_eq_ok_iff.1 hresult).symm, fun site hmem => ?_, hs.unopened⟩
        refine (hs.site site hmem).harmless fun _ => ?_
        rw [sites_of_isNameText hrun hne, List.mem_singleton] at hmem
        simp [hmem, Site.within]
  | cons run c rest hrun hc ih =>
      have hposition : width before + width run + c.utf8Size = width (before ++ run ++ [c]) := by
        simp [Nat.add_assoc]
      have hsplit : before ++ (run ++ c :: rest) = before ++ run ++ [c] ++ rest := by simp
      have hjoin : ∀ rest, before ++ run ++ [c] ++ rest = before ++ run ++ c :: rest := by simp
      have hlast : (before ++ run ++ [c]).getLast? = some c := by simp
      rw [places_run_append_cons _ hc hrun, hposition, hsplit, callsAmong_append,
        List.foldrM_append] at hresult
      rw [places_run_append_cons _ hc hrun, hposition, hsplit, callsAmong_append,
        List.forall_mem_append] at hresolved
      obtain ⟨hfirst, hlater⟩ := (Throughout.append_cons_iff hc).1 hs
      obtain ⟨middle, hright, hleft⟩ := bind_eq_ok_iff.1 hresult
      obtain ⟨rest', rfl, hrest⟩ := ih _ (by rwa [hlast]) hresolved.2 hright
      rw [hlast] at hrest
      rw [hjoin, hjoin] at hleft
      rw [hjoin] at hresolved
      exact h.foldrM_run hfewer hrun hc hfirst hresolved.1 hrest hleft

/-- When all called functions are resolved, replacing the calls of an expression leaves
none. -/
theorem Clears.replaceCalls (h : functions.Clears passed words formals)
    (hfewer : fewer ⊆ formals) {line : Nat} {locals : List Text} {expr result : Text}
    (hexpr : Replaceable passed words fewer none expr)
    (hresolved : ∀ call ∈ functions.names.calls expr,
      (functions.templates.lookup call.id).isSome = true)
    (hresult : functions.replaceCalls line locals expr = .ok result) :
    CallFree passed words fewer none result := by
  have hcalls := h.holds.calls_eq h.isNameText expr
  unfold Functions.replaceCalls at hresult
  rw [hcalls] at hresolved hresult
  obtain ⟨new, rfl, hfree⟩ := h.foldrM_replaceCall hfewer [] hexpr hresolved hresult
  exact hfree

/-! ### All functions -/

/-- What the functions of a model fulfil when their calls can all be replaced. -/
structure Clearable (passed : Bool) (formals : List Text) (definitions : List Definition) :
    Prop where
  name : ∀ definition ∈ definitions, definition.name ≠ [] ∧ IsNameText definition.name
  formal : ∀ definition ∈ definitions, ∀ formal ∈ definition.args,
    formal ≠ [] ∧ IsNameText formal
  args : ∀ definition ∈ definitions, definition.args ⊆ formals
  body : ∀ definition ∈ definitions,
    Replaceable passed (definitions.map Definition.name) formals none definition.expr

/-- The state after some functions have been resolved. -/
structure Cleared (passed : Bool) (formals : List Text) (definitions : List Definition)
    (done : List Nat) (state : Functions × List Definition) : Prop where
  clears : state.1.Clears passed (definitions.map Definition.name) formals
  resolved : ∀ index ∈ done, (state.1.templates.lookup index).isSome = true
  waiting : ∀ index, index ∉ done → state.2[index]? = definitions[index]?
  finished : ∀ index ∈ done, ∀ definition, state.2[index]? = some definition →
    CallFree passed (definitions.map Definition.name) formals none definition.expr ∧
      definition.args.Nodup
  heads : state.2.map Definition.head = definitions.map Definition.head

variable {definitions definitions' : List Definition} {done : List Nat}
  {state state' : Functions × List Definition}

/-- Putting an element where it stands already changes nothing. -/
theorem set_eq_self {α : Type} {l : List α} {i : Nat} {a : α} (h : l[i]? = some a) :
    l.set i a = l := by
  obtain ⟨hi, rfl⟩ := List.getElem?_eq_some_iff.1 h
  exact List.set_getElem_self hi

theorem Clearable.isNameText (h : Clearable passed formals definitions) :
    ∀ word ∈ definitions.map Definition.name, word ≠ [] ∧ IsNameText word := by
  rw [List.forall_mem_map]
  exact h.name

/-- A function that calls resolved functions only is resolved. -/
theorem Cleared.resolveAt (h : Cleared passed formals definitions done state)
    (hclearable : Clearable passed formals definitions) {index : Nat} {old : Definition}
    (hindex : definitions[index]? = some old) (hnew : index ∉ done)
    (hcallees : ∀ next ∈ calleesOf definitions index, next ∈ done)
    (hstate : Functions.resolveAt state index = .ok state') :
    Cleared passed formals definitions (done ++ [index]) state' := by
  have hmem := List.mem_of_getElem? hindex
  have hargs := hclearable.formal old hmem
  have hget : state.2[index]? = some old := (h.waiting index hnew).trans hindex
  obtain ⟨expr, template, hexpr, htemplate, rfl⟩ := (resolveAt_eq_ok_iff hget).1 hstate
  have hresolved : ∀ call ∈ state.1.names.calls old.expr,
      (state.1.templates.lookup call.id).isSome = true := by
    rw [h.clears.holds.calls_eq h.clears.isNameText]
    exact fun call hcall =>
      h.resolved call.id (hcallees _ (mem_calleesOf_iff.2 ⟨old, hindex, call, hcall, rfl⟩))
  have hfree := h.clears.replaceCalls (List.Subset.refl formals) (hclearable.body old hmem)
    hresolved hexpr
  constructor
  case clears =>
    exact h.clears.cons index fun fewer hfewer parenthesize actuals hactuals =>
      Template.callFree_instantiate htemplate hargs hfree (hclearable.args old hmem) hfewer
        parenthesize hactuals
  case resolved =>
    intro id hid
    dsimp only
    rw [lookup_cons_eq_ite]
    split
    next => rfl
    next hother =>
      rw [List.mem_append, List.mem_singleton] at hid
      exact h.resolved id (hid.resolve_right hother)
  case waiting =>
    intro id hid
    rw [List.mem_append, List.mem_singleton, not_or] at hid
    rw [List.getElem?_set_ne fun heq => hid.2 heq.symm]
    exact h.waiting id hid.1
  case finished =>
    intro id hid definition hdefinition
    by_cases hsame : id = index
    · subst hsame
      have hlt := (List.getElem?_eq_some_iff.1 hget).1
      rw [List.getElem?_set_self hlt, Option.some.injEq] at hdefinition
      subst hdefinition
      exact ⟨hfree, (Template.ofDefinition_spec htemplate hargs).1⟩
    · rw [List.mem_append, List.mem_singleton] at hid
      rw [List.getElem?_set_ne fun heq => hsame heq.symm] at hdefinition
      exact h.finished id (hid.resolve_right hsame) definition hdefinition
  case heads =>
    rw [← h.heads]
    dsimp only
    rw [List.map_set]
    exact set_eq_self (by rw [List.getElem?_map, hget]; rfl)

theorem Cleared.init {names' : Dictionary} (hclearable : Clearable passed formals definitions)
    (hnames : names'.Holds (definitions.map Definition.name)) (scope : Scope)
    (parenthesize : Bool) :
    Cleared passed formals definitions [] (⟨names', [], scope, parenthesize⟩, definitions) where
  clears := ⟨hnames, fun word hword => (hclearable.isNameText word hword).2,
    fun hnone => by cases hnone⟩
  resolved := by simp
  waiting := fun _ _ => rfl
  finished := by simp
  heads := rfl

theorem Cleared.foldlM_resolveAt (hclearable : Clearable passed formals definitions)
    {list : List Nat} (h : Cleared passed formals definitions done state)
    (hlist : Dependency.InOrder (calleesOf definitions) done list)
    (hlt : ∀ index ∈ list, index < definitions.length)
    (hstate : list.foldlM Functions.resolveAt state = .ok state') :
    Cleared passed formals definitions (done ++ list) state' := by
  refine hlist.foldlM (fun index hindex done state state' hnew hcallees h hfirst => ?_) h hstate
  exact h.resolveAt hclearable (List.getElem?_eq_getElem (hlt index hindex)) hnew hcallees hfirst

/-- When the functions of a model can be resolved, all of them are, and nothing is called in
their bodies in the end. -/
theorem ofDefinitions_cleared {scope : Scope} {parenthesize : Bool}
    (hclearable : Clearable passed formals definitions)
    (hresult : ofDefinitions scope parenthesize definitions = .ok (functions, definitions')) :
    functions.Clears passed (definitions.map Definition.name) formals ∧
      (∀ id < definitions.length, (functions.templates.lookup id).isSome = true) ∧
      definitions'.map Definition.head = definitions.map Definition.head ∧
      ∀ definition ∈ definitions',
        CallFree passed (definitions.map Definition.name) formals none definition.expr ∧
          definition.args.Nodup := by
  obtain ⟨names, order, hnames, hinorder, hmem, hresult⟩ :=
    ofDefinitions_order hclearable.isNameText hresult
  have hcleared := (Cleared.init hclearable hnames scope parenthesize).foldlM_resolveAt hclearable
    hinorder (fun index => (hmem index).1) hresult
  refine ⟨hcleared.clears, fun id hid => hcleared.resolved id ((hmem id).2 hid), hcleared.heads,
    fun definition hdefinition => ?_⟩
  obtain ⟨index, hget⟩ := List.mem_iff_getElem?.1 hdefinition
  have hlt : index < definitions.length := by
    rw [← List.length_map Definition.head, ← hcleared.heads, List.length_map]
    exact (List.getElem?_eq_some_iff.1 hget).1
  exact hcleared.finished index ((hmem index).2 hlt) definition hget

end Functions

end Inlining

end OdeModel
