import OdeModel.Proofs.Inlining.Completeness
import OdeModel.Proofs.Inlining.Reordering
import OdeModel.Proofs.Inlining.Resolving

/-!
# Functions in another order

A function has another number when the functions stand in another order, and they may be
resolved in another order then. In the end each function is explained by the others, and
that alone tells what becomes of a text, so nothing but the numbers changes.
-/

namespace OdeModel

/-- The same occurrence under the number that its word had elsewhere. -/
def Occurrence.renumber (places : Equiv.Perm Nat) (found : Occurrence) : Occurrence :=
  { found with id := places found.id }

namespace Dictionary

variable {places : Equiv.Perm Nat} {words words' : List Text}

theorem idxOf?_reorders (hnodup : words.Nodup) (h : Reorders places words words') (word : Text) :
    words.idxOf? word = (words'.idxOf? word).map places := by
  cases hindex : words'.idxOf? word with
  | none =>
      rw [List.idxOf?_eq_none_iff, h.mem_iff, ← List.idxOf?_eq_none_iff] at hindex
      exact hindex
  | some index =>
      rw [idxOf?_eq_some_iff_of_nodup (h.nodup hnodup), h] at hindex
      exact (idxOf?_eq_some_iff_of_nodup hnodup _ _).2 hindex

/-- The calls are found at the same places, under other numbers. -/
theorem callsAmong_reorders (hnodup : words.Nodup) (h : Reorders places words words')
    (whole : Text) (positions : List (Nat × Text)) :
    callsAmong words whole positions =
      (callsAmong words' whole positions).map (Occurrence.renumber places) := by
  have hoccurrence : occurrenceOf words =
      fun place => (occurrenceOf words' place).map (Occurrence.renumber places) := by
    funext place
    rw [occurrenceOf, idxOf?_reorders hnodup h, occurrenceOf, Option.map_map, Option.map_map]
    rfl
  rw [callsAmong, callsAmong, hoccurrence, ← List.map_filterMap, List.filter_map]
  rfl

end Dictionary

namespace Inlining

open Dictionary Text

namespace Functions

/-! ### One text -/

section Texts

variable {places : Equiv.Perm Nat} {words words' : List Text} {functions functions' : Functions}
  {line : Nat} {locals : List Text} {text : Text}

theorem checkActuals_congr (hscope : functions'.scope = functions.scope)
    (actuals : List (Nat × Text)) :
    functions'.checkActuals line locals text actuals =
      functions.checkActuals line locals text actuals := by
  induction actuals with
  | nil => rfl
  | cons actual later ih => simp only [checkActuals, unknownOperand?, hscope, ih]

/-- A call is replaced in the same way under another number. -/
theorem replaceCall_renumber {call : Occurrence} (hscope : functions'.scope = functions.scope)
    (hparenthesize : functions'.parenthesize = functions.parenthesize)
    (htemplate : functions'.templates.lookup call.id =
      functions.templates.lookup (places call.id)) :
    functions'.replaceCall line locals text call =
      functions.replaceCall line locals text (call.renumber places) := by
  simp only [replaceCall, Occurrence.renumber, htemplate, hparenthesize, checkActuals_congr hscope]

/-- The functions have the words as their names and agree in all else that tells how a call
is replaced. -/
structure Alike (places : Equiv.Perm Nat) (words words' : List Text)
    (functions functions' : Functions) : Prop where
  holds : functions.names.Holds words
  holds' : functions'.names.Holds words'
  isNameText : ∀ word ∈ words, IsNameText word
  reorders : Reorders places words words'
  scope : functions'.scope = functions.scope
  parenthesize : functions'.parenthesize = functions.parenthesize

/-- The calls of a text are replaced in the same way when those functions that it calls have
the same templates. -/
theorem Alike.replaceCalls_eq (h : Alike places words words' functions functions')
    (htemplates : ∀ call ∈ callsAmong words' text (Text.places 0 text),
      functions'.templates.lookup call.id = functions.templates.lookup (places call.id)) :
    functions'.replaceCalls line locals text = functions.replaceCalls line locals text := by
  have hnames' : ∀ word ∈ words', IsNameText word := fun word hword =>
    h.isNameText word (h.reorders.mem_iff.1 hword)
  unfold replaceCalls
  rw [h.holds.calls_eq h.isNameText, h.holds'.calls_eq hnames',
    callsAmong_reorders h.holds.nodup h.reorders, List.foldrM_map]
  exact foldrM_congr fun call hcall expr =>
    replaceCall_renumber h.scope h.parenthesize (htemplates call hcall)

end Texts

/-! ### The run over the functions -/

/-- The functions explain a definition by a new one: its calls are replaced, and its template
is that of the new one. -/
def Explains (functions : Functions) (index : Nat) (old new : Definition) : Prop :=
  ∃ expr template, functions.replaceCalls old.line old.args old.expr = .ok expr ∧
    new = { old with expr } ∧ Template.ofDefinition new = .ok template ∧
    functions.templates.lookup index = some template

/-- The state after some functions have been resolved: those that they call are among them,
and each of them is explained by the functions as they are now. -/
structure Explained (start : Functions) (definitions : List Definition) (done : List Nat)
    (state : Functions × List Definition) : Prop where
  reached : Reached start definitions done state
  closed : ∀ index ∈ done, ∀ next ∈ calleesOf definitions index, next ∈ done
  explains : ∀ index ∈ done, ∀ old, definitions[index]? = some old →
    ∃ new, state.2[index]? = some new ∧ state.1.Explains index old new

section Run

variable {start : Functions} {definitions : List Definition} {done : List Nat}
  {state state' : Functions × List Definition} {index : Nat} {old new : Definition}

/-- A template more changes nothing for a function that does not call its function. -/
theorem replaceCalls_cons {functions : Functions}
    (hholds : functions.names.Holds (definitions.map Definition.name))
    (hwords : ∀ name ∈ definitions.map Definition.name, IsNameText name)
    (hindex : definitions[index]? = some old) {id : Nat}
    (hcallees : id ∉ calleesOf definitions index) (template : Template) :
    replaceCalls { functions with templates := (id, template) :: functions.templates }
        old.line old.args old.expr =
      functions.replaceCalls old.line old.args old.expr := by
  have halike : Alike (Equiv.refl Nat) (definitions.map Definition.name)
      (definitions.map Definition.name) functions
      { functions with templates := (id, template) :: functions.templates } :=
    ⟨hholds, hholds, hwords, fun _ => rfl, rfl, rfl⟩
  refine halike.replaceCalls_eq fun call hcall => ?_
  dsimp only
  rw [lookup_cons_eq_ite, if_neg, Equiv.refl_apply]
  rintro rfl
  exact hcallees (mem_calleesOf_iff.2 ⟨old, hindex, call, hcall, rfl⟩)

/-- A function that calls resolved functions only is explained by them. -/
theorem Explained.resolveAt (h : Explained start definitions done state)
    (hholds : start.names.Holds (definitions.map Definition.name))
    (hwords : ∀ name ∈ definitions.map Definition.name, IsNameText name)
    (hindex : definitions[index]? = some old) (hnew : index ∉ done)
    (hcallees : ∀ next ∈ calleesOf definitions index, next ∈ done)
    (hstate : Functions.resolveAt state index = .ok state') :
    Explained start definitions (done ++ [index]) state' := by
  have hlt := (List.getElem?_eq_some_iff.1 ((h.reached.waiting index hnew).trans hindex)).1
  obtain ⟨hreached, expr, template, hexpr, htemplate, rfl⟩ :=
    h.reached.resolveAt hindex hnew hstate
  have hholds' : state.1.names.Holds (definitions.map Definition.name) :=
    h.reached.names_eq.symm ▸ hholds
  constructor
  case reached => exact hreached
  case closed =>
    intro id hid next hnext
    rw [List.mem_append, List.mem_singleton] at hid
    rcases hid with hid | rfl
    · exact List.mem_append_left _ (h.closed id hid next hnext)
    · exact List.mem_append_left _ (hcallees next hnext)
  case explains =>
    intro id hid earlier hearlier
    by_cases hsame : id = index
    · subst hsame
      cases hindex.symm.trans hearlier
      refine ⟨_, List.getElem?_set_self hlt, expr, template, ?_, rfl, htemplate, ?_⟩
      · exact (replaceCalls_cons hholds' hwords hindex (fun hmem => hnew (hcallees _ hmem)) _).trans
          hexpr
      · dsimp only
        rw [lookup_cons_eq_ite, if_pos rfl]
    · rw [List.mem_append, List.mem_singleton] at hid
      have hid := hid.resolve_right hsame
      obtain ⟨new, hget, expr, own, hexpr, hown⟩ := h.explains id hid earlier hearlier
      refine ⟨new, by rw [List.getElem?_set_ne (Ne.symm hsame), hget], expr, own, ?_, ?_⟩
      · exact (replaceCalls_cons hholds' hwords hearlier
          (fun hmem => hnew (h.closed id hid _ hmem)) _).trans hexpr
      · dsimp only
        rw [lookup_cons_eq_ite, if_neg hsame]
        exact hown

/-- Functions that have been resolved are explained by each other. -/
theorem explained_of_ofDefinitions {scope : Scope} {parenthesize : Bool}
    {functions : Functions} {definitions' : List Definition}
    (hwords : ∀ name ∈ definitions.map Definition.name, name ≠ [] ∧ IsNameText name)
    (h : ofDefinitions scope parenthesize definitions = .ok (functions, definitions')) :
    ∃ (names : Dictionary) (order : List Nat), names.Holds (definitions.map Definition.name) ∧
      Dependency.InOrder (calleesOf definitions) [] order ∧
      (∀ index, index ∈ order ↔ index < definitions.length) ∧
      Explained ⟨names, [], scope, parenthesize⟩ definitions order (functions, definitions') := by
  obtain ⟨names, order, hholds, hinorder, hmem, hrun⟩ := ofDefinitions_order hwords h
  refine ⟨names, order, hholds, hinorder, hmem, ?_⟩
  refine hinorder.foldlM (p := Explained ⟨names, [], scope, parenthesize⟩ definitions)
    (fun index hindex done state state' hnew hcallees h hstate => ?_)
    ⟨Reached.init rfl definitions, by simp, by simp⟩ hrun
  exact h.resolveAt hholds (fun name hname => (hwords name hname).2)
    (List.getElem?_eq_getElem ((hmem index).1 hindex)) hnew hcallees hstate

/-! ### The run in another order -/

variable {places : Equiv.Perm Nat} {definitions' : List Definition}

theorem mem_calleesOf_reorders (hnodup : (definitions.map Definition.name).Nodup)
    (h : Reorders places definitions definitions') {next : Nat}
    (hnext : next ∈ calleesOf definitions' index) :
    places next ∈ calleesOf definitions (places index) := by
  obtain ⟨definition, hindex, call, hcall, rfl⟩ := mem_calleesOf_iff.1 hnext
  refine mem_calleesOf_iff.2 ⟨definition, (h index).symm.trans hindex,
    call.renumber places, ?_, rfl⟩
  rw [callsAmong_reorders hnodup (h.map Definition.name)]
  exact List.mem_map_of_mem hcall

/-- The functions have an order of dependence when they have one in another order. -/
theorem exists_order_of_reorders (h : Reorders places definitions definitions')
    (hwords : ∀ name ∈ definitions.map Definition.name, name ≠ [] ∧ IsNameText name)
    {names' : Dictionary} (hnodup : (definitions.map Definition.name).Nodup)
    (hholds' : names'.Holds (definitions'.map Definition.name)) {order : List Nat}
    (hinorder : Dependency.InOrder (calleesOf definitions) [] order)
    (hmem : ∀ index, index ∈ order ↔ index < definitions.length) :
    ∃ order', Dependency.ofDefinitions
      (fun expr => (names'.calls expr).map Occurrence.id) definitions' = .ok order' := by
  have hwords' : ∀ name ∈ definitions'.map Definition.name, IsNameText name := fun name hname =>
    (hwords name ((h.map _).mem_iff.1 hname)).2
  have hvalid : ∀ index, ∀ next ∈ calleesOf definitions' index, next < definitions'.length :=
    fun _ _ => lt_of_mem_calleesOf
  have hspec := Dependency.order_spec hvalid
  rw [Dependency.ofDefinitions_eq, referencesOf_calls hholds' hwords']
  cases horder : Dependency.order (calleesOf definitions') definitions'.length with
  | ok order' => exact ⟨order', rfl⟩
  | error culprit =>
      rw [horder] at hspec
      have hcircle : Relation.TransGen (Dependency.Refers (calleesOf definitions))
          (places culprit) (places culprit) :=
        Relation.TransGen.lift places (fun _ _ => mem_calleesOf_reorders hnodup h) _ _ hspec.2
      exact absurd hcircle
        (hinorder.not_transGen_self ((hmem _).2 (h.lt_length_iff.2 hspec.1)))

/-- The state of a run in another order: the resolved functions have the templates and the
definitions that they have at the end of the first run. -/
structure Follows (places : Equiv.Perm Nat) (result : Functions × List Definition)
    (start : Functions) (definitions : List Definition) (done : List Nat)
    (state : Functions × List Definition) : Prop where
  reached : Reached start definitions done state
  template : ∀ id ∈ done, state.1.templates.lookup id = result.1.templates.lookup (places id)
  definition : ∀ id ∈ done, state.2[id]? = result.2[places id]?

/-- The run in another order goes on as long as the first one did. -/
theorem Follows.exists_resolveAt {result : Functions × List Definition} {start' : Functions}
    (h : Follows places result start' definitions' done state)
    (hreorders : Reorders places definitions definitions')
    (halike : Alike places (definitions.map Definition.name) (definitions'.map Definition.name)
      result.1 start') {order : List Nat} (hexplained : Explained start definitions order result)
    (hlisted : ∀ index, index ∈ order ↔ index < definitions.length)
    (hindex : definitions'[index]? = some old) (hnew : index ∉ done)
    (hcallees : ∀ next ∈ calleesOf definitions' index, next ∈ done) :
    ∃ state', Functions.resolveAt state index = .ok state' ∧
      Follows places result start' definitions' (done ++ [index]) state' := by
  have hget : state.2[index]? = some old := (h.reached.waiting index hnew).trans hindex
  have hold : definitions[places index]? = some old := (hreorders index).symm.trans hindex
  obtain ⟨new, hresult, expr, template, hexpr, rfl, htemplate, hlookup⟩ :=
    hexplained.explains (places index)
      ((hlisted _).2 (List.getElem?_eq_some_iff.1 hold).1) old hold
  have halike' : Alike places (definitions.map Definition.name) (definitions'.map Definition.name)
      result.1 state.1 :=
    ⟨halike.holds, h.reached.names_eq.symm ▸ halike.holds', halike.isNameText, halike.reorders,
      h.reached.scope_eq.trans halike.scope, h.reached.parenthesize_eq.trans halike.parenthesize⟩
  have hexpr' : state.1.replaceCalls old.line old.args old.expr = .ok expr := by
    rw [halike'.replaceCalls_eq fun call hcall => ?_, hexpr]
    exact h.template call.id
      (hcallees _ (mem_calleesOf_iff.2 ⟨old, hindex, call, hcall, rfl⟩))
  have hstep := (resolveAt_eq_ok_iff hget).2
    ⟨expr, template, hexpr', htemplate, rfl⟩
  refine ⟨_, hstep, (h.reached.resolveAt hindex hnew hstep).1, fun id hid => ?_, fun id hid => ?_⟩
  · dsimp only
    rw [lookup_cons_eq_ite]
    split
    next hsame => rw [hsame, hlookup]
    next hother =>
      rw [List.mem_append, List.mem_singleton] at hid
      exact h.template id (hid.resolve_right hother)
  · by_cases hsame : id = index
    · subst hsame
      rw [List.getElem?_set_self (List.getElem?_eq_some_iff.1 hget).1, hresult]
    · rw [List.mem_append, List.mem_singleton] at hid
      rw [List.getElem?_set_ne (Ne.symm hsame)]
      exact h.definition id (hid.resolve_right hsame)

/-- Functions that can be resolved can be resolved in another order, and replace the calls of
every text in the same way. -/
theorem ofDefinitions_reorders {scope : Scope} {parenthesize : Bool}
    {functions : Functions} {resolved : List Definition}
    (hwords : ∀ name ∈ definitions.map Definition.name, name ≠ [] ∧ IsNameText name)
    (h : Reorders places definitions definitions')
    (hresult : ofDefinitions scope parenthesize definitions = .ok (functions, resolved)) :
    ∃ functions' resolved',
      ofDefinitions scope parenthesize definitions' = .ok (functions', resolved') ∧
      Reorders places resolved resolved' ∧
      ∀ line locals text, functions'.replaceCalls line locals text =
        functions.replaceCalls line locals text := by
  obtain ⟨names, order, hholds, hinorder, hmem, hexplained⟩ :=
    explained_of_ofDefinitions hwords hresult
  have hreorders := h.map Definition.name
  have hwords' : ∀ name ∈ definitions'.map Definition.name, name ≠ [] ∧ IsNameText name :=
    fun name hname => hwords name (hreorders.mem_iff.1 hname)
  have hspec := Dictionary.ofKeywords_spec fun name hname => (hwords' name hname).1
  obtain ⟨names', hnames'⟩ := hspec.1.2 (hreorders.nodup hholds.nodup)
  have hholds' := hspec.2 names' hnames'
  obtain ⟨order', horder'⟩ :=
    exists_order_of_reorders h hwords hholds.nodup hholds' hinorder hmem
  obtain ⟨hinorder', hmem'⟩ :=
    inOrder_of_ofDefinitions hholds' (fun name hname => (hwords' name hname).2) horder'
  have hfinal := hexplained.reached
  have halike : Alike places (definitions.map Definition.name) (definitions'.map Definition.name)
      functions ⟨names', [], scope, parenthesize⟩ :=
    ⟨hfinal.names_eq.symm ▸ hholds, hholds', fun name hname => (hwords name hname).2, hreorders,
      hfinal.scope_eq.symm, hfinal.parenthesize_eq.symm⟩
  obtain ⟨⟨functions', resolved'⟩, hrun, hfollows⟩ := hinorder'.exists_foldlM
    (p := Follows places (functions, resolved) ⟨names', [], scope, parenthesize⟩ definitions')
    (fun index hindex done state hnew hcallees hstate => hstate.exists_resolveAt h halike
      hexplained hmem (List.getElem?_eq_getElem ((hmem' index).1 hindex)) hnew hcallees)
    ⟨Reached.init rfl definitions', by simp, by simp⟩
  rw [List.nil_append] at hfollows
  refine ⟨functions', resolved', ?_, fun place => ?_, fun line locals text => ?_⟩
  · exact bind_eq_ok_iff.2 ⟨names', mapError_eq_ok_iff.2 hnames',
      bind_eq_ok_iff.2 ⟨order', horder', hrun⟩⟩
  · by_cases hplace : place ∈ order'
    · exact hfollows.definition place hplace
    · have hplace' : places place ∉ order := by
        rw [hmem, h.lt_length_iff, ← hmem']
        exact hplace
      exact (hfollows.reached.waiting place hplace).trans
        ((h place).trans (hfinal.waiting _ hplace').symm)
  · have halike' : Alike places (definitions.map Definition.name)
        (definitions'.map Definition.name) functions functions' :=
      ⟨halike.holds, hfollows.reached.names_eq.symm ▸ hholds', halike.isNameText, hreorders,
        hfollows.reached.scope_eq.trans halike.scope,
        hfollows.reached.parenthesize_eq.trans halike.parenthesize⟩
    refine halike'.replaceCalls_eq fun call hcall => hfollows.template call.id ?_
    have hlt := Dictionary.id_lt_of_mem_callsAmong hcall
    rw [List.length_map] at hlt
    exact (hmem' call.id).2 hlt

end Run

end Functions

end Inlining

namespace SymbolTable

open Inlining

variable {places : Category → Equiv.Perm Nat} {table table' : SymbolTable} {scope : Scope}
  {parenthesize : Bool}

/-- Inlining the functions keeps the order of the definitions. -/
theorem inlineFunctions_reorders (h : table.Reorders places table') (hformals : table.HasFormals)
    {result : SymbolTable} (hresult : table.inlineFunctions scope parenthesize = .ok result) :
    ∃ result', table'.inlineFunctions scope parenthesize = .ok result' ∧
      result.Reorders places result' := by
  by_cases hempty : table.get .functions = []
  · have hempty' := (h .functions).eq_nil_iff.2 hempty
    rw [inlineFunctions, if_pos (by simp [hempty])] at hresult
    cases hresult
    exact ⟨table', by rw [inlineFunctions, if_pos (by simp [hempty'])], h⟩
  · have hempty' := fun heq => hempty ((h .functions).eq_nil_iff.1 heq)
    obtain ⟨functions, hinlines⟩ := inlinesCalls_of_inlineFunctions hempty hresult
    obtain ⟨functions', resolved', hof', hresolved, hcalls⟩ := Functions.ofDefinitions_reorders
      (List.forall_mem_map.2 hformals.name) (h .functions) hinlines.resolved
    have hreplaceIn : functions'.replaceIn = functions.replaceIn := by
      funext definition
      simp only [Functions.replaceIn, hcalls]
    have hreplaceInArgs : functions'.replaceInArgs = functions.replaceInArgs := by
      funext definition
      have hline : functions'.replaceCalls definition.line [] =
          functions.replaceCalls definition.line [] := funext (hcalls _ _)
      simp only [Functions.replaceInArgs, hline]
    have hlater : ∀ target ∈ laterThan .functions, ∃ changed,
        (table'.get target).mapM functions'.replaceIn = .ok changed ∧
          OdeModel.Reorders (places target) (result.get target) changed := by
      rw [hreplaceIn]
      exact fun target htarget => (h target).exists_mapM (hinlines.later target htarget)
    obtain ⟨entries, hentries, hmarkovs⟩ := (h .markovs).exists_mapM hinlines.markovs
    rw [← hreplaceInArgs] at hentries
    obtain ⟨result', hresult', hinlines'⟩ := exists_inlineFunctions hempty' hof'
      (fun target htarget => (hlater target htarget).imp fun _ => And.left) ⟨entries, hentries⟩
    refine ⟨result', hresult', fun category => ?_⟩
    by_cases hmem : category ∈ .functions :: callTargets
    · simp only [callTargets, List.mem_cons] at hmem
      rcases hmem with rfl | rfl | hmem
      · have hsame := Except.ok.inj (hof'.symm.trans hinlines'.resolved)
        rwa [← (Prod.mk.inj hsame).2]
      · rwa [← Except.ok.inj (hentries.symm.trans hinlines'.markovs)]
      · obtain ⟨changed, hchanged, hreorders⟩ := hlater category hmem
        rwa [← Except.ok.inj (hchanged.symm.trans (hinlines'.later category hmem))]
    · rw [hinlines.other category hmem, hinlines'.other category hmem]
      exact h category

/-- The expansion keeps the order of the definitions. -/
theorem exists_expand_of_reorders (h : table.Reorders places table') (hnames : HasNames table)
    (hformals : table.HasFormals) {result : SymbolTable}
    (hresult : table.expand scope parenthesize = .ok result) :
    ∃ result', table'.expand scope parenthesize = .ok result' ∧
      result.Reorders places result' := by
  obtain ⟨named, hnamed, hresult⟩ := bind_eq_ok_iff.1 hresult
  obtain ⟨named', hnamed', hreorders⟩ :=
    foldlM_inlineCategory_reorders (fun _ hsource => hsource) h hnames hnamed
  obtain ⟨result', hresult', hreorders'⟩ :=
    inlineFunctions_reorders hreorders (hformals.inlineNames hnames hnamed) hresult
  exact ⟨result', bind_eq_ok_iff.2 ⟨named', hnamed', hresult'⟩, hreorders'⟩

theorem HasFormals.reorders (hformals : table.HasFormals) (h : table.Reorders places table') :
    table'.HasFormals where
  name := fun definition hmem => hformals.name definition ((h .functions).mem_iff.1 hmem)
  formal := fun definition hmem => hformals.formal definition ((h .functions).mem_iff.1 hmem)

/-- The expansion does not depend on the order of the definitions. When the definitions of a
model that has been read stand in another order, each category in its own, the expansion
succeeds if and only if it does for the model, and the results stand in the same order to
each other as the definitions did, definition by definition. -/
theorem expand_reorders {settings : Settings} {files : FileReader} {name input : Text}
    {draft : Draft} (hdraft : Draft.ofInput settings files name input = .ok draft)
    (h : draft.symbols.Reorders places table') (parenthesize : Bool) :
    ((∃ result, draft.symbols.expand draft.scope parenthesize = .ok result) ↔
      ∃ result', table'.expand draft.scope parenthesize = .ok result') ∧
    ∀ result result', draft.symbols.expand draft.scope parenthesize = .ok result →
      table'.expand draft.scope parenthesize = .ok result' → result.Reorders places result' := by
  have hnames := hasNames_of_ofInput hdraft
  have hformals := hasFormals_of_ofInput hdraft
  refine ⟨⟨?_, ?_⟩, fun result result' hresult hresult' => ?_⟩
  · rintro ⟨result, hresult⟩
    obtain ⟨result', hresult', -⟩ := exists_expand_of_reorders h hnames hformals hresult
    exact ⟨result', hresult'⟩
  · rintro ⟨result', hresult'⟩
    obtain ⟨result, hresult, -⟩ := exists_expand_of_reorders h.symm (hnames.reorders h)
      (hformals.reorders h) hresult'
    exact ⟨result, hresult⟩
  · obtain ⟨other, hother, hreorders⟩ := exists_expand_of_reorders h hnames hformals hresult
    cases hother.symm.trans hresult'
    exact hreorders

theorem reorders_swap {α : Type} (first second : α) :
    OdeModel.Reorders (Equiv.swap 0 1) [first, second] [second, first]
  | 0 => by rw [Equiv.swap_apply_left]; rfl
  | 1 => by rw [Equiv.swap_apply_right]; rfl
  | place + 2 => by rw [Equiv.swap_apply_of_ne_of_ne (by omega) (by omega)]; rfl

/-- The first two constants and the first two functions change places. -/
def firstSwapped (category : Category) : Equiv.Perm Nat :=
  if category ∈ [.constants, .functions] then Equiv.swap 0 1 else Equiv.refl Nat

/-- Two constants and two functions change places; in both categories the first definition
refers to the second one then. -/
theorem expand_reorders_swapped :
    ∃ draft table' result result', Draft.ofInput { } (fun _ => .error .notFound) "m".toList
        "!k=3\n!c=2*k\ng(v)=v^k\nf(u,w)=g(u)+c*w\nx'=f(g(x),3)".toList = .ok draft ∧
      draft.symbols.Reorders firstSwapped table' ∧
      draft.symbols.expand draft.scope true = .ok result ∧
      table'.expand draft.scope true = .ok result' ∧
      result.Reorders firstSwapped result' ∧
      (result'.get .functions).map Definition.expr = ["(u^3)+(2*3)*w", "v^3"].map String.toList ∧
      (result'.get .equations).map Definition.expr = ["((x^3)^3)+(2*3)*3".toList] := by
  have hrun : (do
      let draft ← Draft.ofInput { } (fun _ => .error .notFound) "m".toList
        "!k=3\n!c=2*k\ng(v)=v^k\nf(u,w)=g(u)+c*w\nx'=f(g(x),3)".toList
      let result ← draft.symbols.expand draft.scope true
      let result' ← ((draft.symbols.set .constants (draft.symbols.get .constants).reverse).set
        .functions (draft.symbols.get .functions).reverse).expand draft.scope true
      return (draft.symbols.get .constants, draft.symbols.get .functions,
        (result'.get .functions).map Definition.expr,
        (result'.get .equations).map Definition.expr)) =
        .ok ([⟨1, ['k'], ['3'], []⟩, ⟨2, ['c'], "2*k".toList, []⟩],
          [⟨3, ['g'], "v^k".toList, [['v']]⟩, ⟨4, ['f'], "g(u)+c*w".toList, [['u'], ['w']]⟩],
          ["(u^3)+(2*3)*w", "v^3"].map String.toList, ["((x^3)^3)+(2*3)*3".toList]) := by
    decide +kernel
  obtain ⟨draft, hdraft, hrun⟩ := bind_eq_ok_iff.1 hrun
  obtain ⟨result, hresult, hrun⟩ := bind_eq_ok_iff.1 hrun
  obtain ⟨result', hresult', hrun⟩ := bind_eq_ok_iff.1 hrun
  obtain ⟨hconstants, hrun⟩ := Prod.mk.inj (pure_eq_ok_iff.1 hrun)
  obtain ⟨hfunctions, hrun⟩ := Prod.mk.inj hrun
  obtain ⟨hbodies, hequations⟩ := Prod.mk.inj hrun
  have hreorders : draft.symbols.Reorders firstSwapped
      ((draft.symbols.set .constants (draft.symbols.get .constants).reverse).set
        .functions (draft.symbols.get .functions).reverse) := by
    intro category
    by_cases hfunction : category = .functions
    · subst hfunction
      rw [firstSwapped, if_pos (by decide), get_set_self, hfunctions]
      exact reorders_swap _ _
    rw [get_set_of_ne _ _ hfunction]
    by_cases hconstant : category = .constants
    · subst hconstant
      rw [firstSwapped, if_pos (by decide), get_set_self, hconstants]
      exact reorders_swap _ _
    · rw [get_set_of_ne _ _ hconstant, firstSwapped, if_neg (by simp [hfunction, hconstant])]
      exact fun _ => rfl
  exact ⟨draft, _, result, result', hdraft, hreorders, hresult, hresult',
    (expand_reorders hdraft hreorders true).2 result result' hresult hresult', hbodies, hequations⟩

end SymbolTable

end OdeModel
