import OdeModel.Proofs.Inlining.CallValues
import OdeModel.Proofs.Inlining.Capture
import OdeModel.Proofs.Inlining.Clearing

/-!
# Inlining of functions is complete

Calls are looked for once in every text, before any of them is replaced. So nothing of
what is put into a text is replaced again, and inlining is complete only when no call
comes about in this way. When it is complete, inlining again changes nothing.
-/

namespace OdeModel

namespace Text

/-- No name is called in the text. -/
def Uncalled (words : List Text) (s : Text) : Prop :=
  ∀ site ∈ sites s, site.behind = some '(' → site.run ∉ words

theorem CallFree.uncalled {passed : Bool} {words formals : List Text} {s : Text}
    (h : CallFree passed words formals none s) : Uncalled words s := by
  intro site hmem hopen hword
  have hsite := h.site site hmem
  rw [Site.within_none] at hsite
  exact (hsite.word hword).2 hopen

end Text

namespace Inlining

open Text Dictionary

variable {words : List Text} {functions : Functions} {definitions : List Definition}

theorem callsAmong_of_uncalled {s : Text} (h : Uncalled words s) :
    callsAmong words s (places 0 s) = [] := by
  rw [callsAmong, List.filter_eq_nil_iff]
  intro found hfound hopen
  obtain ⟨⟨position, run⟩, hplace, hfound⟩ := List.mem_filterMap.1 hfound
  obtain ⟨id, hid, rfl⟩ := Option.map_eq_some_iff.1 hfound
  obtain ⟨before, after, rfl, rfl, hrun⟩ := mem_places_iff.1 hplace
  rw [beq_iff_eq, Nat.zero_add, ← width_append, dropBytes_width_append] at hopen
  exact h ⟨before.getLast?, run, after.head?⟩ (mem_sites_iff.2 ⟨before, after, rfl, rfl, rfl, hrun⟩)
    hopen (List.isSome_idxOf?.1 (by rw [hid]; rfl))

namespace Functions

/-- A text in which nothing is called stays as it is. -/
theorem replaceCalls_of_uncalled (hnames : functions.names.Holds words)
    (hwords : ∀ word ∈ words, IsNameText word) {expr : Text} (h : Uncalled words expr)
    (line : Nat) (locals : List Text) :
    functions.replaceCalls line locals expr = .ok expr := by
  rw [replaceCalls, hnames.calls_eq hwords, callsAmong_of_uncalled h]
  rfl

/-- Functions in whose bodies nothing is called. -/
structure Final (definitions : List Definition) : Prop where
  name : ∀ definition ∈ definitions, definition.name ≠ [] ∧ IsNameText definition.name
  nodup : (definitions.map Definition.name).Nodup
  formal : ∀ definition ∈ definitions, ∀ formal ∈ definition.args, formal ≠ []
  args : ∀ definition ∈ definitions, definition.args.Nodup
  uncalled : ∀ definition ∈ definitions,
    Uncalled (definitions.map Definition.name) definition.expr

theorem Final.isNameText (h : Final definitions) :
    ∀ word ∈ definitions.map Definition.name, word ≠ [] ∧ IsNameText word := by
  rw [List.forall_mem_map]
  exact h.name

/-- A function in whose body nothing is called is resolved already. -/
theorem Final.resolveAt_eq (h : Final definitions) (functions : Functions)
    (hnames : functions.names.Holds (definitions.map Definition.name)) (index : Nat) :
    ∃ next : Functions, resolveAt (functions, definitions) index = .ok (next, definitions) ∧
      next.names = functions.names := by
  unfold resolveAt
  cases hget : definitions[index]? with
  | none => exact ⟨functions, by simp [hget], rfl⟩
  | some definition =>
      have hmem := List.mem_of_getElem? hget
      have hexpr := replaceCalls_of_uncalled hnames (fun word hword => (h.isNameText word hword).2)
        (h.uncalled definition hmem) definition.line definition.args
      obtain ⟨dictionary, hdictionary⟩ :=
        (ofKeywords_spec (h.formal definition hmem)).1.2 (h.args definition hmem)
      obtain ⟨template, htemplate⟩ : ∃ template, Template.ofDefinition definition = .ok template :=
        ⟨_, bind_eq_ok_iff.2 ⟨dictionary, hdictionary, rfl⟩⟩
      refine ⟨{ functions with templates := (index, template) :: functions.templates }, ?_, rfl⟩
      simp only [hget]
      refine bind_eq_ok_iff.2 ⟨_, hexpr, bind_eq_ok_iff.2
        ⟨template, mapError_eq_ok_iff.2 htemplate, ?_⟩⟩
      rw [pure_eq_ok_iff, Prod.mk.injEq]
      exact ⟨rfl, set_eq_self hget⟩

theorem Final.foldlM_resolveAt (h : Final definitions) (functions : Functions)
    (hnames : functions.names.Holds (definitions.map Definition.name)) (order : List Nat) :
    ∃ resolved : Functions, order.foldlM resolveAt (functions, definitions) =
        .ok (resolved, definitions) ∧
      resolved.names.Holds (definitions.map Definition.name) := by
  induction order generalizing functions with
  | nil => exact ⟨functions, rfl, hnames⟩
  | cons index later ih =>
      obtain ⟨next, hnext, hsame⟩ := h.resolveAt_eq functions hnames index
      rw [List.foldlM_cons, hnext]
      exact ih next (hsame ▸ hnames)

/-- Functions in whose bodies nothing is called have an order of dependence, and are not
changed when they are resolved. -/
theorem Final.ofDefinitions_eq (h : Final definitions) (scope : Scope) (parenthesize : Bool) :
    ∃ functions, ofDefinitions scope parenthesize definitions = .ok (functions, definitions) ∧
      functions.names.Holds (definitions.map Definition.name) := by
  have hwords := h.isNameText
  have hspec := ofKeywords_spec fun word hword => (hwords word hword).1
  obtain ⟨names, hdict⟩ := hspec.1.2 h.nodup
  have hnames := hspec.2 names hdict
  have hcallees : ∀ index, calleesOf definitions index = [] := by
    intro index
    rw [List.eq_nil_iff_forall_not_mem]
    intro next hnext
    obtain ⟨definition, hget, call, hcall, -⟩ := mem_calleesOf_iff.1 hnext
    rw [callsAmong_of_uncalled (h.uncalled definition (List.mem_of_getElem? hget))] at hcall
    contradiction
  -- a definition that refers to nothing is on no cycle
  have horder : ∃ order, Dependency.order (calleesOf definitions) definitions.length =
      .ok order := by
    have hvalid : ∀ index, ∀ next ∈ calleesOf definitions index, next < definitions.length :=
      fun _ _ => lt_of_mem_calleesOf
    have hspec := Dependency.order_spec hvalid
    cases hresult : Dependency.order (calleesOf definitions) definitions.length with
    | ok order => exact ⟨order, rfl⟩
    | error culprit =>
        rw [hresult] at hspec
        obtain ⟨next, hrefers, -⟩ := Relation.TransGen.head'_iff.1 hspec.2
        simp [Dependency.Refers, hcallees] at hrefers
  obtain ⟨order, horder⟩ := horder
  obtain ⟨resolved, hresolved, hholds⟩ :=
    h.foldlM_resolveAt ⟨names, [], scope, parenthesize⟩ hnames order
  refine ⟨resolved, ?_, hholds⟩
  refine bind_eq_ok_iff.2 ⟨names, mapError_eq_ok_iff.2 hdict, bind_eq_ok_iff.2 ⟨order, ?_,
    hresolved⟩⟩
  rw [Dependency.ofDefinitions_eq, mapError_eq_ok_iff,
    referencesOf_calls hnames fun word hword => (hwords word hword).2]
  exact horder

/-- Nothing is called in the bodies of functions that have been resolved. -/
theorem ofDefinitions_final {scope : Scope} {parenthesize passed : Bool} {formals : List Text}
    {definitions' : List Definition} (hclearable : Clearable passed formals definitions)
    (hresult : ofDefinitions scope parenthesize definitions = .ok (functions, definitions')) :
    Final definitions' ∧ definitions'.map Definition.name = definitions.map Definition.name := by
  obtain ⟨hclears, -, hheads, hbodies⟩ := ofDefinitions_cleared hclearable hresult
  have hnames : definitions'.map Definition.name = definitions.map Definition.name := by
    have hmap := congrArg (List.map Prod.fst) hheads
    rwa [List.map_map, List.map_map] at hmap
  have hold : ∀ definition ∈ definitions', ∃ old ∈ definitions,
      old.name = definition.name ∧ old.args = definition.args := by
    intro definition hmem
    have hhead : definition.head ∈ definitions.map Definition.head :=
      hheads ▸ List.mem_map_of_mem hmem
    obtain ⟨old, hold, hsame⟩ := List.mem_map.1 hhead
    exact ⟨old, hold, congrArg Prod.fst hsame, congrArg Prod.snd hsame⟩
  refine ⟨?_, hnames⟩
  constructor
  case name =>
    intro definition hmem
    obtain ⟨old, hmem, hname, -⟩ := hold definition hmem
    exact hname ▸ hclearable.name old hmem
  case nodup =>
    rw [hnames]
    exact hclears.holds.nodup
  case formal =>
    intro definition hmem
    obtain ⟨old, hmem, -, hargs⟩ := hold definition hmem
    exact hargs ▸ fun formal hformal => (hclearable.formal old hmem formal hformal).1
  case args => exact fun definition hmem => (hbodies definition hmem).2
  case uncalled =>
    rw [hnames]
    exact fun definition hmem => (hbodies definition hmem).1.uncalled

end Functions

end Inlining

namespace SymbolTable

open Inlining Text

variable {table table' : SymbolTable} {scope : Scope} {parenthesize passed : Bool}

/-- Calls can be replaced in the functions and everywhere else so that none comes about.
In the bodies of functions this holds of the formal arguments as well, since others take their
places. -/
structure CallsApart (passed : Bool) (table : SymbolTable) : Prop where
  bodies : ∀ definition ∈ table.get .functions,
    Replaceable passed (namesOf table .functions)
      ((table.get .functions).flatMap Definition.args) none definition.expr
  texts : ∀ category ∈ callTargets, ∀ definition ∈ table.get category,
    ∀ text ∈ expandedTexts category definition,
      Replaceable passed (namesOf table .functions) [] none text

instance (passed : Bool) (table : SymbolTable) : Decidable (table.CallsApart passed) :=
  decidable_of_iff (_ ∧ _) ⟨fun h => ⟨h.1, h.2⟩, fun h => ⟨h.1, h.2⟩⟩

/-- The functions and their formal arguments can be named in a text. -/
structure HasFormals (table : SymbolTable) : Prop where
  name : ∀ definition ∈ table.get .functions, definition.name ≠ [] ∧ IsNameText definition.name
  formal : ∀ definition ∈ table.get .functions, ∀ formal ∈ definition.args,
    formal ≠ [] ∧ IsNameText formal

/-- No function is called, neither in a function nor elsewhere. -/
structure Cleared (table : SymbolTable) : Prop where
  final : Functions.Final (table.get .functions)
  texts : ∀ category ∈ callTargets, ∀ definition ∈ table.get category,
    ∀ text ∈ expandedTexts category definition, Uncalled (namesOf table .functions) text

theorem CallsApart.clearable (h : table.CallsApart passed) (hfunctions : table.HasFormals) :
    Functions.Clearable passed ((table.get .functions).flatMap Definition.args)
      (table.get .functions) where
  name := hfunctions.name
  formal := hfunctions.formal
  args := fun definition hmem _ hformal => List.mem_flatMap.2 ⟨definition, hmem, hformal⟩
  body := h.bodies

/-- Inlining functions leaves no call of them. -/
theorem inlineFunctions_cleared (hfunctions : table.HasFormals) (happart : table.CallsApart passed)
    (h : table.inlineFunctions scope parenthesize = .ok table') :
    table'.Cleared ∧ namesOf table' .functions = namesOf table .functions := by
  by_cases hempty : table.get .functions = []
  · rw [inlineFunctions, if_pos (by simp [hempty])] at h
    cases h
    refine ⟨⟨by rw [hempty]; exact ⟨by simp, by simp, by simp, by simp, by simp⟩,
      fun _ _ _ _ _ _ => ?_⟩, rfl⟩
    simp [Uncalled, namesOf, hempty]
  · obtain ⟨functions, hof, htexts⟩ := inlineFunctions_texts hempty h
    obtain ⟨hclears, hresolved, -, -⟩ :=
      Functions.ofDefinitions_cleared (happart.clearable hfunctions) hof
    obtain ⟨hfinal, hnames⟩ := Functions.ofDefinitions_final (happart.clearable hfunctions) hof
    refine ⟨⟨hfinal, fun category hcategory new hnew text htext => ?_⟩, hnames⟩
    obtain ⟨old, hmem, hreplaced⟩ := exists_of_forall₂_mem (htexts category hcategory) hnew
    obtain ⟨expr, hexpr, hreplaced⟩ := exists_of_forall₂_mem hreplaced htext
    rw [namesOf, hnames]
    refine CallFree.uncalled (hclears.replaceCalls (List.nil_subset _)
      (happart.texts category hcategory old hmem expr hexpr) (fun call hcall => ?_) hreplaced)
    rw [hclears.holds.calls_eq hclears.isNameText] at hcall
    have hlt := Dictionary.id_lt_of_mem_callsAmong hcall
    rw [List.length_map] at hlt
    exact hresolved call.id hlt

theorem set_get (table : SymbolTable) (category : Category) :
    table.set category (table.get category) = table := by
  apply ext_get
  intro other
  by_cases hsame : other = category
  · rw [hsame, get_set_self]
  · rw [get_set_of_ne _ _ hsame]

/-- A change that keeps every definition of some categories keeps the table. -/
theorem foldlM_set_eq_self {change : Definition → Except ModelError Definition}
    {targets : List Category}
    (h : ∀ target ∈ targets, ∀ definition ∈ table.get target, change definition = .ok definition) :
    targets.foldlM (fun (table : SymbolTable) target => do
      return table.set target (← (table.get target).mapM change)) table = .ok table := by
  induction targets with
  | nil => rfl
  | cons target later ih =>
      rw [List.forall_mem_cons] at h
      have hfirst : (table.get target).mapM change = .ok (table.get target) := by
        rw [mapM_eq_ok_iff, List.forall₂_same]
        exact h.1
      rw [List.foldlM_cons, hfirst]
      change later.foldlM _ (table.set target (table.get target)) = _
      rw [set_get]
      exact ih h.2

/-- Inlining functions again changes nothing. -/
theorem Cleared.inlineFunctions_eq (h : table.Cleared) (scope : Scope) (parenthesize : Bool) :
    table.inlineFunctions scope parenthesize = .ok table := by
  have hmarkovs : .markovs ∉ laterThan .functions := by decide
  unfold inlineFunctions
  split
  next => rfl
  next =>
    obtain ⟨functions, hof, hnames⟩ := h.final.ofDefinitions_eq scope parenthesize
    have hreplace : ∀ category ∈ callTargets, ∀ definition ∈ table.get category,
        ∀ text ∈ expandedTexts category definition,
          functions.replaceCalls definition.line [] text = .ok text :=
      fun category hcategory definition hmem text htext =>
        Functions.replaceCalls_of_uncalled hnames
          (fun word hword => (h.final.isNameText word hword).2)
          (h.texts category hcategory definition hmem text htext) _ _
    refine bind_eq_ok_iff.2 ⟨_, hof, ?_⟩
    dsimp only
    rw [set_get]
    refine bind_eq_ok_iff.2 ⟨table, foldlM_set_eq_self fun target htarget definition hmem => ?_,
      bind_eq_ok_iff.2 ⟨table.get .markovs, ?_, ?_⟩⟩
    · have hexpr := hreplace target (List.mem_cons_of_mem _ htarget) definition hmem
        definition.expr (by
          have hother : target ≠ .markovs := fun heq => hmarkovs (heq ▸ htarget)
          simp [expandedTexts, hother])
      exact bind_eq_ok_iff.2 ⟨_, hexpr, rfl⟩
    · rw [mapM_eq_ok_iff, List.forall₂_same]
      intro definition hmem
      refine bind_eq_ok_iff.2 ⟨definition.args, ?_, rfl⟩
      rw [mapM_eq_ok_iff, List.forall₂_same]
      exact fun entry hentry => hreplace .markovs List.mem_cons_self definition hmem entry
        (by rwa [expandedTexts, if_pos rfl])
    · rw [pure_eq_ok_iff, set_get]

/-- The functions of a model that has been read have such names and formal arguments. -/
theorem hasFormals_of_ofInput {settings : Settings} {files : FileReader} {name input : Text}
    {draft : Draft} (hdraft : Draft.ofInput settings files name input = .ok draft) :
    draft.symbols.HasFormals where
  name := fun definition hmem => (isNameText_of_isIdentifier
    (Draft.isIdentifier_of_mem hdraft .functions (by decide) definition hmem)).2
  formal := by
    apply Draft.induction_on_entries (p := fun draft =>
      ∀ definition ∈ draft.symbols.get .functions, ∀ formal ∈ definition.args,
        formal ≠ [] ∧ IsNameText formal) hdraft
    · intro definition hmem
      simp [Draft.empty] at hmem
    · intro old new henters ih definition hmem
      cases henters with
      | named _ hformals _ =>
          rcases mem_get_push_iff.1 hmem with hmem | ⟨hcategory, rfl⟩
          · exact ih definition hmem
          · exact hformals hcategory.symm
      | bare hbare =>
          rcases mem_get_push_iff.1 hmem with hmem | ⟨rfl, -⟩
          · exact ih definition hmem
          · rcases hbare with hbare | ⟨hbare, -⟩
            · exact absurd hbare (by decide)
            · contradiction
      | initial _ =>
          rcases mem_get_push_iff.1 hmem with hmem | ⟨hcategory, -⟩
          · exact ih definition hmem
          · contradiction
      | setting _ =>
          rcases mem_get_push_iff.1 hmem with hmem | ⟨hcategory, -⟩
          · exact ih definition hmem
          · contradiction

/-- Inlining names keeps the names of functions and their formal arguments. -/
theorem HasFormals.inlineNames (h : table.HasFormals) (hnames : HasNames table)
    (hnamed : table.inlineNames parenthesize = .ok table') : table'.HasFormals := by
  have hkept := (eliminated_inlineNames hnames hnamed).2 .functions
  have hrewrites := foldlM_inlineCategory_rewrites (fun _ hsource => hsource) (by decide) hnames
    hnamed
  constructor
  · intro definition hmem
    have hname : definition.name ∈ namesOf table .functions :=
      hkept ▸ List.mem_map_of_mem hmem
    obtain ⟨old, hold, hsame⟩ := List.mem_map.1 hname
    exact hsame ▸ h.name old hold
  · intro definition hmem
    obtain ⟨old, hold, hrewritten⟩ := exists_of_forall₂_mem hrewrites hmem
    rw [hrewritten.args]
    exact h.formal old hold

/-- Calls of functions are looked for once in every text, so inlining functions is complete
when no call comes about by it: no run that a closing bracket comes before is the ending of a
function or a formal argument, and either functions are named in calls only, or no parenthesis
follows a closing bracket or, in a body, a formal argument. Then no function is called in
any text that is expanded, and inlining again changes nothing. -/
theorem inlineFunctions_complete {settings : Settings} {files : FileReader} {name input : Text}
    {draft : Draft} (hdraft : Draft.ofInput settings files name input = .ok draft)
    {named : SymbolTable} (hnamed : draft.symbols.inlineNames parenthesize = .ok named)
    (happart : named.CallsApart passed)
    (htable : draft.symbols.expand draft.scope parenthesize = .ok table) :
    (∀ category ∈ [Category.algebraic, .auxiliary, .boundaries, .equations, .special, .volterra],
      ∀ definition ∈ table.get category, ∀ site ∈ sites definition.expr,
        site.behind = some '(' → site.run ∉ namesOf draft.symbols .functions) ∧
    (∀ definition ∈ table.get .markovs, ∀ entry ∈ definition.args, ∀ site ∈ sites entry,
      site.behind = some '(' → site.run ∉ namesOf draft.symbols .functions) ∧
    table.inlineFunctions draft.scope parenthesize = .ok table := by
  have hnames := hasNames_of_ofInput hdraft
  have hfunctions := (hasFormals_of_ofInput hdraft).inlineNames hnames hnamed
  obtain ⟨named', hnamed', htable⟩ := bind_eq_ok_iff.1 htable
  cases hnamed.symm.trans hnamed'
  obtain ⟨hcleared, hkept⟩ := inlineFunctions_cleared hfunctions happart htable
  rw [(eliminated_inlineNames hnames hnamed).2 .functions] at hkept
  have huncalled := hcleared.texts
  rw [hkept] at huncalled
  have htargets : ∀ category ∈ [Category.algebraic, .auxiliary, .boundaries, .equations, .special,
      .volterra], category ∈ callTargets ∧ category ≠ .markovs := by decide
  refine ⟨fun category hcategory definition hmem => ?_, fun definition hmem entry hentry => ?_,
    hcleared.inlineFunctions_eq draft.scope parenthesize⟩
  · obtain ⟨htarget, hmarkovs⟩ := htargets category hcategory
    exact huncalled category htarget definition hmem definition.expr
      (by simp [expandedTexts, hmarkovs])
  · exact huncalled .markovs List.mem_cons_self definition hmem entry
      (by simpa [expandedTexts] using hentry)

/-- A function that calls another one in both branches of a condition. -/
theorem inlineFunctions_complete_branches :
    ∃ draft named table, Draft.ofInput { } (fun _ => .error .notFound) "m".toList
        "g(v)=v^2\nf(u,w)=if(u>w)then(g(u))else(g(w))\nx'=f(g(x),3)".toList = .ok draft ∧
      draft.symbols.inlineNames true = .ok named ∧ named.CallsApart true ∧
      draft.symbols.expand draft.scope true = .ok table ∧
      (table.get .equations).map Definition.expr =
        ["if((x^2)>3)then(((x^2)^2))else((3^2))".toList] ∧
      table.inlineFunctions draft.scope true = .ok table := by
  have hrun : (do
      let draft ← Draft.ofInput { } (fun _ => .error .notFound) "m".toList
        "g(v)=v^2\nf(u,w)=if(u>w)then(g(u))else(g(w))\nx'=f(g(x),3)".toList
      let named ← draft.symbols.inlineNames true
      let table ← draft.symbols.expand draft.scope true
      return (decide (named.CallsApart true), (table.get .equations).map Definition.expr)) =
        .ok (true, ["if((x^2)>3)then(((x^2)^2))else((3^2))".toList]) := by
    decide +kernel
  obtain ⟨draft, hdraft, hrun⟩ := bind_eq_ok_iff.1 hrun
  obtain ⟨named, hnamed, hrun⟩ := bind_eq_ok_iff.1 hrun
  obtain ⟨table, htable, hrun⟩ := bind_eq_ok_iff.1 hrun
  obtain ⟨happart, hexpr⟩ := Prod.mk.inj (pure_eq_ok_iff.1 hrun)
  have happart : named.CallsApart true := of_decide_eq_true happart
  exact ⟨draft, named, table, hdraft, hnamed, happart, htable, hexpr,
    (inlineFunctions_complete hdraft hnamed happart htable).2.2⟩

/-- A function that calls its argument is called with the name of another function. A call
of that function comes about, and is replaced only when functions are inlined again. -/
theorem inlineFunctions_leaves_call :
    ∃ draft table again, Draft.ofInput { } (fun _ => .error .notFound) "m".toList
        "g(v)=v+1\nf(u)=u(3)\nx'=f(g)".toList = .ok draft ∧
      draft.symbols.expand draft.scope true = .ok table ∧
      ['g'] ∈ namesOf draft.symbols .functions ∧
      (table.get .equations).map Definition.expr = ["g(3)".toList] ∧
      (⟨none, ['g'], some '('⟩ : Site) ∈ sites "g(3)".toList ∧
      table.inlineFunctions draft.scope true = .ok again ∧
      (again.get .equations).map Definition.expr = ["3+1".toList] := by
  have hrun : (do
      let draft ← Draft.ofInput { } (fun _ => .error .notFound) "m".toList
        "g(v)=v+1\nf(u)=u(3)\nx'=f(g)".toList
      let table ← draft.symbols.expand draft.scope true
      let again ← table.inlineFunctions draft.scope true
      return (namesOf draft.symbols .functions, (table.get .equations).map Definition.expr,
        (again.get .equations).map Definition.expr)) =
          .ok ([['g'], ['f']], ["g(3)".toList], ["3+1".toList]) := by
    decide +kernel
  obtain ⟨draft, hdraft, hrun⟩ := bind_eq_ok_iff.1 hrun
  obtain ⟨table, htable, hrun⟩ := bind_eq_ok_iff.1 hrun
  obtain ⟨again, hagain, hrun⟩ := bind_eq_ok_iff.1 hrun
  obtain ⟨hnames, hexprs⟩ := Prod.mk.inj (pure_eq_ok_iff.1 hrun)
  obtain ⟨hexpr, hexpr'⟩ := Prod.mk.inj hexprs
  exact ⟨draft, table, again, hdraft, htable, by rw [hnames]; decide, hexpr, by decide +kernel,
    hagain, hexpr'⟩

end SymbolTable

end OdeModel
