import Mathlib.Data.List.Flatten
import OdeModel.Proofs.Inlining.Bounds
import OdeModel.Proofs.Inlining.Completeness
import OdeModel.Proofs.Inlining.Cycles
import OdeModel.Proofs.Inlining.Phases
import OdeModel.Proofs.Statement.Lookup

/-!
# The expansion stays in bounds

The texts of a model that has been read are settled, and inlining names keeps them so. When
the calls are replaced, each of them is in bounds at its turn, and the names that are put
into dictionaries differ, so neither phase fails for a repeated name.
-/

namespace OdeModel

namespace Inlining

open Text

/-! ### Names -/

/-- The brackets of a text are closed: all of them, or the parentheses if it is the name of
a special function. -/
def ClosedIn (category : Category) (text : Text) : Prop :=
  if category = .special then ParensClosed text else Text.Settled text

theorem ClosedIn.parensClosed {category : Category} {text : Text} (h : ClosedIn category text) :
    ParensClosed text := by
  unfold ClosedIn at h
  split at h
  · exact h
  · exact ParensClosed.of_settled h

theorem ClosedIn.mapRuns {category : Category} {text : Text} (h : ClosedIn category text)
    {f : Text → Text} (hf : ∀ run ∈ runs text, Text.Settled (f run)) :
    ClosedIn category (mapRuns f text) := by
  unfold ClosedIn at h ⊢
  split
  next hspecial =>
    rw [if_pos hspecial] at h
    exact h.mapRuns hf
  next hother =>
    rw [if_neg hother] at h
    exact h.mapRuns hf

namespace Glossary

variable {glossary : Glossary} {definitions : List Definition}

/-- What takes the place of a run is settled, when the definition of the run is. -/
theorem Covers.settled_standIn (h : Covers glossary) {run : Text} (hrun : IsNameText run)
    (hsettled : ∀ definition ∈ glossary.definitions, definition.name = run →
      Text.Settled definition.expr) (exclude : List Text) (whole : Bool) :
    Text.Settled (glossary.standIn exclude whole run) := by
  have hname := settled_of_isNameText hrun
  unfold standIn
  split
  next => exact hname
  next =>
    split
    next => exact hname
    next definition hdefinition =>
      obtain ⟨hmem, hsame⟩ := h.definition?_eq_some_iff.1 hdefinition
      exact (hsettled definition hmem hsame).wrap _ _

theorem Covers.settled_replace (h : Covers glossary)
    (hsettled : ∀ definition ∈ glossary.definitions, Text.Settled definition.expr)
    {category : Category} {text : Text} (htext : ClosedIn category text) (exclude : List Text) :
    ClosedIn category (glossary.replace exclude text).1 := by
  rw [h.replace_eq]
  exact htext.mapRuns fun run hrun => h.settled_standIn (isNameText_of_mem_runs hrun).2
    (fun definition hmem _ => hsettled definition hmem) _ _

/-- The definitions of a glossary are settled when they were. -/
theorem Resolved.settled (h : Resolved definitions glossary)
    (hsettled : ∀ definition ∈ definitions, Text.Settled definition.expr) :
    ∀ definition ∈ glossary.definitions, Text.Settled definition.expr := by
  rw [h.definitions_eq, List.forall_mem_map]
  apply h.induction (p := fun definition => Text.Settled (glossary.explain definition).expr)
  intro definition hmem ih
  dsimp only [explain]
  rw [h.covers.replace_eq]
  refine (hsettled definition hmem).mapRuns fun run hrun => ?_
  refine h.covers.settled_standIn (isNameText_of_mem_runs hrun).2 (fun other hother hname => ?_) _ _
  rw [h.definitions_eq] at hother
  obtain ⟨old, hold, rfl⟩ := List.mem_map.1 hother
  cases hname
  exact ih old hold hrun

end Glossary

/-- The brackets of all texts that are expanded are closed. -/
def TextsClosed (table : SymbolTable) : Prop :=
  ∀ category ∈ .markovs :: Category.expanded, ∀ definition ∈ table.get category,
    ∀ text ∈ expandedTexts category definition, ClosedIn category text

theorem Inlines.textsClosed {source : Category} (hsource : source ∈ Category.inlined)
    {glossary : Glossary} {table table' : SymbolTable} (h : Inlines source glossary table table')
    (hclosed : TextsClosed table) : TextsClosed table' := by
  have hinlined : ∀ source ∈ Category.inlined, source ∈ .markovs :: Category.expanded ∧
      source ≠ .markovs ∧ source ≠ .special := by decide
  obtain ⟨hexpanded, hmarkovs, hspecial⟩ := hinlined source hsource
  have hsettled : ∀ definition ∈ table.get source, Text.Settled definition.expr := by
    intro definition hmem
    have htext := hclosed source hexpanded definition hmem definition.expr
      (by simp [expandedTexts, hmarkovs])
    rwa [ClosedIn, if_neg hspecial] at htext
  intro category hcategory definition hmem text htext
  obtain ⟨old, hold, -, -, htexts⟩ := h.exists_of_mem hsource hmem
  have hprevious := hclosed category hcategory old hold
  rw [htexts] at htext
  split at htext
  next =>
    obtain ⟨previous, hmem, rfl⟩ := List.mem_map.1 htext
    exact h.resolved.covers.settled_replace (h.resolved.settled hsettled) (hprevious _ hmem) _
  next => exact hprevious text htext

/-! ### Functions -/

/-- The error points to a place in a text. -/
def IsLocated (error : ModelError) : Prop := ∃ fault place, error = .located fault place

namespace Functions

variable {functions : Functions} {line : Nat} {locals : List Text} {expr : Text}
  {error : ModelError}

theorem checkActuals_isLocated {actuals : List (Nat × Text)}
    (h : functions.checkActuals line locals expr actuals = .error error) : IsLocated error := by
  induction actuals with
  | nil => contradiction
  | cons actual later ih =>
      unfold checkActuals at h
      split at h
      · cases h
        exact ⟨_, _, rfl⟩
      · exact ih h

theorem replaceCall_isLocated {call : Occurrence}
    (h : functions.replaceCall line locals expr call = .error error) : IsLocated error := by
  unfold replaceCall at h
  split at h
  next => contradiction
  next =>
    split at h
    next =>
      cases h
      exact ⟨_, _, rfl⟩
    next =>
      split at h
      next =>
        cases h
        exact ⟨_, _, rfl⟩
      next =>
        rcases bind_eq_error_iff.1 h with hcheck | ⟨_, -, h⟩
        · exact checkActuals_isLocated hcheck
        · contradiction

/-- Replacing the calls of a text fails at a place in it. -/
theorem replaceCalls_isLocated (h : functions.replaceCalls line locals expr = .error error) :
    IsLocated error := by
  unfold replaceCalls at h
  rw [← List.foldlM_reverse] at h
  obtain ⟨_, _, _, _, -, -, hcall⟩ := exists_of_foldlM_eq_error h
  exact replaceCall_isLocated hcall

end Functions

end Inlining

namespace SymbolTable

open Inlining Text

/-- The calls are replaced in this text when the functions of a table are inlined: in the
body of a function, once those before it in the order of dependence are resolved, and in
the texts of the categories behind the functions, once all are. -/
inductive ReplacesCallsIn (scope : Scope) (parenthesize : Bool) (table : SymbolTable) :
    (functions : Functions) → (line : Nat) → (locals : List Text) → (expr : Text) → Prop
  /-- The body of a function. -/
  | body {names : Dictionary} {before after : List Nat} {index : Nat}
      {state : Functions × List Definition} {definition : Definition}
      (hnames : Dictionary.ofNames (table.get .functions) = .ok names)
      (horder : Dependency.ofDefinitions (fun expr => (names.calls expr).map Occurrence.id)
        (table.get .functions) = .ok (before ++ index :: after))
      (hstate : before.foldlM Functions.resolveAt
        (⟨names, [], scope, parenthesize⟩, table.get .functions) = .ok state)
      (hdefinition : state.2[index]? = some definition) :
      ReplacesCallsIn scope parenthesize table state.1 definition.line definition.args
        definition.expr
  /-- The expression of a definition, or an entry of a process. -/
  | text {functions : Functions} {definitions : List Definition} {category : Category}
      {definition : Definition} {text : Text}
      (hfunctions : Functions.ofDefinitions scope parenthesize (table.get .functions) =
        .ok (functions, definitions))
      (hcategory : category ∈ callTargets) (hmem : definition ∈ table.get category)
      (htext : text ∈ expandedTexts category definition) :
      ReplacesCallsIn scope parenthesize table functions definition.line [] text

/-- The functions of a table can be resolved without two of the same name meeting. -/
structure FunctionsApart (table : SymbolTable) : Prop where
  formals : table.HasFormals
  nodup : (namesOf table .functions).Nodup
  args : ∀ definition ∈ table.get .functions, definition.args.Nodup

variable {table : SymbolTable} {scope : Scope} {parenthesize : Bool}

theorem HasFormals.words (h : table.HasFormals) :
    ∀ name ∈ (table.get .functions).map Definition.name, name ≠ [] ∧ IsNameText name :=
  List.forall_mem_map.2 h.name

/-- A template is made of a function when its formal arguments differ. -/
theorem exists_template (definition : Definition)
    (hformals : ∀ formal ∈ definition.args, formal ≠ []) (hnodup : definition.args.Nodup) :
    ∃ template, Template.ofDefinition definition = .ok template := by
  obtain ⟨names, hnames⟩ := (Dictionary.ofKeywords_spec hformals).1.2 hnodup
  exact ⟨_, bind_eq_ok_iff.2 ⟨names, hnames, rfl⟩⟩

/-- Resolving the functions fails for a circle, or in the body of one of them. -/
theorem FunctionsApart.ofDefinitions_error (h : table.FunctionsApart) {error : ModelError}
    (herror : Functions.ofDefinitions scope parenthesize (table.get .functions) = .error error) :
    IsCircular error ∨ ∃ functions line locals expr,
      table.ReplacesCallsIn scope parenthesize functions line locals expr ∧
      functions.replaceCalls line locals expr = .error error := by
  obtain ⟨names, hnames⟩ := (Dictionary.ofKeywords_spec fun name hname =>
    (h.formals.words name hname).1).1.2 h.nodup
  have hof : Dictionary.ofNames (table.get .functions) = .ok names := hnames
  unfold Functions.ofDefinitions at herror
  rw [hof] at herror
  change (Dependency.ofDefinitions (fun expr => (names.calls expr).map Occurrence.id)
    (table.get .functions) >>= _) = _ at herror
  rcases bind_eq_error_iff.1 herror with herror | ⟨order, horder, herror⟩
  · rw [Dependency.ofDefinitions_eq, mapError_eq_error_iff] at herror
    obtain ⟨index, -, rfl⟩ := herror
    exact Or.inl ⟨_, rfl⟩
  · obtain ⟨before, index, after, state, rfl, hstate, herror⟩ := exists_of_foldlM_eq_error herror
    unfold Functions.resolveAt at herror
    cases hget : state.2[index]? with
    | none =>
        simp only [hget] at herror
        contradiction
    | some definition =>
        simp only [hget] at herror
        rcases bind_eq_error_iff.1 herror with hcalls | ⟨expr, -, herror⟩
        · exact Or.inr ⟨_, _, _, _, .body hof horder hstate hget, hcalls⟩
        · -- the formal arguments are those that have been read
          have hexpanded : Category.functions ∈ Category.expanded := by decide
          have hframes := Functions.foldlM_resolveAt_frame hstate
          have hmem : definition.frame .functions ∈
              (table.get .functions).map (Definition.frame .functions) :=
            hframes ▸ List.mem_map_of_mem (List.mem_of_getElem? hget)
          obtain ⟨old, hold, hframe⟩ := List.mem_map.1 hmem
          have hargs : old.args = definition.args := by
            simpa only [Definition.frame_of_mem_expanded hexpanded] using
              congrArg Definition.args hframe
          obtain ⟨template, htemplate⟩ := exists_template { definition with expr }
            (fun formal hformal => (h.formals.formal old hold formal (hargs ▸ hformal)).1)
            (hargs ▸ h.args old hold)
          rw [htemplate] at herror
          contradiction

/-- Inlining the functions fails for a circle, or in one of the texts in which calls are
replaced. -/
theorem FunctionsApart.inlineFunctions_error (h : table.FunctionsApart) {error : ModelError}
    (herror : table.inlineFunctions scope parenthesize = .error error) :
    IsCircular error ∨ ∃ functions line locals expr,
      table.ReplacesCallsIn scope parenthesize functions line locals expr ∧
      functions.replaceCalls line locals expr = .error error := by
  have htargets : (laterThan .functions).Nodup ∧ .functions ∉ laterThan .functions ∧
      .markovs ∉ laterThan .functions := by decide
  obtain ⟨hnodup, hfunctions, hmarkovs⟩ := htargets
  unfold inlineFunctions at herror
  split at herror
  next => contradiction
  next =>
    rcases bind_eq_error_iff.1 herror with herror | ⟨⟨functions, definitions⟩, hof, herror⟩
    · exact h.ofDefinitions_error herror
    rcases bind_eq_error_iff.1 herror with herror | ⟨expanded, hexpanded, herror⟩
    · obtain ⟨before, target, after, middle, htarget, hmiddle, herror⟩ :=
        exists_of_foldlM_eq_error herror
      have hmem : target ∈ laterThan .functions := by simp [htarget]
      have hbefore : before.Nodup ∧ target ∉ before := by
        rw [htarget, List.nodup_append] at hnodup
        exact ⟨hnodup.1, fun hin => hnodup.2.2 target hin target List.mem_cons_self rfl⟩
      have hown : middle.get target = table.get target := by
        rw [(get_foldlM_set hbefore.1 hmiddle).2 target hbefore.2,
          get_set_of_ne _ _ fun heq : target = .functions => hfunctions (heq ▸ hmem)]
      rcases bind_eq_error_iff.1 herror with herror | ⟨_, -, herror⟩
      · rw [hown] at herror
        obtain ⟨definition, hdefinition, herror⟩ := exists_of_mapM_eq_error herror
        rcases bind_eq_error_iff.1 herror with herror | ⟨_, -, herror⟩
        · have htext : definition.expr ∈ expandedTexts target definition := by
            have hne : target ≠ .markovs := fun heq => hmarkovs (heq ▸ hmem)
            simp [expandedTexts, hne]
          exact Or.inr ⟨_, _, _, _,
            .text hof (List.mem_cons_of_mem _ hmem) hdefinition htext, herror⟩
        · contradiction
      · contradiction
    rcases bind_eq_error_iff.1 herror with herror | ⟨_, -, herror⟩
    · rw [(get_foldlM_set hnodup hexpanded).2 _ hmarkovs, get_set_of_ne _ _ (by decide)] at herror
      obtain ⟨definition, hdefinition, herror⟩ := exists_of_mapM_eq_error herror
      rcases bind_eq_error_iff.1 herror with herror | ⟨_, -, herror⟩
      · obtain ⟨entry, hentry, herror⟩ := exists_of_mapM_eq_error herror
        exact Or.inr ⟨_, _, _, _, .text hof List.mem_cons_self hdefinition
          (by rwa [expandedTexts, if_pos rfl]), herror⟩
      · contradiction
    · contradiction

/-! ### Models -/

/-- The names of some categories all of whose definitions define one differ. -/
theorem NamesApart.nodup_flatMap (h : table.NamesApart) (categories : List Category)
    (hcategories : categories.Sublist Category.defining) :
    (categories.flatMap table.namesIn).Nodup :=
  (List.nodup_append.1 h.nodup).1.sublist (hcategories.flatMap table.namesIn)

section Draft

variable {settings : Settings} {files : FileReader} {name input : Text} {draft : Draft}

/-- The texts of a model that has been read are closed. -/
theorem textsClosed_of_ofInput (hdraft : Draft.ofInput settings files name input = .ok draft)
    (harray : IsNameText settings.arrayVariable) : TextsClosed draft.symbols := by
  intro category hcategory definition hmem text htext
  have hrecorded := Draft.ofInput_isRecorded hdraft category definition hmem
  have hspecial : Category.markovs ≠ .special := by decide
  unfold ClosedIn
  by_cases hmarkovs : category = .markovs
  · subst hmarkovs
    rw [expandedTexts, if_pos rfl] at htext
    rw [if_neg hspecial]
    exact hrecorded.entries rfl text htext
  · rw [expandedTexts, if_neg hmarkovs, List.mem_singleton] at htext
    subst htext
    split
    next hspecial => exact hrecorded.special hspecial
    next hother =>
      exact hrecorded.expr harray ((List.mem_cons.1 hcategory).resolve_left hmarkovs) hother

/-- Once the names of a model are inlined, its functions can be resolved without two of the
same name meeting. -/
theorem functionsApart_of_inlineNames
    (hdraft : Draft.ofInput settings files name input = .ok draft) {named : SymbolTable}
    (hnamed : draft.symbols.inlineNames parenthesize = .ok named) : named.FunctionsApart := by
  have hnames := hasNames_of_ofInput hdraft
  have hframes := inlineNames_sameFrames hnames hnamed
  constructor
  case formals => exact (hasFormals_of_ofInput hdraft).inlineNames hnames hnamed
  case nodup =>
    rw [hframes.namesOf_eq]
    have hnodup := (Draft.namesApart_of_ofInput hdraft).nodup_flatMap [.functions] (by decide)
    rwa [List.flatMap_singleton] at hnodup
  case args =>
    intro definition hmem
    have hexpanded : Category.functions ∈ Category.expanded := by decide
    have hframe : definition.frame .functions ∈
        (draft.symbols.get .functions).map (Definition.frame .functions) :=
      hframes .functions ▸ List.mem_map_of_mem hmem
    obtain ⟨old, hold, hframe⟩ := List.mem_map.1 hframe
    have hargs : old.args = definition.args := by
      simpa only [Definition.frame_of_mem_expanded hexpanded] using congrArg Definition.args hframe
    exact hargs ▸ (Draft.ofInput_isRecorded hdraft .functions old hold).formals rfl

/-- The expansion of a model that has been read stays in bounds. Whenever the turn of a call
comes, the bracket behind the name is closed in the text as it is, so the range that is
exchanged lies in it; the called function is resolved, and each occurrence of a formal
argument has an actual one when their numbers agree. And no two names of a dictionary are
the same, so neither phase fails for that. -/
theorem expand_in_bounds (hdraft : Draft.ofInput settings files name input = .ok draft)
    (harray : isIdentifier settings.arrayVariable = true) (parenthesize : Bool) :
    (∀ error, draft.symbols.inlineNames parenthesize ≠ .error (.duplicateKeyword error)) ∧
    ∀ named, draft.symbols.inlineNames parenthesize = .ok named →
      (∀ functions line locals expr,
        named.ReplacesCallsIn draft.scope parenthesize functions line locals expr →
        ∀ call current, functions.ComesTo line locals expr call current →
          functions.InBounds current call) ∧
      ∀ error, named.inlineFunctions draft.scope parenthesize ≠
        .error (.duplicateKeyword error) := by
  have hnames := hasNames_of_ofInput hdraft
  constructor
  · intro error herror
    have hnodup : ((Category.inlined.flatMap draft.symbols.get).map Definition.name).Nodup := by
      rw [List.map_flatMap]
      exact (Draft.namesApart_of_ofInput hdraft).nodup_flatMap Category.inlined (by decide)
    have houtcome := foldlM_inlineCategory_outcome parenthesize (fun _ hsource => hsource)
      (by decide) hnames hnodup
    unfold inlineNames at herror
    rw [herror] at houtcome
    obtain ⟨-, place, hcircular⟩ := houtcome
    contradiction
  intro named hnamed
  have hapart := functionsApart_of_inlineNames hdraft hnamed
  have hclosed : TextsClosed named :=
    foldlM_inlineCategory_induction (fun _ hsource => hsource) hnames hnamed
      (textsClosed_of_ofInput hdraft (isNameText_of_isIdentifier harray).2.2)
      fun _ hsource _ _ _ hinlines => hinlines.textsClosed hsource
  have hsettled : Functions.AreSettled (named.get .functions) := by
    refine ⟨hapart.formals.words, hapart.formals.formal, fun definition hmem => ?_⟩
    exact hclosed .functions (by decide) definition hmem definition.expr (by simp [expandedTexts])
  have hwords := fun word hword => (hapart.formals.words word hword).2
  constructor
  · intro functions line locals expr hreplaces call current hcomes
    cases hreplaces with
    | @body names before after index state definition hdict horder hstate hdefinition =>
        have hholds := (Dictionary.ofKeywords_spec fun word hword =>
          (hapart.formals.words word hword).1).2 names hdict
        obtain ⟨hinorder, hmem⟩ := Functions.inOrder_of_ofDefinitions hholds hwords horder
        obtain ⟨hbefore, hnew, hcallees, -⟩ := Dependency.InOrder.append_iff.1 hinorder
        rw [List.nil_append] at hnew hcallees
        obtain ⟨hreached, hsound⟩ := Functions.Sound.foldlM_resolveAt hsettled hholds hbefore
          (fun id hid => (hmem id).1 (List.mem_append_left _ hid)) hstate
        rw [hreached.waiting index hnew] at hdefinition
        exact hsound.inBounds_of_comesTo
          (ParensClosed.of_settled (hsettled.expr _ (List.mem_of_getElem? hdefinition)))
          (hreached.isSome_of_mem_calls hholds hwords hdefinition hcallees) hcomes
    | @text _ definitions category definition _ hfunctions hcategory hmem htext =>
        obtain ⟨names, order, hholds, hinorder, hall, hstate⟩ :=
          Functions.ofDefinitions_order hapart.formals.words hfunctions
        obtain ⟨hreached, hsound⟩ := Functions.Sound.foldlM_resolveAt hsettled hholds hinorder
          (fun id => (hall id).1) hstate
        have hin : ∀ category ∈ callTargets, category ∈ .markovs :: Category.expanded := by decide
        refine hsound.inBounds_of_comesTo
          (hclosed category (hin category hcategory) definition hmem expr htext).parensClosed
          (fun call hcall => ?_) hcomes
        rw [hsound.holds.calls_eq hsound.isNameText] at hcall
        have hlt := Dictionary.id_lt_of_mem_callsAmong hcall
        rw [List.length_map] at hlt
        exact (hreached.resolved call.id).2 ((hall call.id).2 hlt)
  · intro error herror
    rcases hapart.inlineFunctions_error herror with ⟨place, hcircular⟩ |
      ⟨functions, line, locals, expr, -, hcalls⟩
    · contradiction
    · obtain ⟨fault, place, hlocated⟩ := Functions.replaceCalls_isLocated hcalls
      contradiction

/-- An inner call has been replaced when the turn of the outer one comes. -/
theorem expand_in_bounds_nested :
    ∃ draft named functions call, Draft.ofInput { } (fun _ => .error .notFound) "m".toList
        "g(v)=v^2\nf(u,w)=if(u>w)then(g(u))else(g(w))\nx'=f(g(x),3)".toList = .ok draft ∧
      isIdentifier ({ } : Settings).arrayVariable = true ∧
      draft.symbols.inlineNames true = .ok named ∧
      named.ReplacesCallsIn draft.scope true functions 3 [] "f(g(x),3)".toList ∧
      functions.ComesTo 3 [] "f(g(x),3)".toList call "f((x^2),3)".toList ∧
      functions.InBounds "f((x^2),3)".toList call := by
  have hrun : (do
      let draft ← Draft.ofInput { } (fun _ => .error .notFound) "m".toList
        "g(v)=v^2\nf(u,w)=if(u>w)then(g(u))else(g(w))\nx'=f(g(x),3)".toList
      let named ← draft.symbols.inlineNames true
      let resolved ← Functions.ofDefinitions draft.scope true (named.get .functions)
      let calls := resolved.1.names.calls "f(g(x),3)".toList
      let current ← (calls.drop 1).foldrM
        (fun call expr => resolved.1.replaceCall 3 [] expr call) "f(g(x),3)".toList
      return (named.get .equations, calls, current)) =
        .ok ([⟨3, ['x'], "f(g(x),3)".toList, []⟩], [⟨1, ['f'], 0, 1⟩, ⟨0, ['g'], 2, 3⟩],
          "f((x^2),3)".toList) := by
    decide +kernel
  obtain ⟨draft, hdraft, hrun⟩ := bind_eq_ok_iff.1 hrun
  obtain ⟨named, hnamed, hrun⟩ := bind_eq_ok_iff.1 hrun
  obtain ⟨⟨functions, definitions⟩, hfunctions, hrun⟩ := bind_eq_ok_iff.1 hrun
  obtain ⟨current, hcurrent, hrun⟩ := bind_eq_ok_iff.1 hrun
  obtain ⟨hequations, hrun⟩ := Prod.mk.inj (pure_eq_ok_iff.1 hrun)
  obtain ⟨hcalls, rfl⟩ := Prod.mk.inj hrun
  have harray : isIdentifier ({ } : Settings).arrayVariable = true := by decide
  have hmem : ⟨3, ['x'], "f(g(x),3)".toList, []⟩ ∈ named.get .equations :=
    hequations ▸ List.mem_singleton_self _
  have hreplaces : named.ReplacesCallsIn draft.scope true functions 3 [] "f(g(x),3)".toList :=
    .text hfunctions (by decide) hmem (List.mem_singleton_self _)
  have hcomes : functions.ComesTo 3 [] "f(g(x),3)".toList ⟨1, ['f'], 0, 1⟩
      "f((x^2),3)".toList := by
    rw [hcalls] at hcurrent
    exact ⟨[], _, hcalls, hcurrent⟩
  exact ⟨draft, named, functions, _, hdraft, harray, hnamed, hreplaces, hcomes,
    ((expand_in_bounds hdraft harray true).2 named hnamed).1 _ _ _ _ hreplaces _ _ hcomes⟩

end Draft

end SymbolTable

end OdeModel
