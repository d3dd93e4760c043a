import OdeModel.Proofs.Inlining.Clearing
import OdeModel.Proofs.Inlining.CallValues

/-!
# The phases of an expansion

What each phase of an expansion does to the definitions of each category, and what both of
them leave alone: an expression changes, or the entries of a process, and nothing else.
-/

namespace OdeModel

/-- What the expansion keeps of a definition. -/
def Definition.frame (category : Category) (definition : Definition) : Definition :=
  if category = .markovs then { definition with args := [] }
  else if category ∈ Category.expanded then { definition with expr := [] }
  else definition

@[simp] theorem Definition.name_frame (category : Category) (definition : Definition) :
    (definition.frame category).name = definition.name := by
  unfold frame
  split
  · rfl
  · split <;> rfl

theorem Definition.frame_of_mem_expanded {category : Category} (h : category ∈ Category.expanded)
    (definition : Definition) : definition.frame category = { definition with expr := [] } := by
  have hmarkovs : category ≠ .markovs := by
    rintro rfl
    exact absurd h (by decide)
  rw [frame, if_neg hmarkovs, if_pos h]

/-- What stays of a definition when the table is expanded. -/
structure Definition.Keeps (category : Category) (old new : Definition) : Prop where
  line : new.line = old.line
  name : new.name = old.name
  args : category ≠ .markovs → new.args = old.args
  length_args : new.args.length = old.args.length
  expr : category ∉ Category.expanded → new.expr = old.expr

/-- The second table has the definitions of the first one in their places, but for what an
expansion changes. -/
def SymbolTable.Keeps (table table' : SymbolTable) : Prop :=
  ∀ category, List.Forall₂ (Definition.Keeps category) (table.get category) (table'.get category)

namespace Definition.Keeps

variable {category : Category} {old new : Definition}

theorem refl (definition : Definition) : definition.Keeps category definition :=
  ⟨rfl, rfl, fun _ => rfl, rfl, fun _ => rfl⟩

theorem trans {middle : Definition} (h : old.Keeps category middle)
    (h' : middle.Keeps category new) : old.Keeps category new where
  line := h'.line.trans h.line
  name := h'.name.trans h.name
  args := fun hne => (h'.args hne).trans (h.args hne)
  length_args := h'.length_args.trans h.length_args
  expr := fun hnot => (h'.expr hnot).trans (h.expr hnot)

/-- The expressions of a category that is expanded may change. -/
theorem of_expanded (hexpanded : category ∈ Category.expanded) (definition : Definition)
    (expr : Text) : definition.Keeps category { definition with expr } :=
  ⟨rfl, rfl, fun _ => rfl, rfl, fun hnot => absurd hexpanded hnot⟩

/-- The entries of a process may change one by one. -/
theorem of_markovs (definition : Definition) {args : List Text}
    (hlength : args.length = definition.args.length) :
    definition.Keeps .markovs { definition with args } :=
  ⟨rfl, rfl, fun hne => absurd rfl hne, hlength, fun _ => rfl⟩

/-- A definition of an expanded category is kept when all but its expression is. -/
theorem of_frame (hexpanded : category ∈ Category.expanded)
    (h : new.frame category = old.frame category) : old.Keeps category new := by
  rw [frame_of_mem_expanded hexpanded, frame_of_mem_expanded hexpanded] at h
  obtain ⟨hline, hname, -, hargs⟩ := Definition.mk.inj h
  exact ⟨hline, hname, fun _ => hargs, congrArg List.length hargs,
    fun hnot => absurd hexpanded hnot⟩

/-- A definition that is not expanded stays as it is. -/
theorem eq (h : old.Keeps category new) (hmarkovs : category ≠ .markovs)
    (hexpanded : category ∉ Category.expanded) : new = old := by
  cases old
  cases new
  congr
  · exact h.line
  · exact h.name
  · exact h.expr hexpanded
  · exact h.args hmarkovs

theorem frame_eq (h : old.Keeps category new) : new.frame category = old.frame category := by
  unfold frame
  split
  next hmarkovs =>
    have hexpanded : category ∉ Category.expanded := by
      rw [hmarkovs]
      decide
    rw [h.line, h.name, h.expr hexpanded]
  next hmarkovs =>
    split
    next => rw [h.line, h.name, h.args hmarkovs]
    next hexpanded => exact h.eq hmarkovs hexpanded

end Definition.Keeps

namespace SymbolTable.Keeps

variable {table table' table'' : SymbolTable} {category : Category}

theorem refl (table : SymbolTable) : table.Keeps table :=
  fun _ => List.forall₂_same.2 fun definition _ => .refl definition

theorem trans (h : table.Keeps table') (h' : table'.Keeps table'') : table.Keeps table'' :=
  fun category => forall₂_trans (fun _ _ _ hfirst hsecond => hfirst.trans hsecond) (h category)
    (h' category)

/-- A category that is not expanded stays as it is. -/
theorem get_eq (h : table.Keeps table') (hmarkovs : category ≠ .markovs)
    (hexpanded : category ∉ Category.expanded) : table'.get category = table.get category := by
  rw [← List.forall₂_eq_eq_eq]
  exact (h category).flip.imp fun _ _ hkeeps => hkeeps.eq hmarkovs hexpanded

end SymbolTable.Keeps

/-- Definitions of an expanded category are kept when all but their expressions are. -/
theorem Definition.forall₂_keeps_of_frame {category : Category} {old new : List Definition}
    (hexpanded : category ∈ Category.expanded)
    (h : new.map (Definition.frame category) = old.map (Definition.frame category)) :
    List.Forall₂ (Definition.Keeps category) old new := by
  rw [← List.forall₂_eq_eq_eq, List.forall₂_map_left_iff, List.forall₂_map_right_iff] at h
  exact h.flip.imp fun _ _ => .of_frame hexpanded

/-- The second table has the definitions of the first one in their places, but for what the
expansion changes. -/
def SymbolTable.SameFrames (table table' : SymbolTable) : Prop :=
  ∀ category, (table'.get category).map (Definition.frame category) =
    (table.get category).map (Definition.frame category)

namespace SymbolTable.SameFrames

variable {table table' table'' : SymbolTable}

theorem refl (table : SymbolTable) : table.SameFrames table := fun _ => rfl

theorem of_keeps (h : table.Keeps table') : table.SameFrames table' := by
  intro category
  rw [← List.forall₂_eq_eq_eq, List.forall₂_map_left_iff, List.forall₂_map_right_iff]
  exact (h category).flip.imp fun _ _ hkeeps => hkeeps.frame_eq

theorem trans (h : table.SameFrames table') (h' : table'.SameFrames table'') :
    table.SameFrames table'' := fun category => (h' category).trans (h category)

theorem namesOf_eq (h : table.SameFrames table') (category : Category) :
    Inlining.namesOf table' category = Inlining.namesOf table category := by
  have hnames := congrArg (List.map Definition.name) (h category)
  simpa [Inlining.namesOf, Function.comp_def] using hnames

/-- A category that is not expanded stays as it is. -/
theorem get_eq (h : table.SameFrames table') {category : Category}
    (hcategory : category ∉ .markovs :: Category.expanded) :
    table'.get category = table.get category := by
  rw [List.mem_cons, not_or] at hcategory
  have hid : Definition.frame category = id := by
    funext definition
    rw [Definition.frame, if_neg hcategory.1, if_neg hcategory.2, id]
  have hframes := h category
  rwa [hid, List.map_id, List.map_id] at hframes

end SymbolTable.SameFrames

/-! ### Names -/

namespace Inlining

open SymbolTable

/-- Rewriting keeps all but the texts that it is for. -/
theorem Glossary.keeps_rewritten {source : Category} (hsource : source ∈ Category.inlined)
    (glossary : Glossary) (category : Category) (definition : Definition) :
    definition.Keeps category (glossary.rewritten source category definition) := by
  have hexpanded : source ∈ Category.expanded ∧
      ∀ target ∈ laterThan source, target ∈ Category.expanded := by
    revert source
    decide
  unfold rewritten
  split
  next hown => exact .of_expanded (hown ▸ hexpanded.1) definition _
  next =>
    split
    next hmarkovs =>
      subst hmarkovs
      exact .of_markovs definition (List.length_map _)
    next =>
      split
      next hlater => exact .of_expanded (hexpanded.2 category hlater) definition _
      next => exact .refl definition

theorem Inlines.sameFrames {source : Category} (hsource : source ∈ Category.inlined)
    {glossary : Glossary} {table table' : SymbolTable}
    (h : Inlines source glossary table table') : table.SameFrames table' := by
  intro category
  rw [h.get_eq, List.map_map]
  exact List.map_congr_left fun definition _ =>
    (glossary.keeps_rewritten hsource category definition).frame_eq

end Inlining

namespace SymbolTable

open Inlining

variable {table table' : SymbolTable} {scope : Scope} {parenthesize : Bool}

theorem inlineNames_sameFrames (hnames : HasNames table)
    (h : table.inlineNames parenthesize = .ok table') : table.SameFrames table' :=
  foldlM_inlineCategory_induction (fun _ hsource => hsource) hnames h (SameFrames.refl table)
    fun _ hsource _ _ _ hinlines hframes => hframes.trans (hinlines.sameFrames hsource)

/-! ### Functions -/

/-- Some categories can be changed one after the other when each of them can be changed. -/
theorem exists_foldlM_set {change : Definition → Except ModelError Definition}
    {targets : List Category} (hnodup : targets.Nodup)
    (h : ∀ target ∈ targets, ∃ changed, (table.get target).mapM change = .ok changed) :
    ∃ table', targets.foldlM (fun (table : SymbolTable) target => do
      return table.set target (← (table.get target).mapM change)) table = .ok table' := by
  induction targets generalizing table with
  | nil => exact ⟨table, rfl⟩
  | cons target later ih =>
      obtain ⟨hnew, hnodup⟩ := List.nodup_cons.1 hnodup
      rw [List.forall_mem_cons] at h
      obtain ⟨⟨changed, hchanged⟩, hlater⟩ := h
      have hnext : ∀ category ∈ later,
          ∃ result, ((table.set target changed).get category).mapM change = .ok result := by
        intro category hmem
        have hne : category ≠ target := fun heq => hnew (heq ▸ hmem)
        rw [get_set_of_ne _ _ hne]
        exact hlater category hmem
      obtain ⟨table', hrest⟩ := ih hnodup hnext
      refine ⟨table', ?_⟩
      rw [List.foldlM_cons, bind_eq_ok_iff]
      exact ⟨_, bind_eq_ok_iff.2 ⟨changed, hchanged, rfl⟩, hrest⟩

/-- The functions of a table can be inlined when they can be resolved and the calls of all
texts can be replaced. -/
theorem exists_inlineFunctions (hne : table.get .functions ≠ []) {functions : Functions}
    {definitions : List Definition}
    (hof : Functions.ofDefinitions scope parenthesize (table.get .functions) =
      .ok (functions, definitions))
    (hlater : ∀ target ∈ laterThan .functions, ∃ changed,
      (table.get target).mapM functions.replaceIn = .ok changed)
    (hmarkovs : ∃ changed, (table.get .markovs).mapM functions.replaceInArgs = .ok changed) :
    ∃ table', table.inlineFunctions scope parenthesize = .ok table' ∧
      InlinesCalls scope parenthesize functions table table' := by
  have htargets : (laterThan .functions).Nodup ∧ .functions ∉ laterThan .functions ∧
      .markovs ∉ laterThan .functions := by decide
  obtain ⟨hnodup, hfunctions, hmarkov⟩ := htargets
  have hne' : Category.markovs ≠ .functions := by decide
  obtain ⟨changed, hchanged⟩ := hmarkovs
  have hbehind : ∀ target ∈ laterThan .functions, ∃ changed,
      ((table.set .functions definitions).get target).mapM functions.replaceIn = .ok changed := by
    intro target htarget
    have hfunction : target ≠ .functions := fun heq => hfunctions (heq ▸ htarget)
    rw [get_set_of_ne _ _ hfunction]
    exact hlater target htarget
  obtain ⟨expanded, hexpanded⟩ := exists_foldlM_set hnodup hbehind
  have hentries : (expanded.get .markovs).mapM functions.replaceInArgs = .ok changed := by
    rw [(get_foldlM_set hnodup hexpanded).2 _ hmarkov, get_set_of_ne _ _ hne']
    exact hchanged
  have hrun : table.inlineFunctions scope parenthesize = .ok (expanded.set .markovs changed) := by
    rw [inlineFunctions, if_neg (by simpa using hne)]
    exact bind_eq_ok_iff.2 ⟨_, hof, bind_eq_ok_iff.2 ⟨_, hexpanded,
      bind_eq_ok_iff.2 ⟨_, hentries, rfl⟩⟩⟩
  obtain ⟨functions', h⟩ := inlinesCalls_of_inlineFunctions hne hrun
  have hsame := (Prod.mk.inj (Except.ok.inj (hof.symm.trans h.resolved))).1
  exact ⟨_, hrun, hsame ▸ h⟩

end SymbolTable

namespace Inlining

namespace Functions

theorem resolveAt_frame {state state' : Functions × List Definition} {index : Nat}
    (h : resolveAt state index = .ok state') :
    state'.2.map (Definition.frame .functions) = state.2.map (Definition.frame .functions) := by
  cases hget : state.2[index]? with
  | none =>
      unfold resolveAt at h
      simp only [hget] at h
      cases h
      rfl
  | some definition =>
      obtain ⟨expr, template, -, -, rfl⟩ := (resolveAt_eq_ok_iff hget).1 h
      rw [List.map_set]
      exact set_eq_self (by rw [List.getElem?_map, hget]; rfl)

theorem foldlM_resolveAt_frame {order : List Nat} {state state' : Functions × List Definition}
    (h : order.foldlM resolveAt state = .ok state') :
    state'.2.map (Definition.frame .functions) = state.2.map (Definition.frame .functions) :=
  foldlM_keeps (p := fun current =>
      current.2.map (Definition.frame .functions) = state.2.map (Definition.frame .functions))
    (fun _ _ _ _ hsame hnext => (resolveAt_frame hnext).trans hsame) rfl h

theorem ofDefinitions_frame {scope : Scope} {parenthesize : Bool} {functions : Functions}
    {definitions definitions' : List Definition}
    (h : ofDefinitions scope parenthesize definitions = .ok (functions, definitions')) :
    definitions'.map (Definition.frame .functions) =
      definitions.map (Definition.frame .functions) := by
  unfold ofDefinitions at h
  obtain ⟨names, -, h⟩ := bind_eq_ok_iff.1 h
  obtain ⟨order, -, h⟩ := bind_eq_ok_iff.1 h
  exact foldlM_resolveAt_frame h

end Functions

end Inlining

namespace SymbolTable

open Inlining

variable {table table' : SymbolTable} {scope : Scope} {parenthesize : Bool}

theorem InlinesCalls.keeps {functions : Functions}
    (h : InlinesCalls scope parenthesize functions table table') : table.Keeps table' := by
  have hexpanded : .functions ∈ Category.expanded ∧
      ∀ target ∈ laterThan .functions, target ∈ Category.expanded := by decide
  intro category
  by_cases hmem : category ∈ .functions :: callTargets
  · simp only [callTargets, List.mem_cons] at hmem
    rcases hmem with rfl | rfl | hmem
    · exact Definition.forall₂_keeps_of_frame hexpanded.1
        (Functions.ofDefinitions_frame h.resolved)
    · refine (mapM_eq_ok_iff.1 h.markovs).imp fun old new hnew => ?_
      obtain ⟨args, hargs, hnew⟩ := bind_eq_ok_iff.1 hnew
      cases hnew
      exact .of_markovs old (mapM_eq_ok_iff.1 hargs).length_eq.symm
    · refine (mapM_eq_ok_iff.1 (h.later category hmem)).imp fun old new hnew => ?_
      obtain ⟨expr, -, hnew⟩ := bind_eq_ok_iff.1 hnew
      cases hnew
      exact .of_expanded (hexpanded.2 category hmem) old expr
  · rw [h.other category hmem]
    exact Keeps.refl table category

theorem inlineFunctions_keeps (h : table.inlineFunctions scope parenthesize = .ok table') :
    table.Keeps table' := by
  by_cases hempty : table.get .functions = []
  · rw [inlineFunctions, if_pos (by simp [hempty])] at h
    cases h
    exact Keeps.refl table
  · obtain ⟨functions, hinlines⟩ := inlinesCalls_of_inlineFunctions hempty h
    exact hinlines.keeps

/-- Inlining functions touches functions, processes and what is expanded after functions. -/
theorem inlineFunctions_get_of_not_mem {category : Category}
    (hcategory : category ∉ .functions :: callTargets)
    (h : table.inlineFunctions scope parenthesize = .ok table') :
    table'.get category = table.get category := by
  by_cases hempty : table.get .functions = []
  · rw [inlineFunctions, if_pos (by simp [hempty])] at h
    cases h
    rfl
  · obtain ⟨functions, hinlines⟩ := inlinesCalls_of_inlineFunctions hempty h
    exact hinlines.other category hcategory

theorem inlineFunctions_sameFrames (h : table.inlineFunctions scope parenthesize = .ok table') :
    table.SameFrames table' := .of_keeps (inlineFunctions_keeps h)

/-- The expansion of a table keeps the places of its definitions, and all of them but the
expressions that are expanded. -/
theorem expand_sameFrames (hnames : HasNames table)
    (h : table.expand scope parenthesize = .ok table') : table.SameFrames table' := by
  obtain ⟨named, hnamed, hexpanded⟩ := bind_eq_ok_iff.1 h
  exact (inlineNames_sameFrames hnames hnamed).trans (inlineFunctions_sameFrames hexpanded)

end SymbolTable

end OdeModel
