import OdeModel.Proofs.Inlining.Meaning

/-!
# The values of a model whose names are inlined

Inlining one category keeps the values of all expressions and the bindings of the
names, so the next category finds what the one before it found. In the end no
expression depends on the bindings any more.
-/

namespace OdeModel

namespace Inlining

/-- Definitions that mention each other as others do over some steps are acyclic when
those are. -/
theorem Acyclic.of_transGen {definitions others : List Definition} (h : Acyclic others)
    (hmentions : ∀ name other, Mentions definitions name other →
      Relation.TransGen (Mentions others) name other) : Acyclic definitions :=
  fun name hcycle => h name (Relation.TransGen.closed hmentions name name hcycle)

theorem Acyclic.mono {definitions others : List Definition} (h : Acyclic others)
    (hsub : ∀ definition ∈ definitions, definition ∈ others) : Acyclic definitions := by
  apply h.of_transGen
  rintro name other ⟨definition, hmem, hname, hrun, hother⟩
  refine Relation.TransGen.single ⟨definition, hsub definition hmem, hname, hrun, ?_⟩
  obtain ⟨last, hlast, rfl⟩ := List.mem_map.1 hother
  exact List.mem_map_of_mem (hsub last hlast)

/-- What a resolved definition mentions was mentioned by the old one over some steps. -/
theorem Glossary.Resolved.transGen_mentions {definitions others : List Definition}
    {glossary : Glossary} (h : Resolved definitions glossary)
    (hsub : ∀ definition ∈ definitions, definition ∈ others) :
    ∀ old ∈ definitions, ∀ run ∈ Text.runs (glossary.explain old).expr,
      run ∈ others.map Definition.name →
        Relation.TransGen (Mentions others) old.name run := by
  apply h.induction (p := fun old => ∀ run ∈ Text.runs (glossary.explain old).expr,
    run ∈ others.map Definition.name → Relation.TransGen (Mentions others) old.name run)
  intro old hold ih run hrun hname
  rcases (h.covers.mem_runs_replace_iff [] old.expr run).1 hrun with
    ⟨hstay, -⟩ | ⟨definition, hmem, -, hmention, hin⟩
  · exact Relation.TransGen.single ⟨old, hsub old hold, rfl, hstay, hname⟩
  · rw [h.definitions_eq] at hmem
    obtain ⟨other, hother, rfl⟩ := List.mem_map.1 hmem
    have hdefined : other.name ∈ others.map Definition.name :=
      List.mem_map_of_mem (hsub other hother)
    exact Relation.TransGen.head ⟨old, hsub old hold, rfl, hmention, hdefined⟩
      (ih other hother hmention run hin hname)

end Inlining

namespace SymbolTable

open Inlining

/-- The constants, temporaries and numbers of a model. -/
def inlinedDefinitions (table : SymbolTable) : List Definition :=
  Category.inlined.flatMap table.get

/-- The names of constants, temporaries and numbers have the values of their own
definitions, all other names the given ones. -/
structure Binds (table : SymbolTable) (env bound : Environment) : Prop where
  defined : ∀ definition ∈ table.inlinedDefinitions,
    bound definition.name = (evalText bound definition.expr).toOption
  other : ∀ name, name ∉ table.inlinedDefinitions.map Definition.name → bound name = env name

/-- The constants, temporaries and numbers of the model have names of their own and do
not refer to each other in a circle. Their expressions and those of the given
categories are arithmetic. -/
structure Arithmetical (targets : List Category) (table : SymbolTable) : Prop where
  isFreeName : ∀ definition ∈ table.inlinedDefinitions, definition.name.IsFreeName
  nodup : (table.inlinedDefinitions.map Definition.name).Nodup
  acyclic : Acyclic table.inlinedDefinitions
  isArithmetic : ∀ category ∈ Category.inlined ++ targets, ∀ definition ∈ table.get category,
    ∀ expr ∈ expandedTexts category definition, expr.IsArithmetic

/-- The two tables have the same values, text by text, in some categories. -/
def SameValues (bound : Environment) (categories : List Category)
    (table table' : SymbolTable) : Prop :=
  ∀ category ∈ categories, List.Forall₂ (fun old new =>
    List.Forall₂ (fun expr expr' =>
        (evalText bound expr).toOption = (evalText bound expr').toOption)
      (expandedTexts category old) (expandedTexts category new))
    (table.get category) (table'.get category)

variable {table table' : SymbolTable} {targets : List Category} {env bound : Environment}

theorem mem_inlinedDefinitions {definition : Definition} :
    definition ∈ table.inlinedDefinitions ↔
      ∃ source ∈ Category.inlined, definition ∈ table.get source :=
  List.mem_flatMap

theorem SameValues.refl (bound : Environment) (categories : List Category)
    (table : SymbolTable) : SameValues bound categories table table :=
  fun _ _ => List.forall₂_same.2 fun _ _ => List.forall₂_same.2 fun _ _ => rfl

theorem SameValues.trans {categories : List Category} {first second third : SymbolTable}
    (h : SameValues bound categories first second)
    (h' : SameValues bound categories second third) :
    SameValues bound categories first third := by
  intro category hcategory
  refine forall₂_trans ?_ (h category hcategory) (h' category hcategory)
  intro _ _ _ hfirst hsecond
  exact forall₂_trans (fun _ _ _ heq heq' => heq.trans heq') hfirst hsecond

/-! ### One category -/

section Step

variable {source : Category} {glossary : Glossary}

theorem Arithmetical.of_source (h : table.Arithmetical targets)
    (hsource : source ∈ Category.inlined) :
    (∀ definition ∈ table.get source,
      definition ∈ table.inlinedDefinitions ∧ definition.name.IsFreeName ∧
        definition.expr.IsArithmetic) ∧
      ((table.get source).map Definition.name).Nodup ∧ Acyclic (table.get source) := by
  have hsub : ∀ definition ∈ table.get source, definition ∈ table.inlinedDefinitions :=
    fun definition hmem => mem_inlinedDefinitions.2 ⟨source, hsource, hmem⟩
  refine ⟨fun definition hmem => ⟨hsub definition hmem, h.isFreeName definition
    (hsub definition hmem), ?_⟩, ?_, h.acyclic.mono hsub⟩
  · apply h.isArithmetic source (List.mem_append_left _ hsource) definition hmem
    simp [expandedTexts, (laterThan_spec hsource).2.2.1]
  · have hsublist : (table.get source).Sublist table.inlinedDefinitions := by
      rw [inlinedDefinitions, List.flatMap_def]
      exact List.sublist_flatten_of_mem (List.mem_map_of_mem hsource)
    exact List.Nodup.sublist (hsublist.map _) h.nodup

/-- What a text of the category becomes when the names of another category are
inlined. -/
theorem expandedTexts_rewritten (glossary : Glossary) (hsource : source ∈ Category.inlined)
    {category : Category} (hcategory : category ≠ .functions) (definition : Definition) :
    expandedTexts category (glossary.rewritten source category definition) =
      (expandedTexts category definition).map fun expr =>
        if category ∈ targetsOf source then (glossary.replace [] expr).1 else expr := by
  rw [(rewritten_spec hsource category definition).2.2, formalsOf, if_neg hcategory]
  split
  next => rfl
  next => rw [List.map_id']

theorem Arithmetical.replace (h : table.Arithmetical targets)
    (hsource : source ∈ Category.inlined) (hparenthesize : glossary.parenthesize = true)
    (hinlines : Inlines source glossary table table') {expr : Text} (hexpr : expr.IsArithmetic) :
    (glossary.replace [] expr).1.IsArithmetic ∧ ∀ {env bound : Environment},
      table.Binds env bound →
        (evalText bound (glossary.replace [] expr).1).toOption =
          (evalText bound expr).toOption := by
  obtain ⟨hown, -, -⟩ := h.of_source hsource
  have hnames := fun definition hmem => (hown definition hmem).2.1
  have hexprs := fun definition hmem => (hown definition hmem).2.2
  obtain ⟨harithmetic, hvalue⟩ :=
    hinlines.resolved.evalText_replace hparenthesize hnames hexprs hexpr
  refine ⟨harithmetic, fun {env bound} hbinds => ?_⟩
  rw [hvalue, hinlines.resolved.rebind_eq_self hparenthesize hnames hexprs]
  exact fun definition hmem => hbinds.defined definition (hown definition hmem).1

theorem exists_of_mem_inlinedDefinitions (hsource : source ∈ Category.inlined)
    (hinlines : Inlines source glossary table table') {definition : Definition}
    (hmem : definition ∈ table'.inlinedDefinitions) :
    ∃ old ∈ table.inlinedDefinitions, definition.name = old.name ∧
      (definition.expr = old.expr ∨ definition.expr = (glossary.replace [] old.expr).1) := by
  obtain ⟨category, hcategory, hmem⟩ := mem_inlinedDefinitions.1 hmem
  obtain ⟨-, -, hmarkovs, hfunctions, -⟩ := laterThan_spec hcategory
  rw [hinlines.get_eq] at hmem
  obtain ⟨old, hold, rfl⟩ := List.mem_map.1 hmem
  refine ⟨old, mem_inlinedDefinitions.2 ⟨category, hcategory, hold⟩,
    (rewritten_spec hsource category old).1, ?_⟩
  have hexpr := expandedTexts_rewritten glossary hsource hfunctions old
  simp only [expandedTexts, if_neg hmarkovs, List.map_cons, List.map_nil, List.cons.injEq,
    and_true] at hexpr
  rw [hexpr]
  split
  next => exact Or.inr rfl
  next => exact Or.inl rfl

theorem map_name_of_inlines (hsource : source ∈ Category.inlined)
    (hinlines : Inlines source glossary table table') :
    table'.inlinedDefinitions.map Definition.name =
      table.inlinedDefinitions.map Definition.name := by
  rw [inlinedDefinitions, inlinedDefinitions, List.map_flatMap, List.map_flatMap]
  congr 1
  funext category
  exact hinlines.namesOf_eq hsource category

variable (h : table.Arithmetical targets) (htargets : Category.functions ∉ targets)
  (hsource : source ∈ Category.inlined)
  (hparenthesize : glossary.parenthesize = true) (hinlines : Inlines source glossary table table')
include h htargets hsource hparenthesize hinlines

/-- Inlining one category keeps values, where the names have those of their
definitions. -/
theorem sameValues_of_inlines (hbinds : table.Binds env bound) :
    SameValues bound (Category.inlined ++ targets) table table' := by
  intro category hcategory
  have hfunctions : category ≠ .functions := by
    rintro rfl
    rcases List.mem_append.1 hcategory with hcategory | hcategory
    · exact absurd hcategory (by decide)
    · exact htargets hcategory
  rw [hinlines.get_eq, List.forall₂_map_right_iff, List.forall₂_same]
  intro definition hmem
  rw [expandedTexts_rewritten glossary hsource hfunctions, List.forall₂_map_right_iff,
    List.forall₂_same]
  intro expr hexpr
  have harithmetic := h.isArithmetic category hcategory definition hmem expr hexpr
  split
  next => exact ((h.replace hsource hparenthesize hinlines harithmetic).2 hbinds).symm
  next => rfl

theorem isArithmetic_of_inlines : ∀ category ∈ Category.inlined ++ targets,
    ∀ definition ∈ table'.get category, ∀ expr ∈ expandedTexts category definition,
      expr.IsArithmetic := by
  intro category hcategory definition hmem expr hexpr
  have hfunctions : category ≠ .functions := by
    rintro rfl
    rcases List.mem_append.1 hcategory with hcategory | hcategory
    · exact absurd hcategory (by decide)
    · exact htargets hcategory
  rw [hinlines.get_eq] at hmem
  obtain ⟨old, hold, rfl⟩ := List.mem_map.1 hmem
  rw [expandedTexts_rewritten glossary hsource hfunctions] at hexpr
  obtain ⟨before, hbefore, rfl⟩ := List.mem_map.1 hexpr
  have harithmetic := h.isArithmetic category hcategory old hold before hbefore
  split
  next => exact (h.replace hsource hparenthesize hinlines harithmetic).1
  next => exact harithmetic

omit htargets hparenthesize in
theorem acyclic_of_inlines : Acyclic table'.inlinedDefinitions := by
  have hsub : ∀ definition ∈ table.get source, definition ∈ table.inlinedDefinitions :=
    fun definition hmem => mem_inlinedDefinitions.2 ⟨source, hsource, hmem⟩
  apply h.acyclic.of_transGen
  rintro name other ⟨definition, hmem, rfl, hrun, hother⟩
  rw [map_name_of_inlines hsource hinlines] at hother
  obtain ⟨old, hold, hname, hexpr⟩ := exists_of_mem_inlinedDefinitions hsource hinlines hmem
  rw [hname]
  rcases hexpr with hexpr | hexpr
  · exact Relation.TransGen.single ⟨old, hold, rfl, hexpr ▸ hrun, hother⟩
  · rw [hexpr, hinlines.resolved.covers.mem_runs_replace_iff] at hrun
    rcases hrun with ⟨hstay, -⟩ | ⟨resolved, hresolved, -, hmention, hin⟩
    · exact Relation.TransGen.single ⟨old, hold, rfl, hstay, hother⟩
    · -- a name that came in was mentioned over the definition it came with
      rw [hinlines.resolved.definitions_eq] at hresolved
      obtain ⟨first, hfirst, rfl⟩ := List.mem_map.1 hresolved
      have hdefined : first.name ∈ table.inlinedDefinitions.map Definition.name :=
        List.mem_map_of_mem (hsub first hfirst)
      exact Relation.TransGen.head ⟨old, hold, rfl, hmention, hdefined⟩
        (hinlines.resolved.transGen_mentions hsub first hfirst other hin hother)

theorem arithmetical_of_inlines : table'.Arithmetical targets where
  isFreeName := by
    intro definition hmem
    obtain ⟨old, hold, hname, -⟩ := exists_of_mem_inlinedDefinitions hsource hinlines hmem
    exact hname ▸ h.isFreeName old hold
  nodup := by
    rw [map_name_of_inlines hsource hinlines]
    exact h.nodup
  acyclic := acyclic_of_inlines h hsource hinlines
  isArithmetic := isArithmetic_of_inlines h htargets hsource hparenthesize hinlines

omit htargets in
theorem binds_of_inlines (hbinds : table.Binds env bound) : table'.Binds env bound where
  defined := by
    intro definition hmem
    obtain ⟨old, hold, hname, hexpr⟩ := exists_of_mem_inlinedDefinitions hsource hinlines hmem
    rw [hname, hbinds.defined old hold]
    rcases hexpr with hexpr | hexpr
    · rw [hexpr]
    · have harithmetic : old.expr.IsArithmetic := by
        obtain ⟨category, hcategory, hmem⟩ := mem_inlinedDefinitions.1 hold
        exact ((h.of_source hcategory).1 old hmem).2.2
      rw [hexpr, (h.replace hsource hparenthesize hinlines harithmetic).2 hbinds]
  other := by
    rw [map_name_of_inlines hsource hinlines]
    exact hbinds.other

end Step

/-! ### All categories -/

theorem Arithmetical.nameable (h : table.Arithmetical targets) : HasNames table := by
  intro source hsource definition hmem
  exact (Text.isNameText_of_isIdentifier ((h.of_source hsource).1 definition hmem).2.1.1).2

/-- Inlining some categories one after the other succeeds and keeps what the model has
to fulfil, the bindings of the names and the values. -/
theorem Arithmetical.foldlM_inlineCategory (h : table.Arithmetical targets)
    (htargets : Category.functions ∉ targets) {sources : List Category}
    (hsources : ∀ source ∈ sources, source ∈ Category.inlined) :
    ∃ table', sources.foldlM (inlineCategory true) table = .ok table' ∧
      table'.Arithmetical targets ∧ ∀ {env bound : Environment}, table.Binds env bound →
        SameValues bound (Category.inlined ++ targets) table table' := by
  induction sources generalizing table with
  | nil => exact ⟨table, rfl, h, fun {env bound} _ => SameValues.refl bound _ table⟩
  | cons source later ih =>
      obtain ⟨hsource, hlater⟩ := List.forall_mem_cons.1 hsources
      obtain ⟨-, hnodup, hacyclic⟩ := h.of_source hsource
      have hnames := h.nameable source hsource
      obtain ⟨next, hnext⟩ : ∃ next, inlineCategory true table source = .ok next :=
        exists_inlineCategory hnames hnodup hacyclic
      obtain ⟨glossary, hglossary, hinlines⟩ := (inlineCategory_spec hsource hnames).1 hnext
      have hparenthesize := ((Glossary.ofDefinitions_spec true hnames).2 glossary hglossary).2
      obtain ⟨table', hrest, harithmetical, hvalues⟩ :=
        ih (arithmetical_of_inlines h htargets hsource hparenthesize hinlines) hlater
      refine ⟨table', by rw [List.foldlM_cons, hnext]; exact hrest, harithmetical,
        fun {env bound} hbinds => ?_⟩
      exact (sameValues_of_inlines h htargets hsource hparenthesize hinlines hbinds).trans
        (hvalues (binds_of_inlines h hsource hparenthesize hinlines hbinds))

theorem Arithmetical.exists_resolved (h : table.Arithmetical targets) :
    ∃ glossary, Glossary.Resolved table.inlinedDefinitions glossary ∧
      glossary.parenthesize = true := by
  have hnameable : ∀ definition ∈ table.inlinedDefinitions, Nameable definition :=
    fun definition hmem => (Text.isNameText_of_isIdentifier (h.isFreeName definition hmem).1).2
  obtain ⟨hexists, hresolved⟩ := Glossary.ofDefinitions_spec true hnameable
  obtain ⟨glossary, hglossary⟩ := hexists.2 ⟨h.nodup, h.acyclic⟩
  exact ⟨glossary, hresolved glossary hglossary⟩

/-- In every environment there is one way to bind the names of constants, temporaries
and numbers. -/
theorem Arithmetical.exists_binds (h : table.Arithmetical targets) (env : Environment) :
    ∃ bound, table.Binds env bound ∧ ∀ other, table.Binds env other → other = bound := by
  have hexprs : ∀ definition ∈ table.inlinedDefinitions, definition.expr.IsArithmetic := by
    intro definition hmem
    obtain ⟨source, hsource, hmem⟩ := mem_inlinedDefinitions.1 hmem
    exact ((h.of_source hsource).1 definition hmem).2.2
  obtain ⟨glossary, hresolved, hparenthesize⟩ := h.exists_resolved
  have hbinds : table.Binds env (glossary.rebind env) := by
    refine ⟨fun definition hmem => ?_, fun name hname => ?_⟩
    · exact hresolved.rebind_name hparenthesize h.isFreeName hexprs env hmem
    · apply Glossary.rebind_of_none
      rwa [Glossary.definition?_eq_none_iff, hresolved.map_name]
  refine ⟨glossary.rebind env, hbinds, fun other hother => ?_⟩
  have hsame : ∀ definition ∈ table.inlinedDefinitions,
      other definition.name = glossary.rebind env definition.name := by
    apply hresolved.induction (p := fun definition =>
      other definition.name = glossary.rebind env definition.name)
    intro definition hmem ih
    rw [hother.defined definition hmem, hbinds.defined definition hmem]
    apply Environment.evalText_congr (hexprs definition hmem)
    intro run hrun
    by_cases hname : run ∈ table.inlinedDefinitions.map Definition.name
    · obtain ⟨mentioned, hmentioned, rfl⟩ := List.mem_map.1 hname
      exact ih mentioned hmentioned hrun
    · rw [hother.other run hname, hbinds.other run hname]
  funext name
  by_cases hname : name ∈ table.inlinedDefinitions.map Definition.name
  · obtain ⟨definition, hmem, rfl⟩ := List.mem_map.1 hname
    exact hsame definition hmem
  · rw [hother.other name hname, hbinds.other name hname]

/-- No target has a name left whose binding could matter. -/
theorem Arithmetical.evalText_inlineNames (h : table.Arithmetical targets)
    (h' : table'.Arithmetical targets) (htable : table.inlineNames true = .ok table')
    (hbinds : table.Binds env bound) {category : Category} (hcategory : category ∈ targets)
    (hfunctions : category ≠ .functions)
    (htarget : ∀ source ∈ Category.inlined, category ∈ targetsOf source)
    {definition : Definition} (hmem : definition ∈ table'.get category) :
    ∀ expr ∈ expandedTexts category definition,
      (evalText bound expr).toOption = (evalText env expr).toOption := by
  obtain ⟨heliminated, hkept⟩ := eliminated_inlineNames h.nameable htable
  intro expr hexpr
  apply Environment.evalText_congr
    (h'.isArithmetic category (List.mem_append_right _ hcategory) definition hmem expr hexpr)
  intro run hrun
  apply hbinds.other
  intro hname
  obtain ⟨named, hnamed, rfl⟩ := List.mem_map.1 hname
  obtain ⟨source, hsource, hnamed⟩ := mem_inlinedDefinitions.1 hnamed
  have hformal := heliminated.freeOf source hsource category (htarget source hsource)
    definition hmem expr hexpr named.name hrun (by
      rw [hkept]
      exact List.mem_map_of_mem hnamed)
  simp [formalsOf, hfunctions] at hformal

/-- The categories of expressions that are evaluated as they stand. -/
def evaluated : List Category :=
  [.algebraic, .auxiliary, .boundaries, .equations, .volterra, .markovs]

/-- Inlining names keeps values: a text has the value afterwards that it had before,
when every constant, temporary and number had the value of its own definition. -/
theorem inlineNames_value {table : SymbolTable} (h : table.Arithmetical evaluated) :
    ∃ table', table.inlineNames true = .ok table' ∧ ∀ env,
      ∃ bound, table.Binds env bound ∧ (∀ other, table.Binds env other → other = bound) ∧
        ∀ category ∈ evaluated,
          List.Forall₂ (fun old new =>
            List.Forall₂ (fun expr expr' =>
                ∀ value, evalText bound expr = .ok value ↔ evalText env expr' = .ok value)
              (expandedTexts category old) (expandedTexts category new))
            (table.get category) (table'.get category) := by
  obtain ⟨table', htable, h', hvalues⟩ :=
    h.foldlM_inlineCategory (by decide) fun _ hsource => hsource
  refine ⟨table', htable, fun env => ?_⟩
  obtain ⟨bound, hbinds, hunique⟩ := h.exists_binds env
  refine ⟨bound, hbinds, hunique, fun category hcategory => ?_⟩
  have htargets : ∀ category ∈ evaluated, category ≠ .functions ∧
      ∀ source ∈ Category.inlined, category ∈ targetsOf source := by decide
  obtain ⟨hfunctions, htarget⟩ := htargets category hcategory
  have hbound := hvalues hbinds category (List.mem_append_right _ hcategory)
  have hfree : List.Forall₂ (fun new new' =>
      List.Forall₂ (fun expr expr' =>
          (evalText bound expr).toOption = (evalText env expr').toOption)
        (expandedTexts category new) (expandedTexts category new'))
      (table'.get category) (table'.get category) :=
    List.forall₂_same.2 fun new hmem => List.forall₂_same.2 <|
      h.evalText_inlineNames h' htable hbinds hcategory hfunctions htarget hmem
  refine forall₂_trans (fun old new new' hold hnew => ?_) hbound hfree
  refine forall₂_trans (fun expr middle expr' hexpr hmiddle => ?_) hold hnew
  exact ok_iff_of_toOption_eq (hexpr.trans hmiddle)

/-- A constant that refers to a number, and an equation that refers to both. -/
def powers : SymbolTable :=
  ((SymbolTable.empty.push .constants ⟨1, ['c'], "n+1".toList, []⟩).push .numbers
    ⟨2, ['n'], ['3'], []⟩).push .equations ⟨3, ['x'], "2*c^n".toList, []⟩

theorem arithmetical_powers : powers.Arithmetical evaluated := by
  have hdefinitions : powers.inlinedDefinitions =
      [⟨1, ['c'], "n+1".toList, []⟩, ⟨2, ['n'], ['3'], []⟩] := by decide
  let c : Symbol := .ofText ['c'] rfl
  let n : Symbol := .ofText ['n'] rfl
  let figure : (d : Char) → (h : d.isDigit = true) → Phrase .operand := fun d h =>
    .literal ⟨[d], by simp, by simp [h]⟩
  have hsum : Text.IsArithmetic "n+1".toList :=
    ⟨.plus false (.term (.factor (.unsigned (.base (.name n)))))
      (.factor (.unsigned (.base (figure '1' rfl)))), rfl, by simp [Phrase.callees, figure]⟩
  have hthree : Text.IsArithmetic ['3'] :=
    ⟨.term (.factor (.unsigned (.base (figure '3' rfl)))), rfl, by simp [Phrase.callees, figure]⟩
  have hpower : Text.IsArithmetic "2*c^n".toList :=
    ⟨.term (.times false (.factor (.unsigned (.base (figure '2' rfl))))
      (.unsigned (.power false (.name c) (.unsigned (.base (.name n)))))), rfl,
      by simp [Phrase.callees, figure]⟩
  constructor
  case isFreeName =>
    rw [hdefinitions]
    simp only [List.forall_mem_cons]
    exact ⟨by unfold Text.IsFreeName; decide, by unfold Text.IsFreeName; decide, by simp⟩
  case nodup =>
    rw [hdefinitions]
    decide
  case acyclic =>
    rw [hdefinitions]
    have hedge : ∀ name other, Mentions [⟨1, ['c'], "n+1".toList, []⟩, ⟨2, ['n'], ['3'], []⟩]
        name other → name = ['c'] ∧ other = ['n'] := by
      rintro name other ⟨definition, hmem, rfl, hrun, hother⟩
      have hsumRuns : Text.runs "n+1".toList = [['n'], ['1']] := by decide
      have hthreeRuns : Text.runs ['3'] = [['3']] := by decide
      simp only [List.mem_cons, List.not_mem_nil, or_false] at hmem
      simp only [List.map_cons, List.map_nil, List.mem_cons, List.not_mem_nil, or_false] at hother
      rcases hmem with rfl | rfl
      · rw [hsumRuns] at hrun
        rcases hother with rfl | rfl
        · simp at hrun
        · exact ⟨rfl, rfl⟩
      · rw [hthreeRuns] at hrun
        rcases hother with rfl | rfl <;> simp at hrun
    intro name hcycle
    obtain ⟨_, hfirst, -⟩ := Relation.TransGen.head'_iff.1 hcycle
    obtain ⟨_, -, hlast⟩ := Relation.TransGen.tail'_iff.1 hcycle
    have hname := (hedge _ _ hfirst).1.symm.trans (hedge _ _ hlast).2
    contradiction
  case isArithmetic =>
    have hexprs : ∀ category ∈ Category.inlined ++ evaluated, ∀ definition ∈ powers.get category,
        ∀ expr ∈ expandedTexts category definition,
          expr = "n+1".toList ∨ expr = ['3'] ∨ expr = "2*c^n".toList := by decide
    intro category hcategory definition hmem expr hexpr
    rcases hexprs category hcategory definition hmem expr hexpr with rfl | rfl | rfl
    · exact hsum
    · exact hthree
    · exact hpower

/-- The constant comes into the equation as a group, and the number into both. -/
theorem inlineNames_value_powers :
    powers.Arithmetical evaluated ∧ ∃ table' bound, powers.inlineNames true = .ok table' ∧
      powers.Binds Environment.empty bound ∧
      (table'.get .equations).map Definition.expr = ["2*(3+1)^3".toList] ∧
      ∀ value, evalText bound "2*c^n".toList = .ok value ↔
        evalText Environment.empty "2*(3+1)^3".toList = .ok value := by
  refine ⟨arithmetical_powers, ?_⟩
  obtain ⟨table', htable, hvalues⟩ := inlineNames_value arithmetical_powers
  obtain ⟨bound, hbinds, -, hvalues⟩ := hvalues Environment.empty
  have hequations : (powers.inlineNames true).map (fun table => table.get .equations) =
      .ok [⟨3, ['x'], "2*(3+1)^3".toList, []⟩] := by decide +kernel
  rw [htable] at hequations
  have hget : table'.get .equations = [⟨3, ['x'], "2*(3+1)^3".toList, []⟩] :=
    Except.ok.inj hequations
  refine ⟨table', bound, htable, hbinds, by rw [hget]; rfl, ?_⟩
  have hold : powers.get .equations = [⟨3, ['x'], "2*c^n".toList, []⟩] := by decide
  have hequation := hvalues .equations (by decide)
  rw [hget, hold, List.forall₂_cons] at hequation
  have hexpr := hequation.1
  rw [expandedTexts, if_neg (by decide), expandedTexts, if_neg (by decide),
    List.forall₂_cons] at hexpr
  exact hexpr.1

end SymbolTable

end OdeModel
