import OdeModel.Proofs.Inlining.Resolution
import OdeModel.Proofs.Statement.Entries

/-!
# Inlining of names is complete

The three categories of names are eliminated one after the other. What a category
puts into the expressions of the later ones holds none of its own names any more,
and none of the names that were eliminated before; the later categories take care
of theirs. So no name is left in the end, and inlining again changes nothing.
-/

namespace OdeModel

/-! ### Tables -/

namespace SymbolTable

theorem ext_get {table table' : SymbolTable}
    (h : ∀ category, table.get category = table'.get category) : table = table' := by
  have hindex : ∀ i : Fin 19, ∃ category ∈ Category.all, category.index = i := by decide
  cases table with
  | mk records =>
      cases table' with
      | mk records' =>
          congr 1
          apply Vector.ext
          intro i hi
          obtain ⟨category, -, hcategory⟩ := hindex ⟨i, hi⟩
          simpa [get, hcategory] using h category

/-- The table with a change made to every definition of some categories. -/
def mapAll (change : Category → Definition → Definition) (targets : List Category)
    (table : SymbolTable) : SymbolTable :=
  targets.foldl
    (fun table target => table.set target ((table.get target).map (change target))) table

theorem get_mapAll {change : Category → Definition → Definition} {targets : List Category}
    (hnodup : targets.Nodup) (table : SymbolTable) (category : Category) :
    (table.mapAll change targets).get category =
      if category ∈ targets then (table.get category).map (change category)
      else table.get category := by
  unfold mapAll
  induction targets generalizing table with
  | nil => simp
  | cons target later ih =>
      obtain ⟨hnew, hnodup⟩ := List.nodup_cons.1 hnodup
      rw [List.foldl_cons, ih hnodup]
      by_cases hsame : category = target
      · subst hsame
        rw [if_neg hnew, if_pos List.mem_cons_self, get_set_self]
      · simp only [get_set_of_ne _ _ hsame, List.mem_cons, hsame, false_or]

end SymbolTable

namespace Inlining

open Glossary

/-! ### One category -/

/-- The categories in which the names of a category are replaced. -/
def targetsOf (source : Category) : List Category := source :: .markovs :: laterThan source

/-- The texts of a definition in which names are replaced. -/
def expandedTexts (category : Category) (definition : Definition) : List Text :=
  if category = .markovs then definition.args else [definition.expr]

/-- The names that stand for themselves in a definition. -/
def formalsOf (category : Category) (definition : Definition) : List Text :=
  if category = .functions then definition.args else []

/-- The second table is the first one with the names of a category inlined. -/
structure Inlines (source : Category) (glossary : Glossary) (table table' : SymbolTable) :
    Prop where
  resolved : Resolved (table.get source) glossary
  own : table'.get source = glossary.definitions
  later : ∀ target ∈ laterThan source,
    table'.get target = (table.get target).map (glossary.replaceIn target)
  markovs : table'.get .markovs = (table.get .markovs).map glossary.replaceInArgs
  other : ∀ category, category ∉ targetsOf source → table'.get category = table.get category

theorem laterThan_spec {source : Category} (hsource : source ∈ Category.inlined) :
    source ∉ laterThan source ∧ .markovs ∉ laterThan source ∧ source ≠ .markovs ∧
      source ≠ .functions ∧ (laterThan source).Nodup := by
  revert source
  decide

/-- A definition of a category with the names of another category replaced. -/
def Glossary.rewritten (glossary : Glossary) (source category : Category)
    (definition : Definition) : Definition :=
  if category = source then glossary.explain definition
  else if category = .markovs then glossary.replaceInArgs definition
  else if category ∈ laterThan source then glossary.replaceIn category definition
  else definition

theorem rewritten_spec {source : Category} {glossary : Glossary}
    (hsource : source ∈ Category.inlined) (category : Category) (definition : Definition) :
    let rewritten := glossary.rewritten source category definition
    rewritten.name = definition.name ∧
      formalsOf category rewritten = formalsOf category definition ∧
      expandedTexts category rewritten = if category ∈ targetsOf source then
        (expandedTexts category definition).map fun text =>
          (glossary.replace (formalsOf category definition) text).1
      else expandedTexts category definition := by
  obtain ⟨-, hmarkovs, hne, hfunctions, -⟩ := laterThan_spec hsource
  unfold Glossary.rewritten
  by_cases hown : category = source
  · subst hown
    simp [targetsOf, expandedTexts, formalsOf, hne, hfunctions, explain]
  · by_cases hmarkov : category = .markovs
    · subst hmarkov
      simp [targetsOf, expandedTexts, formalsOf, hown, replaceInArgs]
    · by_cases hlater : category ∈ laterThan source
      · simp [targetsOf, expandedTexts, formalsOf, hown, hmarkov, hlater, replaceIn]
      · simp [targetsOf, hown, hmarkov, hlater]

theorem Inlines.unique {source : Category} {glossary : Glossary} {table first second : SymbolTable}
    (h : Inlines source glossary table first) (h' : Inlines source glossary table second) :
    first = second := by
  apply SymbolTable.ext_get
  intro category
  by_cases hmem : category ∈ targetsOf source
  · rcases List.mem_cons.1 hmem with rfl | hmem
    · rw [h.own, h'.own]
    · rcases List.mem_cons.1 hmem with rfl | hmem
      · rw [h.markovs, h'.markovs]
      · rw [h.later category hmem, h'.later category hmem]
  · rw [h.other category hmem, h'.other category hmem]

/-- What a glossary makes of a table, category by category. -/
theorem get_inlined {source : Category} (hsource : source ∈ Category.inlined)
    (glossary : Glossary) (table : SymbolTable) (category : Category) :
    (((table.mapAll glossary.replaceIn (laterThan source)).set .markovs
      (((table.mapAll glossary.replaceIn (laterThan source)).get .markovs).map
        glossary.replaceInArgs)).set source glossary.definitions).get category =
      if category = source then glossary.definitions
      else (table.get category).map (glossary.rewritten source category) := by
  obtain ⟨-, hmarkovs, -, -, hnodup⟩ := laterThan_spec hsource
  unfold rewritten
  split
  next hown => rw [hown, SymbolTable.get_set_self]
  next hown =>
    rw [SymbolTable.get_set_of_ne _ _ hown]
    by_cases hmarkov : category = .markovs
    · subst hmarkov
      rw [SymbolTable.get_set_self, SymbolTable.get_mapAll hnodup, if_neg hmarkovs]
      simp only [if_true]
    · rw [SymbolTable.get_set_of_ne _ _ hmarkov, SymbolTable.get_mapAll hnodup]
      simp only [if_neg hmarkov]
      split
      next => rfl
      next => exact (List.map_id _).symm

/-- Inlining a category that has a glossary gives what the glossary makes of it. -/
theorem inlineCategory_spec {parenthesize : Bool} {table table' : SymbolTable}
    {source : Category} (hsource : source ∈ Category.inlined)
    (hnames : ∀ definition ∈ table.get source, Nameable definition) :
    inlineCategory parenthesize table source = .ok table' ↔
      ∃ glossary, ofDefinitions parenthesize (table.get source) = .ok glossary ∧
        Inlines source glossary table table' := by
  obtain ⟨hown, hmarkovs, hne, -, -⟩ := laterThan_spec hsource
  obtain ⟨hexists, hresolved⟩ := ofDefinitions_spec parenthesize hnames
  unfold inlineCategory
  split
  next hempty =>
    rw [List.isEmpty_iff] at hempty
    have hnone : ∀ glossary, ofDefinitions parenthesize (table.get source) = .ok glossary →
        Inlines source glossary table table := by
      intro glossary hglossary
      have hres := (hresolved glossary hglossary).1
      have hdefinitions : glossary.definitions = [] := by rw [hres.definitions_eq, hempty]; rfl
      have hself : ∀ exclude expr, (glossary.replace exclude expr).1 = expr := fun exclude expr =>
        hres.covers.replace_eq_self fun run _ hmem => by simp [hdefinitions] at hmem
      refine ⟨hres, by rw [hempty, hdefinitions], fun target _ => ?_, ?_, fun _ _ => rfl⟩
      · exact (List.map_id'' (fun definition => by simp [replaceIn, hself]) _).symm
      · exact (List.map_id'' (fun definition => by simp [replaceInArgs, hself]) _).symm
    constructor
    · intro h
      cases h
      obtain ⟨glossary, hglossary⟩ := hexists.2 (by
        rw [hempty]
        refine ⟨List.nodup_nil, fun name hcycle => ?_⟩
        obtain ⟨_, ⟨_, hmem, -⟩, -⟩ := Relation.TransGen.head'_iff.1 hcycle
        simp at hmem)
      exact ⟨glossary, hglossary, hnone glossary hglossary⟩
    · rintro ⟨glossary, hglossary, hinlines⟩
      rw [(hnone glossary hglossary).unique hinlines]
  next =>
    have hresult : ∀ glossary, ofDefinitions parenthesize (table.get source) = .ok glossary →
        Inlines source glossary table
          (((table.mapAll glossary.replaceIn (laterThan source)).set .markovs
            (((table.mapAll glossary.replaceIn (laterThan source)).get .markovs).map
              glossary.replaceInArgs)).set source glossary.definitions) := by
      intro glossary hglossary
      refine ⟨(hresolved glossary hglossary).1, ?_, fun target htarget => ?_, ?_,
        fun category hcategory => ?_⟩
      · rw [get_inlined hsource, if_pos rfl]
      · have hsame : target ≠ source := fun heq => hown (heq ▸ htarget)
        have hmarkov : target ≠ .markovs := fun heq => hmarkovs (heq ▸ htarget)
        rw [get_inlined hsource, if_neg hsame]
        unfold rewritten
        simp only [if_neg hsame, if_neg hmarkov, if_pos htarget]
      · rw [get_inlined hsource, if_neg hne.symm]
        unfold rewritten
        simp only [if_neg hne.symm, if_true]
      · simp only [targetsOf, List.mem_cons, not_or] at hcategory
        rw [get_inlined hsource, if_neg hcategory.1]
        unfold rewritten
        simp only [if_neg hcategory.1, if_neg hcategory.2.1, if_neg hcategory.2.2]
        exact List.map_id _
    rw [bind_eq_ok_iff]
    constructor
    · rintro ⟨glossary, hglossary, h⟩
      cases h
      exact ⟨glossary, hglossary, hresult glossary hglossary⟩
    · rintro ⟨glossary, hglossary, hinlines⟩
      refine ⟨glossary, hglossary, ?_⟩
      rw [← (hresult glossary hglossary).unique hinlines]
      rfl

/-- A category is inlined when its names differ and none mentions itself over others. -/
theorem exists_inlineCategory {parenthesize : Bool} {table : SymbolTable} {source : Category}
    (hnames : ∀ definition ∈ table.get source, Nameable definition)
    (hnodup : ((table.get source).map Definition.name).Nodup)
    (hacyclic : Acyclic (table.get source)) :
    ∃ table', inlineCategory parenthesize table source = .ok table' := by
  obtain ⟨glossary, hglossary⟩ := (ofDefinitions_spec parenthesize hnames).1.2 ⟨hnodup, hacyclic⟩
  unfold inlineCategory
  split
  next => exact ⟨table, rfl⟩
  next =>
    rw [hglossary]
    exact ⟨_, rfl⟩

/-! ### Names that are eliminated -/

/-- No text of the category has one of the given names left, except the formal
arguments of functions. -/
def FreeOf (names : List Text) (table : SymbolTable) (category : Category) : Prop :=
  ∀ definition ∈ table.get category, ∀ text ∈ expandedTexts category definition,
    ∀ run ∈ Text.runs text, run ∈ names → run ∈ formalsOf category definition

/-- The names of a category. -/
def namesOf (table : SymbolTable) (category : Category) : List Text :=
  (table.get category).map Definition.name

namespace Inlines

variable {source : Category} {glossary : Glossary} {table table' : SymbolTable}

/-- Every definition is the old one with the names in its texts replaced, where names
are replaced at all. -/
theorem get_eq (h : Inlines source glossary table table') (category : Category) :
    table'.get category = (table.get category).map (glossary.rewritten source category) := by
  unfold rewritten
  split
  next hown => rw [hown, h.own, h.resolved.definitions_eq]
  next hown =>
    split
    next hmarkovs => rw [hmarkovs, h.markovs]
    next hmarkovs =>
      split
      next hlater => rw [h.later category hlater]
      next hlater =>
        rw [List.map_id', h.other]
        simp [targetsOf, hown, hmarkovs, hlater]

theorem exists_of_mem (h : Inlines source glossary table table')
    (hsource : source ∈ Category.inlined) {category : Category} {definition : Definition}
    (hmem : definition ∈ table'.get category) :
    ∃ old ∈ table.get category, definition.name = old.name ∧
      formalsOf category definition = formalsOf category old ∧
      expandedTexts category definition = if category ∈ targetsOf source then
        (expandedTexts category old).map fun text =>
          (glossary.replace (formalsOf category old) text).1
      else expandedTexts category old := by
  rw [h.get_eq] at hmem
  obtain ⟨old, hold, rfl⟩ := List.mem_map.1 hmem
  exact ⟨old, hold, rewritten_spec hsource category old⟩

/-- The names of a category are gone from all texts in which they are replaced. -/
theorem freeOf_own (h : Inlines source glossary table table')
    (hsource : source ∈ Category.inlined) {category : Category}
    (htarget : category ∈ targetsOf source) : FreeOf (namesOf table source) table' category := by
  intro definition hmem text htext run hrun hname
  obtain ⟨old, -, -, hformals, htexts⟩ := h.exists_of_mem hsource hmem
  rw [htexts, if_pos htarget] at htext
  obtain ⟨before, -, rfl⟩ := List.mem_map.1 htext
  rw [hformals]
  rw [h.resolved.covers.mem_runs_replace_iff, h.resolved.map_name] at hrun
  rcases hrun with ⟨-, hformal | hfree⟩ | ⟨resolved, hresolved, -, -, hin⟩
  · exact hformal
  · exact absurd hname hfree
  · exact absurd hname (h.resolved.mem_runs resolved hresolved run hin).1

/-- Names that are gone do not come back with the names of a category that is free of
them. -/
theorem freeOf_of_freeOf (h : Inlines source glossary table table')
    (hsource : source ∈ Category.inlined) {names : List Text} {category : Category}
    (hown : FreeOf names table source) (hfree : FreeOf names table category) :
    FreeOf names table' category := by
  obtain ⟨-, -, hne, hfunctions, -⟩ := laterThan_spec hsource
  intro definition hmem text htext run hrun hname
  obtain ⟨old, hold, -, hformals, htexts⟩ := h.exists_of_mem hsource hmem
  rw [hformals]
  rw [htexts] at htext
  split at htext
  next htarget =>
    obtain ⟨before, hbefore, rfl⟩ := List.mem_map.1 htext
    rw [h.resolved.covers.mem_runs_replace_iff] at hrun
    rcases hrun with ⟨hstay, -⟩ | ⟨resolved, hresolved, -, -, hin⟩
    · exact hfree old hold before hbefore run hstay hname
    · obtain ⟨-, other, hother, hrun⟩ := h.resolved.mem_runs resolved hresolved run hin
      have hformal := hown other hother other.expr (by simp [expandedTexts, hne]) run hrun hname
      simp [formalsOf, hfunctions] at hformal
  next => exact hfree old hold text htext run hrun hname

theorem namesOf_eq (h : Inlines source glossary table table')
    (hsource : source ∈ Category.inlined) (category : Category) :
    namesOf table' category = namesOf table category := by
  rw [namesOf, h.get_eq, List.map_map]
  exact List.map_congr_left fun definition _ => (rewritten_spec hsource category definition).1

end Inlines

/-- A category whose names stand nowhere is inlined without any change. -/
theorem inlineCategory_eq_self {parenthesize : Bool} {table : SymbolTable} {source : Category}
    (hsource : source ∈ Category.inlined)
    (hnames : ∀ definition ∈ table.get source, Nameable definition)
    (hnodup : (namesOf table source).Nodup)
    (hfree : ∀ category ∈ targetsOf source, FreeOf (namesOf table source) table category) :
    inlineCategory parenthesize table source = .ok table := by
  obtain ⟨-, -, hne, hfunctions, -⟩ := laterThan_spec hsource
  obtain ⟨hexists, hresolved⟩ := ofDefinitions_spec parenthesize hnames
  -- a cycle would start at a definition that mentions a name
  have hacyclic : Acyclic (table.get source) := by
    intro name hcycle
    obtain ⟨_, ⟨definition, hmem, -, hrun, hname⟩, -⟩ := Relation.TransGen.head'_iff.1 hcycle
    have hformal := hfree source List.mem_cons_self definition hmem definition.expr
      (by simp [expandedTexts, hne]) _ hrun hname
    simp [formalsOf, hfunctions] at hformal
  obtain ⟨glossary, hglossary⟩ := hexists.2 ⟨hnodup, hacyclic⟩
  obtain ⟨hres, -⟩ := hresolved glossary hglossary
  have hself : ∀ category ∈ targetsOf source, ∀ definition ∈ table.get category,
      ∀ text ∈ expandedTexts category definition,
        (glossary.replace (formalsOf category definition) text).1 = text := by
    intro category hcategory definition hmem text htext
    apply hres.covers.replace_eq_self
    intro run hrun hname
    rw [hres.map_name] at hname
    exact hfree category hcategory definition hmem text htext run hrun hname
  have hmap : ∀ {change : Definition → Definition} {definitions : List Definition},
      (∀ definition ∈ definitions, change definition = definition) →
        definitions = definitions.map change := fun h =>
    ((List.map_congr_left h).trans (List.map_id _)).symm
  rw [inlineCategory_spec hsource hnames]
  refine ⟨glossary, hglossary, hres, ?_, fun target htarget => ?_, ?_, fun _ _ => rfl⟩
  · rw [hres.definitions_eq]
    apply hmap
    intro definition hmem
    have hexpr := hself source List.mem_cons_self definition hmem definition.expr
      (by simp [expandedTexts, hne])
    rw [formalsOf, if_neg hfunctions] at hexpr
    rw [explain, hexpr]
  · have hother : target ≠ .markovs := fun heq => (laterThan_spec hsource).2.1 (heq ▸ htarget)
    apply hmap
    intro definition hmem
    have hexpr := hself target (List.mem_cons_of_mem _ (List.mem_cons_of_mem _ htarget))
      definition hmem definition.expr (by simp [expandedTexts, hother])
    unfold replaceIn
    exact congrArg (fun expr => { definition with expr }) hexpr
  · apply hmap
    intro definition hmem
    have hargs : definition.args.map (fun entry => (glossary.replace [] entry).1) =
        definition.args :=
      (List.map_congr_left fun entry hentry => hself .markovs (by simp [targetsOf])
        definition hmem entry (by simpa [expandedTexts] using hentry)).trans (List.map_id _)
    rw [replaceInArgs, hargs]

/-! ### All categories -/

/-- The names of some categories are gone from all texts in which they are replaced. -/
structure Eliminated (sources : List Category) (table : SymbolTable) : Prop where
  nodup : ∀ source ∈ sources, (namesOf table source).Nodup
  freeOf : ∀ source ∈ sources, ∀ category ∈ targetsOf source,
    FreeOf (namesOf table source) table category

theorem Eliminated.nil (table : SymbolTable) : Eliminated [] table := ⟨by simp, by simp⟩

/-- All names of the categories to be inlined can stand in an expression. -/
def HasNames (table : SymbolTable) : Prop :=
  ∀ source ∈ Category.inlined, ∀ definition ∈ table.get source, Nameable definition

theorem HasNames.of_namesOf_eq {table table' : SymbolTable} (h : HasNames table)
    (heq : ∀ category, namesOf table' category = namesOf table category) : HasNames table' := by
  intro source hsource definition hmem
  have hname : definition.name ∈ namesOf table source := by
    rw [← heq]
    exact List.mem_map_of_mem hmem
  obtain ⟨old, hold, hsame⟩ := List.mem_map.1 hname
  have hnameable := h source hsource old hold
  unfold Nameable at hnameable ⊢
  rwa [hsame] at hnameable

/-- Inlining one more category eliminates its names and brings none of the others
back. -/
theorem Eliminated.inlines {done : List Category} {source : Category} {glossary : Glossary}
    {table table' : SymbolTable} (hdone : Eliminated done table)
    (hsource : source ∈ Category.inlined) (hlater : ∀ earlier ∈ done, source ∈ targetsOf earlier)
    (h : Inlines source glossary table table') : Eliminated (done ++ [source]) table' := by
  constructor
  · intro earlier hearlier
    rw [h.namesOf_eq hsource]
    rcases List.mem_append.1 hearlier with hearlier | hearlier
    · exact hdone.nodup earlier hearlier
    · rw [List.mem_singleton.1 hearlier, namesOf, ← h.resolved.map_name]
      exact h.resolved.covers.names.nodup
  · intro earlier hearlier category hcategory
    rw [h.namesOf_eq hsource]
    rcases List.mem_append.1 hearlier with hearlier | hearlier
    · -- what comes in now was rid of the earlier names before
      exact h.freeOf_of_freeOf hsource
          (hdone.freeOf earlier hearlier source (hlater earlier hearlier))
        (hdone.freeOf earlier hearlier category hcategory)
    · rw [List.mem_singleton.1 hearlier] at hcategory ⊢
      exact h.freeOf_own hsource hcategory

/-- What inlining one category keeps is kept by inlining some of them. -/
theorem foldlM_inlineCategory_induction {p : SymbolTable → Prop} {parenthesize : Bool}
    {sources : List Category} (hsources : ∀ source ∈ sources, source ∈ Category.inlined)
    {table table' : SymbolTable} (hnames : HasNames table)
    (h : sources.foldlM (inlineCategory parenthesize) table = .ok table') (htable : p table)
    (step : ∀ source ∈ sources, ∀ glossary table table',
      Inlines source glossary table table' → p table → p table') : p table' := by
  refine (foldlM_keeps (p := fun table => HasNames table ∧ p table) ?_ ⟨hnames, htable⟩ h).2
  rintro source hsource table next ⟨hnames, htable⟩ hnext
  have hinlined := hsources source hsource
  obtain ⟨glossary, -, hinlines⟩ := (inlineCategory_spec hinlined (hnames source hinlined)).1 hnext
  exact ⟨hnames.of_namesOf_eq (hinlines.namesOf_eq hinlined),
    step source hsource glossary table next hinlines htable⟩

theorem Eliminated.foldlM_inlineCategory {parenthesize : Bool} {done sources : List Category}
    {table table' : SymbolTable} (hdone : Eliminated done table)
    (hsources : ∀ source ∈ sources, source ∈ Category.inlined)
    (hlater : (done ++ sources).Pairwise fun earlier source => source ∈ targetsOf earlier)
    (hnames : HasNames table)
    (h : sources.foldlM (inlineCategory parenthesize) table = .ok table') :
    Eliminated (done ++ sources) table' ∧
      ∀ category, namesOf table' category = namesOf table category := by
  induction sources generalizing done table with
  | nil =>
      cases h
      exact ⟨by simpa using hdone, fun _ => rfl⟩
  | cons source later ih =>
      rw [List.foldlM_cons] at h
      obtain ⟨next, hnext, hrest⟩ := bind_eq_ok_iff.1 h
      have hsource := hsources source List.mem_cons_self
      obtain ⟨glossary, -, hinlines⟩ :=
        (inlineCategory_spec hsource (hnames source hsource)).1 hnext
      have hnames' := hinlines.namesOf_eq hsource
      have hbehind : ∀ earlier ∈ done, source ∈ targetsOf earlier := fun earlier hearlier =>
        (List.pairwise_append.1 hlater).2.2 earlier hearlier source List.mem_cons_self
      have hsplit : done ++ source :: later = done ++ [source] ++ later := by simp
      rw [hsplit] at hlater ⊢
      obtain ⟨heliminated, hkept⟩ := ih (hdone.inlines hsource hbehind hinlines)
        (fun other hother => hsources other (List.mem_cons_of_mem _ hother)) hlater
        (hnames.of_namesOf_eq hnames') hrest
      exact ⟨heliminated, fun category => (hkept category).trans (hnames' category)⟩

/-- Categories whose names are gone are inlined without any change. -/
theorem Eliminated.foldlM_eq_self {parenthesize : Bool} {sources : List Category}
    {table : SymbolTable} (h : Eliminated sources table)
    (hsources : ∀ source ∈ sources, source ∈ Category.inlined) (hnames : HasNames table) :
    sources.foldlM (inlineCategory parenthesize) table = .ok table := by
  induction sources with
  | nil => rfl
  | cons source later ih =>
      have hsource := hsources source List.mem_cons_self
      rw [List.foldlM_cons, inlineCategory_eq_self hsource (hnames source hsource)
        (h.nodup source List.mem_cons_self) (h.freeOf source List.mem_cons_self)]
      exact ih ⟨fun other hother => h.nodup other (List.mem_cons_of_mem _ hother),
          fun other hother => h.freeOf other (List.mem_cons_of_mem _ hother)⟩
        fun other hother => hsources other (List.mem_cons_of_mem _ hother)

end Inlining

namespace SymbolTable

open Inlining

/-- The name is that of a constant, a temporary or a number. -/
def IsInlinedName (table : SymbolTable) (name : Text) : Prop :=
  ∃ source ∈ Category.inlined, ∃ definition ∈ table.get source, definition.name = name

/-- All names of a model that has been read can stand in an expression. -/
theorem hasNames_of_ofInput {settings : Settings} {files : FileReader} {name input : Text}
    {draft : Draft} (hdraft : Draft.ofInput settings files name input = .ok draft) :
    HasNames draft.symbols := by
  intro source hsource definition hmem
  have hdefining : ∀ source ∈ Category.inlined, source ∈ Category.defining := by decide
  exact (Text.isNameText_of_isIdentifier
    (Draft.isIdentifier_of_mem hdraft source (hdefining source hsource) definition hmem)).2

theorem eliminated_inlineNames {parenthesize : Bool} {table table' : SymbolTable}
    (hnames : HasNames table) (h : table.inlineNames parenthesize = .ok table') :
    Eliminated Category.inlined table' ∧
      ∀ category, namesOf table' category = namesOf table category := by
  exact (Eliminated.nil table).foldlM_inlineCategory (fun _ hsource => hsource) (by decide) hnames h

/-- Inlining the names of a model that has been read is complete: no text that is
expanded holds one of them, except where a function has a formal argument of that
name, and inlining again changes nothing. -/
theorem inlineNames_complete {settings : Settings} {files : FileReader} {name input : Text}
    {draft : Draft} (hdraft : Draft.ofInput settings files name input = .ok draft)
    {parenthesize : Bool} {table : SymbolTable}
    (htable : draft.symbols.inlineNames parenthesize = .ok table) :
    (∀ category ∈ [Category.algebraic, .auxiliary, .boundaries, .equations, .special, .volterra],
      ∀ definition ∈ table.get category, ∀ run ∈ Text.runs definition.expr,
        ¬ draft.symbols.IsInlinedName run) ∧
    (∀ definition ∈ table.get .markovs, ∀ entry ∈ definition.args, ∀ run ∈ Text.runs entry,
      ¬ draft.symbols.IsInlinedName run) ∧
    (∀ definition ∈ table.get .functions, ∀ run ∈ Text.runs definition.expr,
      draft.symbols.IsInlinedName run → run ∈ definition.args) ∧
    table.inlineNames parenthesize = .ok table := by
  have hnames := hasNames_of_ofInput hdraft
  obtain ⟨heliminated, hkept⟩ := eliminated_inlineNames hnames htable
  have hformal : ∀ category, (∀ source ∈ Category.inlined, category ∈ targetsOf source) →
      ∀ definition ∈ table.get category, ∀ text ∈ expandedTexts category definition,
        ∀ run ∈ Text.runs text, draft.symbols.IsInlinedName run →
          run ∈ formalsOf category definition := by
    rintro category htarget definition hmem text htext run hrun ⟨source, hsource, old, hold, rfl⟩
    apply heliminated.freeOf source hsource category (htarget source hsource) definition hmem
      text htext old.name hrun
    rw [hkept]
    exact List.mem_map_of_mem hold
  refine ⟨fun category hcategory definition hmem run hrun hinlined => ?_,
    fun definition hmem entry hentry run hrun hinlined => ?_,
    fun definition hmem run hrun hinlined => ?_, ?_⟩
  · have htargets : ∀ category ∈ [Category.algebraic, .auxiliary, .boundaries, .equations,
        .special, .volterra], (∀ source ∈ Category.inlined, category ∈ targetsOf source) ∧
          category ≠ .markovs ∧ category ≠ .functions := by decide
    obtain ⟨htarget, hmarkovs, hfunctions⟩ := htargets category hcategory
    have hmem' := hformal category htarget definition hmem definition.expr
      (by simp [expandedTexts, hmarkovs]) run hrun hinlined
    simp [formalsOf, hfunctions] at hmem'
  · have hmem' := hformal .markovs (by decide) definition hmem entry
      (by simpa [expandedTexts] using hentry) run hrun hinlined
    simp [formalsOf] at hmem'
  · have hmem' := hformal .functions (by decide) definition hmem definition.expr
      (by simp [expandedTexts]) run hrun hinlined
    simpa [formalsOf] using hmem'
  · exact heliminated.foldlM_eq_self (fun _ hsource => hsource) (hnames.of_namesOf_eq hkept)

/-- A constant brings the name of a number along, which is inlined after it. -/
theorem inlineNames_complete_chained :
    ∃ draft table, Draft.ofInput { } (fun _ => .error .notFound) "m".toList
        "!c=2*n\nnumber n=3\nx'=c*c".toList = .ok draft ∧
      draft.symbols.inlineNames true = .ok table ∧
      (table.get .equations).map Definition.expr = ["(2*3)*(2*3)".toList] ∧
      table.inlineNames true = .ok table := by
  have hrun : (do
      let draft ← Draft.ofInput { } (fun _ => .error .notFound) "m".toList
        "!c=2*n\nnumber n=3\nx'=c*c".toList
      let table ← draft.symbols.inlineNames true
      return (table.get .equations).map Definition.expr) = .ok ["(2*3)*(2*3)".toList] := by
    decide +kernel
  obtain ⟨draft, hdraft, hrun⟩ := bind_eq_ok_iff.1 hrun
  obtain ⟨table, htable, hrun⟩ := bind_eq_ok_iff.1 hrun
  exact ⟨draft, table, hdraft, htable, pure_eq_ok_iff.1 hrun,
    (inlineNames_complete hdraft htable).2.2.2⟩

end SymbolTable

end OdeModel
