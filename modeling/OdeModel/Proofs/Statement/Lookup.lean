import OdeModel.Model
import OdeModel.Proofs.Inlining.Phases
import OdeModel.Proofs.Statement.Defined
import OdeModel.Proofs.Statement.Recorded

/-!
# Names that are looked up

A name is looked up category by category, and initial values are one of the categories. So
the definition of a name is found when its category comes before theirs; behind them an
initial value that is given to the name is found in its place.
-/

namespace OdeModel

/-- The categories of defined names that are searched behind the initial values. -/
def Category.behindInitial : List Category := [.markovs, .tables, .wieners, .sets]

/-- A definition of the category has a name that it defines. -/
def Category.Defines (category : Category) : Prop :=
  category ∈ Category.defining ∨ category = .algebraic

instance (category : Category) : Decidable category.Defines :=
  inferInstanceAs (Decidable (_ ∨ _))

theorem Category.Defines.mem {category : Category} (h : category.Defines) :
    category ∈ Category.defining ++ [Category.algebraic] := by
  cases h with
  | inl hdefining => exact List.mem_append_left _ hdefining
  | inr halgebraic => exact List.mem_append_right _ (List.mem_singleton.2 halgebraic)

/-- What is found under the name of a definition of a category. -/
def SymbolTable.foundFor (table : SymbolTable) (category : Category) (definition : Definition) :
    Category × Definition :=
  if category ∈ Category.behindInitial then
    match (table.get .initialConditions).find? fun entry => entry.name == definition.name with
    | some initial => (.initialConditions, initial)
    | none => (category, definition)
  else (category, definition)

namespace SymbolTable

variable {table table' : SymbolTable} {category other : Category}
  {definition entry : Definition} {name : Text}

theorem mem_namesIn_iff : name ∈ table.namesIn category ↔
    ∃ definition ∈ table.get category, definition.name = name := List.mem_map

/-- The names that a table defines can be told apart, and no others are taken for them. -/
structure NamesApart (table : SymbolTable) : Prop where
  nodup : table.definedNames.Nodup
  unnamed : ∀ category ∈ [.boundaries, .exports], ∀ name ∈ table.namesIn category, name = []
  sign : ∀ name ∈ table.namesIn .globals, Text.isIdentifier name = false

theorem NamesApart.of_namesIn_eq (h : table.NamesApart)
    (heq : ∀ category, table'.namesIn category = table.namesIn category) : table'.NamesApart := by
  have hdefined : table'.definedNames = table.definedNames := by
    unfold definedNames algebraicNames
    rw [heq .algebraic, List.flatMap_congr fun category _ => heq category]
  exact ⟨hdefined ▸ h.nodup, fun category hcategory => heq category ▸ h.unnamed category hcategory,
    heq .globals ▸ h.sign⟩

/-- The names that definitions of a category are known by. Some have none. -/
def givenNames (table : SymbolTable) (category : Category) : List Text :=
  (table.namesIn category).filter fun name => !name.isEmpty

theorem mem_givenNames (hmem : definition ∈ table.get category) (hne : definition.name ≠ []) :
    definition.name ∈ table.givenNames category :=
  List.mem_filter.2 ⟨List.mem_map_of_mem hmem, by simpa using hne⟩

theorem eq_of_nodup_givenNames (h : (table.givenNames category).Nodup)
    (hdefinition : definition ∈ table.get category) (hentry : entry ∈ table.get category)
    (hname : definition.name = entry.name) (hne : definition.name ≠ []) : definition = entry := by
  simp only [givenNames, namesIn, List.filter_map] at h
  exact List.inj_on_of_nodup_map h
    (List.mem_filter.2 ⟨hdefinition, by simpa using hne⟩)
    (List.mem_filter.2 ⟨hentry, by simpa using hname ▸ hne⟩) hname

theorem NamesApart.nodup_givenNames (h : table.NamesApart) :
    ((Category.defining ++ [Category.algebraic]).flatMap table.givenNames).Nodup := by
  have hfilter : table.definedNames.filter (fun name => !name.isEmpty) =
      (Category.defining ++ [Category.algebraic]).flatMap table.givenNames := by
    simp only [definedNames, algebraicNames, List.filter_append, List.filter_flatMap,
      List.filter_filter, Bool.and_self, List.flatMap_append, List.flatMap_singleton]
    rfl
  exact hfilter ▸ h.nodup.filter _

/-- A defined name belongs to one definition only. -/
theorem NamesApart.unique (h : table.NamesApart) (hcategory : category.Defines)
    (hother : other.Defines) (hdefinition : definition ∈ table.get category)
    (hentry : entry ∈ table.get other) (hname : definition.name = entry.name)
    (hne : definition.name ≠ []) : category = other ∧ definition = entry := by
  obtain ⟨hown, hdisjoint⟩ := List.nodup_flatMap.1 h.nodup_givenNames
  obtain rfl : category = other := by
    by_contra hdiffer
    have hsymm : Std.Symm (Function.onFun List.Disjoint table.givenNames) :=
      ⟨fun _ _ => List.disjoint_symm⟩
    have hapart := hdisjoint.forall hcategory.mem hother.mem hdiffer
    exact hapart (mem_givenNames hdefinition hne) (hname ▸ mem_givenNames hentry (hname ▸ hne))
  exact ⟨rfl, eq_of_nodup_givenNames (hown category hcategory.mem) hdefinition hentry hname hne⟩

/-- The search ends at the first category that has the name. -/
theorem find?_eq_some_of (hne : name ≠ [])
    (hbefore : ∀ other : Category, other.index < category.index → name ∉ table.namesIn other)
    (hfound : ((table.get category).find? fun entry => entry.name == name) = some definition) :
    table.find? name = some (category, definition) := by
  have hsplit : ∀ category : Category,
      Category.all = Category.all.take category.index ++
        category :: Category.all.drop (category.index + 1) ∧
      ∀ other ∈ Category.all.take category.index, other.index < category.index := by
    intro category
    cases category <;> decide
  obtain ⟨hall, hearlier⟩ := hsplit category
  have hpred : (fun entry : Definition => !entry.name.isEmpty && entry.name == name) =
      fun entry => entry.name == name := by
    funext entry
    by_cases hsame : entry.name = name
    · simp [hsame, hne]
    · simp [hsame]
  rw [find?, List.findSome?_eq_some_iff, hpred]
  refine ⟨_, category, _, hall, by rw [hfound]; rfl, fun other hother => ?_⟩
  rw [Option.map_eq_none_iff, List.find?_eq_none]
  intro entry hentry hsame
  exact hbefore other (hearlier other hother)
    (mem_namesIn_iff.2 ⟨entry, hentry, by simpa using hsame⟩)

/-- Neither options nor global flags are found under the name of a definition. -/
theorem foundFor_not_mem (hcategory : category.Defines) :
    (table.foundFor category definition).1 ∉ [.options, .globals] := by
  have hdefines : ∀ category : Category, category.Defines →
      category ∉ [.options, .globals] := by
    intro category
    cases category <;> decide
  unfold foundFor
  split
  · split
    · simp
    · exact hdefines category hcategory
  · exact hdefines category hcategory

/-- What is found under a defined name. -/
theorem NamesApart.find?_eq (h : table.NamesApart) (hcategory : category.Defines)
    (hmem : definition ∈ table.get category) (hname : Text.isIdentifier definition.name = true) :
    table.find? definition.name = some (table.foundFor category definition) := by
  have hne : definition.name ≠ [] := by
    intro hnil
    rw [hnil] at hname
    contradiction
  -- only initial values can come before
  have hother : ∀ other : Category, other ≠ category → other ≠ .initialConditions →
      other ≠ .options → definition.name ∉ table.namesIn other := by
    intro other hdiffer hinitial hoptions hmem'
    obtain ⟨entry, hentry, hsame⟩ := mem_namesIn_iff.1 hmem'
    by_cases hdefines : other.Defines
    · exact hdiffer (h.unique hcategory hdefines hmem hentry hsame.symm hne).1.symm
    · have hrest : ∀ other : Category, ¬ other.Defines → other ≠ .initialConditions →
          other ≠ .options → other ∈ [.boundaries, .exports] ∨ other = .globals := by
        intro other
        cases other <;> decide
      rcases hrest other hdefines hinitial hoptions with hunnamed | rfl
      · exact hne (h.unnamed other hunnamed _ hmem')
      · rw [h.sign _ hmem'] at hname
        contradiction
  have hbehind : ∀ category : Category, category.Defines →
      category.index < Category.options.index ∧ (category ∉ Category.behindInitial →
        category.index < Category.initialConditions.index) := by
    intro category
    cases category <;> decide
  have hearlier : ∀ other : Category, other.index < category.index →
      other ≠ .initialConditions → definition.name ∉ table.namesIn other := by
    rintro other hlt hinitial
    refine hother other ?_ hinitial ?_
    · rintro rfl
      exact absurd hlt (Fin.lt_irrefl _)
    · rintro rfl
      exact absurd hlt (Fin.lt_asymm (hbehind category hcategory).1)
  have hfound : ((table.get category).find? fun entry => entry.name == definition.name) =
      some definition := by
    cases hresult : (table.get category).find? fun entry => entry.name == definition.name with
    | none => exact absurd (List.find?_eq_none.1 hresult definition hmem) (by simp)
    | some entry =>
        have hsame : entry.name = definition.name := by simpa using List.find?_some hresult
        have hentry := List.mem_of_find?_eq_some hresult
        rw [(h.unique hcategory hcategory hmem hentry hsame.symm hne).2]
  unfold foundFor
  split
  next hback =>
    split
    next initial hinitial =>
      have hlast : ∀ category ∈ Category.behindInitial,
          Category.initialConditions.index < category.index := by decide
      refine find?_eq_some_of hne (fun other hlt => hearlier other ?_ ?_) hinitial
      · exact Fin.lt_trans hlt (hlast category hback)
      · rintro rfl
        exact absurd hlt (Fin.lt_irrefl _)
    next hnone =>
      refine find?_eq_some_of hne (fun other hlt => ?_) hfound
      by_cases hinitial : other = .initialConditions
      · subst hinitial
        rintro hmem'
        obtain ⟨entry, hentry, hsame⟩ := mem_namesIn_iff.1 hmem'
        exact List.find?_eq_none.1 hnone entry hentry (by simpa using hsame)
      · exact hearlier other hlt hinitial
  next hfront =>
    refine find?_eq_some_of hne (fun other hlt => hearlier other hlt ?_) hfound
    rintro rfl
    exact absurd hlt (Fin.lt_asymm ((hbehind category hcategory).2 hfront))

end SymbolTable

namespace Draft

/-- The definition entered the draft together with its name, which was new in the scope. -/
def Reserved (start draft : Draft) (category : Category) (definition : Definition) : Prop :=
  category.Defines ∧ ∃ (old : Draft) (scope : Scope), Grows start old ∧
    old.scope.define definition.name = .ok scope ∧
    Grows ⟨old.symbols.push category definition, scope⟩ draft

variable {start draft : Draft} {category : Category} {definition : Definition}

theorem Grows.mem_get {old new : Draft} (h : Grows old new) :
    definition ∈ old.symbols.get category → definition ∈ new.symbols.get category := by
  intro hmem
  induction h with
  | refl => exact hmem
  | tail _ henters ih =>
      cases henters <;> exact SymbolTable.mem_get_push_iff.2 (Or.inl ih)

theorem Reserved.mem_get (h : Reserved start draft category definition) :
    definition ∈ draft.symbols.get category := by
  obtain ⟨-, old, scope, -, -, hgrows⟩ := h
  exact hgrows.mem_get (by simp)

theorem Reserved.tail {later : Draft} (h : Reserved start draft category definition)
    (henters : Enters draft later) : Reserved start later category definition := by
  obtain ⟨hcategory, old, scope, hold, hdefine, hgrows⟩ := h
  exact ⟨hcategory, old, scope, hold, hdefine, hgrows.tail henters⟩

/-- Every name of a scope was new when some definition entered with it. -/
theorem exists_reserved (hstart : start.scope.names = []) (h : Grows start draft) :
    ∀ name ∈ draft.scope.names,
      ∃ category definition, Reserved start draft category definition ∧ definition.name = name := by
  induction h with
  | refl => simp [hstart]
  | @tail middle last hgrows henters ih =>
      intro name hmem
      by_cases hold : name ∈ middle.scope.names
      · obtain ⟨category, definition, hreserved, hname⟩ := ih name hold
        exact ⟨category, definition, hreserved.tail henters, hname⟩
      · cases henters with
        | @named category definition scope hcategory hformals hdefine =>
            obtain ⟨-, rfl⟩ := Scope.define_eq_ok_iff.1 hdefine
            have hnew : name = definition.name := by simpa [hold] using hmem
            exact ⟨category, definition, ⟨hcategory, middle, _, hgrows, hdefine,
              Relation.ReflTransGen.refl⟩, hnew.symm⟩
        | bare => exact absurd hmem hold
        | initial => exact absurd hmem hold
        | setting => exact absurd hmem hold

/-- The names of a draft can be told apart. -/
theorem namesApart_of_ofInput {settings : Settings} {files : FileReader} {name input : Text}
    (h : ofInput settings files name input = .ok draft) : draft.symbols.NamesApart := by
  have hagrees := induction_on_entries h (Agrees.empty settings) fun _ _ => Agrees.enters
  have hrecorded := ofInput_isRecorded h
  refine ⟨hagrees.perm.nodup_iff.1 hagrees.nodup, fun category hcategory name hmem => ?_,
    fun name hmem => ?_⟩
  · obtain ⟨definition, hdefinition, rfl⟩ := SymbolTable.mem_namesIn_iff.1 hmem
    exact (hrecorded category definition hdefinition).unnamed hcategory
  · obtain ⟨definition, hdefinition, rfl⟩ := SymbolTable.mem_namesIn_iff.1 hmem
    exact (hrecorded .globals definition hdefinition).sign rfl

/-- A name is reserved once. -/
theorem Reserved.unique (happart : draft.symbols.NamesApart) {other : Category}
    {entry : Definition} (h : Reserved start draft category definition)
    (h' : Reserved start draft other entry) (hname : definition.name = entry.name) :
    category = other ∧ definition = entry := by
  have hne : definition.name ≠ [] := by
    intro hnil
    obtain ⟨-, old, scope, -, hdefine, -⟩ := h
    have hobjection := (Scope.define_eq_ok_iff.1 hdefine).1
    have hidentifier := (Scope.objection?_eq_none_iff.1 hobjection).1
    rw [hnil] at hidentifier
    contradiction
  exact happart.unique h.1 h'.1 h.mem_get h'.mem_get hname hne

/-- Each name of a model that has been read was reserved by one definition, and looking the
name up finds that definition, before the expansion as well as in its place after it; but
when the definition is a process, a table or a set and an initial value is given to the
name, the first such value is found instead. Options and global flags are never found. -/
theorem find?_reserved {settings : Settings} {files : FileReader} {path input name : Text}
    (hdraft : ofInput settings files path input = .ok draft) (hname : name ∈ draft.scope.names) :
    ∃ category definition, Reserved (Draft.empty settings) draft category definition ∧
      definition.name = name ∧
      (∀ other entry, Reserved (Draft.empty settings) draft other entry → entry.name = name →
        other = category ∧ entry = definition) ∧
      (∀ (table : SymbolTable) (definition : Definition),
        (table.foundFor category definition).1 ∉ [.options, .globals]) ∧
      draft.symbols.find? name = some (draft.symbols.foundFor category definition) ∧
      ∀ (expansion : Expansion) (model : Model), Model.ofDraft expansion draft = .ok model →
        model.symbols.get .initialConditions = draft.symbols.get .initialConditions ∧
        ∃ (place : Nat) (expanded : Definition),
          (draft.symbols.get category)[place]? = some definition ∧
          (model.symbols.get category)[place]? = some expanded ∧ expanded.name = name ∧
          model.definition? name = some (model.symbols.foundFor category expanded) ∧
          model.expression? name = some (model.symbols.foundFor category expanded).2.expr := by
  have happart := namesApart_of_ofInput hdraft
  have hgrows : Grows (Draft.empty settings) draft := by
    obtain ⟨lines, -, hlines⟩ := bind_eq_ok_iff.1 hdraft
    exact ofLines_grows hlines
  obtain ⟨category, definition, hreserved, rfl⟩ := exists_reserved rfl hgrows name hname
  have hidentifier : Text.isIdentifier definition.name = true :=
    ((induction_on_entries hdraft (Agrees.empty settings) fun _ _ => Agrees.enters).definable
      _ hname).isIdentifier
  have hmem := hreserved.mem_get
  refine ⟨category, definition, hreserved, rfl, fun other entry hentry hsame => ?_,
    fun table definition => SymbolTable.foundFor_not_mem hreserved.1,
    happart.find?_eq hreserved.1 hmem hidentifier, fun expansion model hmodel => ?_⟩
  · exact hentry.unique happart hreserved hsame
  · obtain ⟨symbols, hsymbols, hmodel⟩ := bind_eq_ok_iff.1 hmodel
    have hmodelSymbols : model.symbols = symbols := by
      dsimp only at hmodel
      split at hmodel
      · obtain ⟨⟨⟩, -, hmodel⟩ := bind_eq_ok_iff.1 hmodel
        cases hmodel
        rfl
      · cases hmodel
        rfl
    rw [← hmodelSymbols] at hsymbols
    have hframes := SymbolTable.expand_sameFrames (SymbolTable.hasNames_of_ofInput hdraft) hsymbols
    have happart' : model.symbols.NamesApart := happart.of_namesIn_eq hframes.namesOf_eq
    -- the definition is expanded in its place
    obtain ⟨place, hplace⟩ := List.mem_iff_getElem?.1 hmem
    have hnames := congrArg (·[place]?) (hframes.namesOf_eq category)
    simp only [Inlining.namesOf, List.getElem?_map, hplace, Option.map_some,
      Option.map_eq_some_iff] at hnames
    obtain ⟨expanded, hexpanded, hsame⟩ := hnames
    have hfound := happart'.find?_eq hreserved.1 (List.mem_of_getElem? hexpanded)
      (hsame ▸ hidentifier)
    rw [hsame] at hfound
    refine ⟨hframes.get_eq (by decide), place, expanded, hplace, hexpanded, hsame, hfound, ?_⟩
    rw [Model.expression?, Model.definition?, hfound]
    rfl

/-- The name of a parameter leads to the parameter, although it has an initial value. -/
theorem find?_reserved_parameter :
    ∃ draft category definition, ofInput { } (fun _ => .error .notFound) "m".toList
        "markov z 1\n\x7b1\x7d\npar a=2\ninit z=5,a=3".toList = .ok draft ∧
      ['a'] ∈ draft.scope.names ∧
      Reserved (Draft.empty { }) draft category definition ∧ definition.name = ['a'] ∧
      draft.symbols.find? ['a'] = some (draft.symbols.foundFor category definition) ∧
      draft.symbols.find? ['a'] = some (.parameters, ⟨3, ['a'], ['2'], []⟩) := by
  have hrun : (do
      let draft ← ofInput { } (fun _ => .error .notFound) "m".toList
        "markov z 1\n\x7b1\x7d\npar a=2\ninit z=5,a=3".toList
      return (draft.scope.names, draft.symbols.find? ['a'])) =
        .ok ([['z'], ['a']], some (.parameters, ⟨3, ['a'], ['2'], []⟩)) := by
    decide +kernel
  obtain ⟨draft, hdraft, hrun⟩ := bind_eq_ok_iff.1 hrun
  obtain ⟨hnames, hfind⟩ := Prod.mk.inj (pure_eq_ok_iff.1 hrun)
  have hname : ['a'] ∈ draft.scope.names := by simp [hnames]
  obtain ⟨category, definition, hreserved, hsame, -, -, hfound, -⟩ := find?_reserved hdraft hname
  exact ⟨draft, category, definition, hdraft, hname, hreserved, hsame, hfound, hfind⟩

/-- The name of a process leads to its initial value, and not to the definition that
reserved the name. -/
theorem find?_not_reserved_process :
    ∃ draft, ofInput { } (fun _ => .error .notFound) "m".toList
        "markov z 1\n\x7b1\x7d\ninit z=5".toList = .ok draft ∧
      ['z'] ∈ draft.scope.names ∧
      (∃ category definition, Reserved (Draft.empty { }) draft category definition ∧
        definition.name = ['z']) ∧
      draft.symbols.find? ['z'] = some (.initialConditions, ⟨3, ['z'], ['5'], []⟩) ∧
      ∀ category definition, Reserved (Draft.empty { }) draft category definition →
        definition.name = ['z'] → draft.symbols.find? ['z'] ≠ some (category, definition) := by
  have hrun : (do
      let draft ← ofInput { } (fun _ => .error .notFound) "m".toList
        "markov z 1\n\x7b1\x7d\ninit z=5".toList
      return (draft.scope.names, draft.symbols.find? ['z'])) =
        .ok ([['z']], some (.initialConditions, ⟨3, ['z'], ['5'], []⟩)) := by
    decide +kernel
  obtain ⟨draft, hdraft, hrun⟩ := bind_eq_ok_iff.1 hrun
  obtain ⟨hnames, hfind⟩ := Prod.mk.inj (pure_eq_ok_iff.1 hrun)
  have hname : ['z'] ∈ draft.scope.names := by simp [hnames]
  obtain ⟨lines, -, hlines⟩ := bind_eq_ok_iff.1 hdraft
  refine ⟨draft, hdraft, hname, exists_reserved rfl (ofLines_grows hlines) _ hname, hfind, ?_⟩
  rintro category definition ⟨hcategory, -⟩ - hfound
  rw [hfind, Option.some.injEq, Prod.mk.injEq] at hfound
  rw [← hfound.1] at hcategory
  exact absurd hcategory (by decide)

end Draft

end OdeModel
