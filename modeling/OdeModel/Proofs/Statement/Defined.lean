import OdeModel.Proofs.Statement.Registry
import Mathlib.Data.List.Nodup

/-!
# Defined names

The names in the scope of a draft are those of its definitions, each once, and each
category holds its definitions in the order of their names. Every entry keeps this, so
it holds of every draft.
-/

namespace OdeModel

namespace SymbolTable

/-- The names of the definitions in a category. -/
def namesIn (table : SymbolTable) (category : Category) : List Text :=
  (table.get category).map Definition.name

/-- The names that the algebraic expressions define; most of them have none. -/
def algebraicNames (table : SymbolTable) : List Text :=
  (table.namesIn .algebraic).filter fun name => !name.isEmpty

/-- The names of all definitions that define one. -/
def definedNames (table : SymbolTable) : List Text :=
  Category.defining.flatMap table.namesIn ++ table.algebraicNames

variable {table : SymbolTable} {category other : Category} {definition : Definition}

theorem namesIn_push_self :
    (table.push category definition).namesIn category =
      table.namesIn category ++ [definition.name] := by
  simp [namesIn]

theorem namesIn_push_of_ne (h : other ≠ category) :
    (table.push category definition).namesIn other = table.namesIn other := by
  rw [namesIn, get_push_of_ne _ _ h, namesIn]

theorem definedNames_empty : empty.definedNames = [] := by decide

theorem flatMap_namesIn_push_of_not_mem {categories : List Category}
    (h : category ∉ categories) :
    categories.flatMap (table.push category definition).namesIn =
      categories.flatMap table.namesIn :=
  List.flatMap_congr fun _ hother => namesIn_push_of_ne fun heq => h (heq ▸ hother)

theorem flatMap_namesIn_push {categories : List Category} (hnodup : categories.Nodup)
    (h : category ∈ categories) :
    (categories.flatMap (table.push category definition).namesIn).Perm
      (categories.flatMap table.namesIn ++ [definition.name]) := by
  induction categories with
  | nil => contradiction
  | cons first rest ih =>
      obtain ⟨hfirst, hrest⟩ := List.nodup_cons.1 hnodup
      rw [List.flatMap_cons, List.flatMap_cons, List.append_assoc]
      rcases List.mem_cons.1 h with rfl | hmem
      · rw [namesIn_push_self, flatMap_namesIn_push_of_not_mem hfirst, List.append_assoc]
        exact List.perm_append_comm.append_left _
      · have hne : first ≠ category := fun heq => hfirst (heq ▸ hmem)
        rw [namesIn_push_of_ne hne]
        exact (ih hrest hmem).append_left _

theorem algebraicNames_push_of_ne (h : category ≠ .algebraic) :
    (table.push category definition).algebraicNames = table.algebraicNames := by
  rw [algebraicNames, namesIn_push_of_ne h.symm, algebraicNames]

theorem algebraicNames_push_named (hname : definition.name ≠ []) :
    (table.push .algebraic definition).algebraicNames =
      table.algebraicNames ++ [definition.name] := by
  simp [algebraicNames, namesIn_push_self, hname]

theorem algebraicNames_push_bare (hname : definition.name = []) :
    (table.push .algebraic definition).algebraicNames = table.algebraicNames := by
  simp [algebraicNames, namesIn_push_self, hname]

/-- A definition under a name adds it to the defined names. -/
theorem definedNames_push (hcategory : category ∈ Category.defining ∨ category = .algebraic)
    (hname : definition.name ≠ []) :
    (table.push category definition).definedNames.Perm
      (table.definedNames ++ [definition.name]) := by
  unfold definedNames
  rcases hcategory with hdefining | rfl
  · have hne : category ≠ .algebraic := by
      rintro rfl
      exact absurd hdefining (by decide)
    rw [algebraicNames_push_of_ne hne, List.append_assoc]
    calc
      (Category.defining.flatMap (table.push category definition).namesIn ++
          table.algebraicNames).Perm
        (Category.defining.flatMap table.namesIn ++ [definition.name] ++
          table.algebraicNames) := (flatMap_namesIn_push (by decide) hdefining).append_right _
      List.Perm _ (Category.defining.flatMap table.namesIn ++
          (table.algebraicNames ++ [definition.name])) := by
        rw [List.append_assoc]
        exact List.perm_append_comm.append_left _
  · rw [flatMap_namesIn_push_of_not_mem (by decide), algebraicNames_push_named hname,
      List.append_assoc]

/-- A definition without a name of its own leaves them as they are. -/
theorem definedNames_push_bare (hcategory : category ∉ Category.defining)
    (hname : category = .algebraic → definition.name = []) :
    (table.push category definition).definedNames = table.definedNames := by
  unfold definedNames
  rw [flatMap_namesIn_push_of_not_mem hcategory]
  by_cases halgebraic : category = .algebraic
  · subst halgebraic
    rw [algebraicNames_push_bare (hname rfl)]
  · rw [algebraicNames_push_of_ne halgebraic]

end SymbolTable

/-- A name that a model may define: an identifier without a fixed meaning. -/
structure Scope.Definable (reserveOptions : Bool) (name : Text) : Prop where
  isIdentifier : Text.isIdentifier name = true
  not_builtin : name ∉ Vocabulary.builtins
  not_mark : name ∉ Form.marked.map Form.mark
  not_block : name ∉ Vocabulary.blocks
  not_option : reserveOptions = true →
    ∀ option ∈ Vocabulary.options, option.map Char.toLower ≠ name.map Char.toLower

theorem Scope.Definable.of_objection? {scope : Scope} {name : Text}
    (h : scope.objection? name = none) : Definable scope.reserveOptions name := by
  obtain ⟨hidentifier, -, hbuiltin, hkeyword, hoption⟩ := Scope.objection?_eq_none_iff.1 h
  rw [Vocabulary.isKeyword, Bool.or_eq_false_iff] at hkeyword
  refine ⟨hidentifier, by simpa [Vocabulary.isBuiltin] using hbuiltin,
    by simpa using hkeyword.1, by simpa using hkeyword.2, fun hreserve => ?_⟩
  rw [hreserve, Bool.true_and, Option.isSome_eq_false_iff, Option.isNone_iff_eq_none,
    Vocabulary.option?, List.find?_eq_none] at hoption
  simpa using hoption

namespace Draft

/-- The scope of a draft and its definitions agree on the names, and a registry of
dictionaries that defines the same names one after the other represents the scope. -/
structure Agrees (reserveOptions : Bool) (draft : Draft) : Prop where
  reserves : draft.scope.reserveOptions = reserveOptions
  nodup : draft.scope.names.Nodup
  perm : draft.scope.names.Perm draft.symbols.definedNames
  ordered : ∀ category ∈ Category.defining,
    (draft.symbols.namesIn category).Sublist draft.scope.names
  algebraic : draft.symbols.algebraicNames.Sublist draft.scope.names
  definable : ∀ name ∈ draft.scope.names, Scope.Definable reserveOptions name
  initial : ∀ name ∈ draft.symbols.namesIn .initialConditions, name ∈ draft.scope.names
  options : ∀ name ∈ draft.symbols.namesIn .options, name ∈ Vocabulary.options
  registry : ∃ registry, draft.scope.names.foldlM Registry.define (.empty reserveOptions) =
    .ok registry ∧ registry.Represents draft.scope

namespace Agrees

variable {reserveOptions : Bool} {draft : Draft} {category : Category}
  {definition : Definition} {scope : Scope}

theorem empty (settings : Settings) :
    (Draft.empty settings).Agrees settings.reserveOptions where
  reserves := rfl
  nodup := List.nodup_nil
  perm := List.Perm.of_eq SymbolTable.definedNames_empty.symm
  ordered := by simp [Draft.empty, SymbolTable.namesIn]
  algebraic := by simp [Draft.empty, SymbolTable.algebraicNames, SymbolTable.namesIn]
  definable := by simp [Draft.empty, Scope.empty]
  initial := by simp [Draft.empty, SymbolTable.namesIn]
  options := by simp [Draft.empty, SymbolTable.namesIn]
  registry := ⟨_, rfl, Registry.represents_empty _⟩

/-- A definition under a new name keeps the agreement. -/
theorem named (h : draft.Agrees reserveOptions)
    (hcategory : category ∈ Category.defining ∨ category = .algebraic)
    (hdefine : draft.scope.define definition.name = .ok scope) :
    Agrees reserveOptions ⟨draft.symbols.push category definition, scope⟩ := by
  obtain ⟨hobjection, rfl⟩ := Scope.define_eq_ok_iff.1 hdefine
  have hdefinable := Scope.Definable.of_objection? hobjection
  rw [h.reserves] at hdefinable
  have hne : definition.name ≠ [] := by
    intro hnil
    have hidentifier := hdefinable.isIdentifier
    rw [hnil] at hidentifier
    contradiction
  have hnew : definition.name ∉ draft.scope.names := by
    have hunused := (Scope.objection?_eq_none_iff.1 hobjection).2.1
    simpa [Scope.isUsed] using hunused
  have hother : ∀ other ∈ [.initialConditions, .options], other ≠ category := by
    rintro other hmem rfl
    revert hmem hcategory
    cases other <;> decide
  constructor
  case reserves => exact h.reserves
  case nodup => simpa [List.nodup_append] using ⟨h.nodup, fun name hmem heq => hnew (heq ▸ hmem)⟩
  case perm =>
    exact (h.perm.append_right _).trans (SymbolTable.definedNames_push hcategory hne).symm
  case ordered =>
    intro other hdefining
    by_cases hsame : other = category
    · subst hsame
      rw [SymbolTable.namesIn_push_self]
      exact (h.ordered other hdefining).append (List.Sublist.refl _)
    · rw [SymbolTable.namesIn_push_of_ne hsame]
      exact (h.ordered other hdefining).trans (List.sublist_append_left _ _)
  case algebraic =>
    by_cases hsame : category = .algebraic
    · subst hsame
      rw [SymbolTable.algebraicNames_push_named hne]
      exact h.algebraic.append (List.Sublist.refl _)
    · rw [SymbolTable.algebraicNames_push_of_ne hsame]
      exact h.algebraic.trans (List.sublist_append_left _ _)
  case definable =>
    intro name hmem
    rcases List.mem_append.1 hmem with hmem | hmem
    · exact h.definable name hmem
    · exact List.mem_singleton.1 hmem ▸ hdefinable
  case initial =>
    rw [SymbolTable.namesIn_push_of_ne (hother _ (by decide))]
    exact fun name hmem => List.mem_append_left _ (h.initial name hmem)
  case options =>
    rw [SymbolTable.namesIn_push_of_ne (hother _ (by decide))]
    exact h.options
  case registry =>
    obtain ⟨registry, hrun, hrepresents⟩ := h.registry
    rcases hrepresents.define definition.name with
      ⟨fault, -, hfault⟩ | ⟨next, scope, hnext, hscope, hrepresents'⟩
    · rw [hdefine] at hfault
      contradiction
    · rw [hdefine] at hscope
      cases hscope
      refine ⟨next, ?_, hrepresents'⟩
      rw [List.foldlM_append, hrun]
      exact bind_eq_ok_iff.2 ⟨registry, rfl, bind_eq_ok_iff.2 ⟨next, hnext, rfl⟩⟩

/-- A definition without a name of its own keeps the agreement. -/
theorem push (h : draft.Agrees reserveOptions) (hcategory : category ∉ Category.defining)
    (hname : category = .algebraic → definition.name = [])
    (hinitial : category = .initialConditions → definition.name ∈ draft.scope.names)
    (hoptions : category = .options → definition.name ∈ Vocabulary.options) :
    (draft.push category definition).Agrees reserveOptions := by
  constructor
  case reserves => exact h.reserves
  case nodup => exact h.nodup
  case perm =>
    rw [Draft.push, SymbolTable.definedNames_push_bare hcategory hname]
    exact h.perm
  case ordered =>
    intro other hdefining
    have hne : other ≠ category := fun heq => hcategory (heq ▸ hdefining)
    rw [Draft.push, SymbolTable.namesIn_push_of_ne hne]
    exact h.ordered other hdefining
  case algebraic =>
    rw [Draft.push]
    by_cases hsame : category = .algebraic
    · subst hsame
      rw [SymbolTable.algebraicNames_push_bare (hname rfl)]
      exact h.algebraic
    · rw [SymbolTable.algebraicNames_push_of_ne hsame]
      exact h.algebraic
  case definable => exact h.definable
  case initial =>
    intro name hmem
    obtain ⟨entry, hentry, rfl⟩ := List.mem_map.1 hmem
    rcases SymbolTable.mem_get_push_iff.1 hentry with hentry | ⟨hsame, rfl⟩
    · exact h.initial _ (List.mem_map_of_mem hentry)
    · exact hinitial hsame.symm
  case options =>
    intro name hmem
    obtain ⟨entry, hentry, rfl⟩ := List.mem_map.1 hmem
    rcases SymbolTable.mem_get_push_iff.1 hentry with hentry | ⟨hsame, rfl⟩
    · exact h.options _ (List.mem_map_of_mem hentry)
    · exact hoptions hsame.symm
  case registry => exact h.registry

theorem enters {old new : Draft} (henters : Enters old new) (h : old.Agrees reserveOptions) :
    new.Agrees reserveOptions := by
  cases henters with
  | named hcategory _ hdefine => exact h.named hcategory hdefine
  | @bare category definition hbare =>
      have hother : ∀ other ∈ [.boundaries, .exports, .globals, .algebraic],
          other ∉ Category.defining ∧ other ≠ .initialConditions ∧ other ≠ .options := by decide
      obtain ⟨hdefining, hinitial, hoptions⟩ := hother category (by grind)
      refine h.push hdefining ?_ (fun heq => absurd heq hinitial) fun heq => absurd heq hoptions
      rintro rfl
      rcases hbare with hbare | ⟨-, hname⟩
      · exact absurd hbare (by decide)
      · exact hname
  | initial hused =>
      refine h.push (by decide) (by simp) (fun _ => ?_) (by simp)
      simpa [Scope.isUsed] using hused
  | setting hoption => exact h.push (by decide) (by simp) (by simp) fun _ => hoption

end Agrees

/-- Once the statements of a model are read, its scope and its definitions agree. Each
name in the scope is there once, and is that of one definition, which stands in a
category of named definitions or is a named algebraic expression; each of these holds
its definitions in the order of the scope. All names are identifiers without a fixed
meaning. Initial values are given to defined names only, and only options are set.
The names are also accepted, one after the other, by a registry that looks them up in
dictionaries, and they are the keywords of its growing one. -/
theorem ofLines_agrees {settings : Settings} {files : FileReader} {lines : List Line}
    {draft : Draft} (h : ofLines settings files lines = .ok draft) :
    draft.scope.names.Nodup ∧
    draft.scope.names.Perm draft.symbols.definedNames ∧
    (∀ category ∈ Category.defining,
      ((draft.symbols.get category).map Definition.name).Sublist draft.scope.names) ∧
    (((draft.symbols.get .algebraic).map Definition.name).filter fun name =>
      !name.isEmpty).Sublist draft.scope.names ∧
    (∀ name ∈ draft.scope.names, Text.isIdentifier name = true ∧
      name ∉ Vocabulary.builtins ∧ name ∉ Form.marked.map Form.mark ∧
      name ∉ Vocabulary.blocks ∧ (settings.reserveOptions = true →
        ∀ option ∈ Vocabulary.options, option.map Char.toLower ≠ name.map Char.toLower)) ∧
    (∀ definition ∈ draft.symbols.get .initialConditions, definition.name ∈ draft.scope.names) ∧
    (∀ definition ∈ draft.symbols.get .options, definition.name ∈ Vocabulary.options) ∧
    ∃ registry, draft.scope.names.foldlM Registry.define (.empty settings.reserveOptions) =
        .ok registry ∧ registry.used.keywords.toList = draft.scope.names := by
  have hagrees := induction_on_entries_ofLines h (Agrees.empty settings)
    fun _ _ => Agrees.enters
  refine ⟨hagrees.nodup, hagrees.perm, hagrees.ordered, hagrees.algebraic, fun name hmem => ?_,
    fun definition hmem => hagrees.initial _ (List.mem_map_of_mem hmem),
    fun definition hmem => hagrees.options _ (List.mem_map_of_mem hmem), ?_⟩
  · have hdefinable := hagrees.definable name hmem
    exact ⟨hdefinable.isIdentifier, hdefinable.not_builtin, hdefinable.not_mark,
      hdefinable.not_block, hdefinable.not_option⟩
  · obtain ⟨registry, hrun, hrepresents⟩ := hagrees.registry
    exact ⟨registry, hrun, hrepresents.used⟩

/-- Blocks define their names before the assignments of single lines do; an equation
without a name and an initial value define none. -/
theorem ofLines_agrees_mixed :
    ∃ draft, ofLines { } (fun _ => .error .notFound)
        [⟨1, "par b=2,a=3".toList⟩, ⟨2, "markov z 1".toList⟩, ⟨3, "\x7b1\x7d".toList⟩,
          ⟨4, "0=a-b".toList⟩, ⟨5, "init z=1".toList⟩, ⟨6, "wiener w".toList⟩] = .ok draft ∧
      draft.scope.names = ["z", "w", "b", "a"].map String.toList ∧
      draft.scope.names.Perm draft.symbols.definedNames := by
  have hrun : (do
      let draft ← ofLines { } (fun _ => .error .notFound)
        [⟨1, "par b=2,a=3".toList⟩, ⟨2, "markov z 1".toList⟩, ⟨3, "\x7b1\x7d".toList⟩,
          ⟨4, "0=a-b".toList⟩, ⟨5, "init z=1".toList⟩, ⟨6, "wiener w".toList⟩]
      return draft.scope.names) = .ok (["z", "w", "b", "a"].map String.toList) := by
    decide +kernel
  obtain ⟨draft, hdraft, hrun⟩ := bind_eq_ok_iff.1 hrun
  exact ⟨draft, hdraft, pure_eq_ok_iff.1 hrun, (ofLines_agrees hdraft).2.1⟩

end Draft

end OdeModel
