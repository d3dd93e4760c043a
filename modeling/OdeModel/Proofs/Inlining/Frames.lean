import OdeModel.Proofs.Inlining.Phases

/-!
# What an expansion leaves alone

An expansion that succeeds changes texts and nothing else, whatever the table holds. Every
definition stays in its place with its line and name. Its arguments stay as well unless it is
a process, whose entries change one by one, and its expression does unless its category is
expanded. The constants are what the first step makes of them, from the constants alone, and
the second phase does not touch the names that the first one has inlined.
-/

namespace OdeModel

namespace Inlining

variable {parenthesize : Bool} {table table' : SymbolTable} {source : Category}

namespace Glossary

theorem map_foldl_resolveAt {α : Type} {f : Definition → α}
    (hsame : ∀ (glossary : Glossary) (definition : Definition),
      f (glossary.explain definition) = f definition) (order : List Nat) (glossary : Glossary) :
    (order.foldl resolveAt glossary).definitions.map f = glossary.definitions.map f := by
  induction order generalizing glossary with
  | nil => rfl
  | cons index order ih => rw [List.foldl_cons, ih, glossary.map_resolveAt (hsame glossary)]

/-- Resolving the definitions of a glossary keeps them but for their expressions. -/
theorem ofDefinitions_keeps {category : Category} (hexpanded : category ∈ Category.expanded)
    {definitions : List Definition} {glossary : Glossary}
    (h : ofDefinitions parenthesize definitions = .ok glossary) :
    List.Forall₂ (Definition.Keeps category) definitions glossary.definitions := by
  obtain ⟨names, -, h⟩ := bind_eq_ok_iff.1 h
  obtain ⟨order, -, h⟩ := bind_eq_ok_iff.1 h
  cases h
  refine Definition.forall₂_keeps_of_frame hexpanded (map_foldl_resolveAt ?_ order _)
  intro glossary definition
  simp only [Definition.frame_of_mem_expanded hexpanded, explain]

end Glossary

/-- Whatever the names of a category are, inlining it puts the resolved definitions in the
place of its own and rewrites those of the other categories. -/
theorem inlineCategory_get (hsource : source ∈ Category.inlined)
    (h : inlineCategory parenthesize table source = .ok table') :
    ∃ glossary, Glossary.ofDefinitions parenthesize (table.get source) = .ok glossary ∧
      ∀ category, table'.get category = if category = source then glossary.definitions
        else (table.get category).map (glossary.rewritten source category) := by
  by_cases hempty : table.get source = []
  · have hnames : ∀ definition ∈ table.get source, Nameable definition := by simp [hempty]
    obtain ⟨glossary, hglossary, hinlines⟩ := (inlineCategory_spec hsource hnames).1 h
    refine ⟨glossary, hglossary, fun category => ?_⟩
    split
    next hown => rw [hown, hinlines.own]
    next => exact hinlines.get_eq category
  · rw [inlineCategory, if_neg (by simpa using hempty)] at h
    obtain ⟨glossary, hglossary, h⟩ := bind_eq_ok_iff.1 h
    cases h
    exact ⟨glossary, hglossary, get_inlined hsource glossary table⟩

theorem inlineCategory_keeps (hsource : source ∈ Category.inlined)
    (h : inlineCategory parenthesize table source = .ok table') : table.Keeps table' := by
  have hexpanded : ∀ source ∈ Category.inlined, source ∈ Category.expanded := by decide
  obtain ⟨glossary, hglossary, hget⟩ := inlineCategory_get hsource h
  intro category
  rw [hget]
  split
  next hown =>
    subst hown
    exact Glossary.ofDefinitions_keeps (hexpanded category hsource) hglossary
  next =>
    rw [List.forall₂_map_right_iff, List.forall₂_same]
    exact fun definition _ => glossary.keeps_rewritten hsource category definition

/-- Inlining a category does not touch those before it. -/
theorem inlineCategory_get_of_not_mem (hsource : source ∈ Category.inlined)
    {category : Category} (hcategory : category ∉ targetsOf source)
    (h : inlineCategory parenthesize table source = .ok table') :
    table'.get category = table.get category := by
  obtain ⟨glossary, -, hget⟩ := inlineCategory_get hsource h
  simp only [targetsOf, List.mem_cons, not_or] at hcategory
  rw [hget, if_neg hcategory.1]
  unfold Glossary.rewritten
  simp only [if_neg hcategory.1, if_neg hcategory.2.1, if_neg hcategory.2.2]
  exact List.map_id _

end Inlining

namespace SymbolTable

open Inlining

variable {table table' : SymbolTable} {scope : Scope} {parenthesize : Bool}

theorem inlineNames_keeps (h : table.inlineNames parenthesize = .ok table') :
    table.Keeps table' :=
  foldlM_keeps (p := fun current => table.Keeps current)
    (fun _ hsource _ _ hkeeps hnext => hkeeps.trans (inlineCategory_keeps hsource hnext))
    (Keeps.refl table) h

/-- The constants are inlined first and on their own. -/
theorem inlineNames_constants (h : table.inlineNames parenthesize = .ok table') :
    ∃ glossary first, Glossary.ofDefinitions parenthesize (table.get .constants) = .ok glossary ∧
      inlineCategory parenthesize table .constants = .ok first ∧
      first.get .constants = glossary.definitions ∧
      table'.get .constants = glossary.definitions := by
  obtain ⟨first, hfirst, h⟩ := bind_eq_ok_iff.1 h
  obtain ⟨glossary, hglossary, hget⟩ := inlineCategory_get (by decide) hfirst
  have hown : first.get .constants = glossary.definitions := by rw [hget, if_pos rfl]
  refine ⟨glossary, first, hglossary, hfirst, hown, ?_⟩
  refine foldlM_keeps (p := fun current => current.get .constants = glossary.definitions)
    (fun source hsource current next hcurrent hnext => ?_) hown h
  have hsources : ∀ source ∈ [Category.temporaries, .numbers],
      source ∈ Category.inlined ∧ .constants ∉ targetsOf source := by decide
  obtain ⟨hinlined, hbefore⟩ := hsources source hsource
  rw [inlineCategory_get_of_not_mem hinlined hbefore hnext, hcurrent]

/-- An expansion changes nothing but the texts it is for, in any table. Every definition is in
its place with its line, its name and, except for the entries of processes, its arguments, and
a process has as many entries. Parameters and the like stay as they are. The constants are
resolved among themselves by the first step and stay so, and what the first phase makes of
constants, temporaries and numbers is not touched by the second one. -/
theorem expand_keeps (h : table.expand scope parenthesize = .ok table') :
    (∀ category,
      List.Forall₂ (Definition.Keeps category) (table.get category) (table'.get category)) ∧
    (∀ category ∈ [Category.parameters, .initialConditions, .tables, .wieners, .globals, .sets,
      .options, .exports], table'.get category = table.get category) ∧
    (∃ glossary first, Glossary.ofDefinitions parenthesize (table.get .constants) = .ok glossary ∧
      inlineCategory parenthesize table .constants = .ok first ∧
      first.get .constants = glossary.definitions ∧
      table'.get .constants = glossary.definitions) ∧
    ∃ named, table.inlineNames parenthesize = .ok named ∧
      named.inlineFunctions scope parenthesize = .ok table' ∧
      ∀ source ∈ Category.inlined, table'.get source = named.get source := by
  obtain ⟨named, hnamed, hexpanded⟩ := bind_eq_ok_iff.1 h
  have hkeeps := (inlineNames_keeps hnamed).trans (inlineFunctions_keeps hexpanded)
  have hlater : ∀ source ∈ Category.inlined, table'.get source = named.get source := by
    have hsources : ∀ source ∈ Category.inlined, source ∉ .functions :: callTargets := by decide
    exact fun source hsource =>
      inlineFunctions_get_of_not_mem (hsources source hsource) hexpanded
  refine ⟨hkeeps, ?same, ?constants, named, hnamed, hexpanded, hlater⟩
  case same =>
    have hother : ∀ category ∈ [Category.parameters, .initialConditions, .tables, .wieners,
        .globals, .sets, .options, .exports],
        category ≠ .markovs ∧ category ∉ Category.expanded := by decide
    intro category hcategory
    obtain ⟨hmarkovs, hexpanded⟩ := hother category hcategory
    exact hkeeps.get_eq hmarkovs hexpanded
  case constants =>
    obtain ⟨glossary, first, hglossary, hfirst, hown, hconstants⟩ := inlineNames_constants hnamed
    exact ⟨glossary, first, hglossary, hfirst, hown,
      (hlater .constants (by decide)).trans hconstants⟩

/-- A process with a call of a function, and constants in its body and its argument. -/
theorem expand_keeps_process :
    ∃ draft table, Draft.ofInput { } (fun _ => .error .notFound) "m".toList
        "!r=2\n!s=r\nf(a)=a*s\nmarkov z 1\n\x7bf(r)\x7d\nx'=z\ninit x=s".toList = .ok draft ∧
      draft.symbols.expand draft.scope true = .ok table ∧
      table.get .constants = [⟨1, ['r'], ['2'], []⟩, ⟨2, ['s'], ['2'], []⟩] ∧
      table.get .markovs = [⟨4, ['z'], ['1'], ["2*2".toList]⟩] ∧
      table.get .initialConditions = draft.symbols.get .initialConditions := by
  have hrun : (do
      let draft ← Draft.ofInput { } (fun _ => .error .notFound) "m".toList
        "!r=2\n!s=r\nf(a)=a*s\nmarkov z 1\n\x7bf(r)\x7d\nx'=z\ninit x=s".toList
      let table ← draft.symbols.expand draft.scope true
      return (table.get .constants, table.get .markovs)) =
        .ok ([⟨1, ['r'], ['2'], []⟩, ⟨2, ['s'], ['2'], []⟩],
          [⟨4, ['z'], ['1'], ["2*2".toList]⟩]) := by
    decide +kernel
  obtain ⟨draft, hdraft, hrun⟩ := bind_eq_ok_iff.1 hrun
  obtain ⟨table, htable, hrun⟩ := bind_eq_ok_iff.1 hrun
  obtain ⟨hconstants, hmarkovs⟩ := Prod.mk.inj (pure_eq_ok_iff.1 hrun)
  obtain ⟨-, hsame, -⟩ := expand_keeps htable
  exact ⟨draft, table, hdraft, htable, hconstants, hmarkovs, hsame _ (by decide)⟩

end SymbolTable

end OdeModel
