import OdeModel.Proofs.Inlining.Values

/-!
# Circular definitions

Each category looks for circles among its own definitions only. A circle that goes over
several categories is found nevertheless: when a category has been inlined, the names
that its definitions led to are mentioned by the definitions that mentioned it, so a
circle that is left goes on without it, and it is shorter. The last category on it
closes it.
-/

namespace OdeModel

/-! ### Graphs -/

section Graph

variable {α : Type} {edge short : α → α → Prop} {gone : α → Prop}

/-- A way that ends at a node that stays is also a way over short edges, when a short
edge stands for every edge to such a node and for every way over one that is gone. -/
theorem transGen_short (hstep : ∀ a b, edge a b → ¬ gone b → short a b)
    (hover : ∀ a x b, edge a x → gone x → short x b → short a b) {a b : α}
    (h : Relation.TransGen edge a b) (hstays : ¬ gone b) : Relation.TransGen short a b := by
  induction h using Relation.TransGen.head_induction_on with
  | single hedge => exact Relation.TransGen.single (hstep _ _ hedge hstays)
  | @head a x hedge _ ih =>
      by_cases hgone : gone x
      · obtain ⟨y, hshort, hrest⟩ := Relation.TransGen.head'_iff.1 ih
        exact Relation.TransGen.head' (hover a x y hedge hgone hshort) hrest
      · exact Relation.TransGen.head (hstep a x hedge hgone) ih

/-- A way between nodes that are gone stays among such nodes or leaves them. -/
theorem transGen_inside_or {a b : α} (h : Relation.TransGen edge a b) (ha : gone a)
    (hb : gone b) :
    Relation.TransGen (fun x y => edge x y ∧ gone x ∧ gone y) a b ∨
      ∃ m, ¬ gone m ∧ Relation.TransGen edge a m ∧ Relation.TransGen edge m b := by
  induction h with
  | single hedge => exact Or.inl (Relation.TransGen.single ⟨hedge, ha, hb⟩)
  | @tail x b hway hedge ih =>
      by_cases hx : gone x
      · rcases ih hx with hinside | ⟨m, hm, hto, hfrom⟩
        · exact Or.inl (hinside.tail ⟨hedge, hx, hb⟩)
        · exact Or.inr ⟨m, hm, hto, hfrom.tail hedge⟩
      · exact Or.inr ⟨x, hx, hway, Relation.TransGen.single hedge⟩

/-- Leaving nodes out keeps the circles, when none lies among these nodes alone. -/
theorem exists_circle_iff (gone : α → Prop)
    (hway : ∀ a b, short a b → Relation.TransGen edge a b)
    (hstep : ∀ a b, edge a b → ¬ gone b → short a b)
    (hover : ∀ a x b, edge a x → gone x → short x b → short a b)
    (hinside : ∀ a, ¬ Relation.TransGen (fun x y => edge x y ∧ gone x ∧ gone y) a a) :
    (∃ a, Relation.TransGen edge a a) ↔ ∃ a, Relation.TransGen short a a := by
  constructor
  · rintro ⟨a, hcircle⟩
    by_cases ha : gone a
    · -- the circle leaves the nodes that are gone, and can be entered where it does
      obtain ⟨m, hm, hto, hfrom⟩ := (transGen_inside_or hcircle ha ha).resolve_left (hinside a)
      exact ⟨m, transGen_short hstep hover (hfrom.trans hto) hm⟩
    · exact ⟨a, transGen_short hstep hover hcircle ha⟩
  · rintro ⟨a, hcircle⟩
    exact ⟨a, Relation.TransGen.closed hway a a hcircle⟩

end Graph

namespace Inlining

/-! ### One category -/

theorem not_acyclic_iff {definitions : List Definition} :
    ¬ Acyclic definitions ↔ ∃ name, Relation.TransGen (Mentions definitions) name name := by
  simp [Acyclic]

namespace Glossary

variable {own definitions : List Definition} {glossary : Glossary}

theorem map_name_explain (glossary : Glossary) (definitions : List Definition) :
    (definitions.map glossary.explain).map Definition.name = definitions.map Definition.name := by
  rw [List.map_map]
  rfl

/-- A name that an explained definition mentions was mentioned by the definition over
some steps. -/
theorem Resolved.transGen_of_mentions_explain (h : Resolved own glossary)
    (hown : ∀ definition ∈ own, definition ∈ definitions) {name other : Text}
    (hmentions : Mentions (definitions.map glossary.explain) name other) :
    Relation.TransGen (Mentions definitions) name other := by
  obtain ⟨_, hmem, rfl, hrun, hother⟩ := hmentions
  rw [map_name_explain] at hother
  obtain ⟨old, hold, rfl⟩ := List.mem_map.1 hmem
  rcases (h.covers.mem_runs_replace_iff [] old.expr other).1 hrun with
    ⟨hstay, -⟩ | ⟨resolved, hresolved, -, hmention, hin⟩
  · exact Relation.TransGen.single ⟨old, hold, rfl, hstay, hother⟩
  · rw [h.definitions_eq] at hresolved
    obtain ⟨first, hfirst, rfl⟩ := List.mem_map.1 hresolved
    have hdefined : first.name ∈ definitions.map Definition.name :=
      List.mem_map_of_mem (hown first hfirst)
    exact Relation.TransGen.head ⟨old, hold, rfl, hmention, hdefined⟩
      (h.transGen_mentions hown first hfirst other hin hother)

/-- Explaining all definitions by some of them keeps whether there is a circle, when
there is none among these. -/
theorem Resolved.acyclic_explain_iff (h : Resolved own glossary) (hacyclic : Acyclic own)
    (hown : ∀ definition ∈ own, definition ∈ definitions)
    (hnodup : (definitions.map Definition.name).Nodup) :
    Acyclic definitions ↔ Acyclic (definitions.map glossary.explain) := by
  rw [← not_iff_not, not_acyclic_iff, not_acyclic_iff]
  apply exists_circle_iff fun name => name ∈ own.map Definition.name
  case hway => exact fun name other => h.transGen_of_mentions_explain hown
  case hstep =>
    rintro _ other ⟨definition, hmem, rfl, hrun, hother⟩ hstays
    refine ⟨glossary.explain definition, List.mem_map_of_mem hmem, rfl, ?_, ?_⟩
    · rw [explain, h.covers.mem_runs_replace_iff, h.map_name]
      exact Or.inl ⟨hrun, Or.inr hstays⟩
    · rwa [map_name_explain]
  case hover =>
    rintro _ name other ⟨definition, hmem, rfl, hrun, -⟩ hgone ⟨_, hmem', hname, hin, hother⟩
    refine ⟨glossary.explain definition, List.mem_map_of_mem hmem, rfl, ?_, hother⟩
    -- the definition of the name is the one of the glossary
    obtain ⟨first, hfirst, rfl⟩ := List.mem_map.1 hgone
    obtain ⟨old, hold, rfl⟩ := List.mem_map.1 hmem'
    obtain rfl := List.inj_on_of_nodup_map hnodup hold (hown first hfirst) hname
    rw [explain, h.covers.mem_runs_replace_iff]
    refine Or.inr ⟨glossary.explain old, ?_, List.not_mem_nil, hrun, hin⟩
    rw [h.definitions_eq]
    exact List.mem_map_of_mem hfirst
  case hinside =>
    intro name hcircle
    apply hacyclic name
    refine Relation.TransGen.mono ?_ name name hcircle
    rintro _ other ⟨⟨definition, hmem, rfl, hrun, -⟩, hgone, hgone'⟩
    obtain ⟨first, hfirst, hname⟩ := List.mem_map.1 hgone
    obtain rfl := List.inj_on_of_nodup_map hnodup (hown first hfirst) hmem hname
    exact ⟨first, hfirst, rfl, hrun, hgone'⟩

/-- The definitions of a glossary can be left out once all definitions are explained by
it, since no text mentions them any more. -/
theorem Resolved.acyclic_append_iff (h : Resolved own glossary) (others : List Definition) :
    Acyclic ((own ++ others).map glossary.explain) ↔ Acyclic (others.map glossary.explain) := by
  constructor
  · intro hacyclic
    exact hacyclic.mono fun definition hmem => by
      rw [List.map_append]
      exact List.mem_append_right _ hmem
  · intro hacyclic
    -- whatever is mentioned stands among the others
    have hstays : ∀ name other, Mentions ((own ++ others).map glossary.explain) name other →
        other ∉ own.map Definition.name := by
      rintro _ other ⟨_, hmem, rfl, hrun, -⟩ hgone
      obtain ⟨old, -, rfl⟩ := List.mem_map.1 hmem
      rcases (h.covers.mem_runs_replace_iff [] old.expr other).1 hrun with
        ⟨-, hfree⟩ | ⟨resolved, hresolved, -, -, hin⟩
      · rw [h.map_name] at hfree
        exact hfree.resolve_left List.not_mem_nil hgone
      · exact (h.mem_runs resolved hresolved other hin).1 hgone
    have hothers : ∀ name other, Mentions ((own ++ others).map glossary.explain) name other →
        name ∉ own.map Definition.name → Mentions (others.map glossary.explain) name other := by
      intro name other hmentions hname
      have hother := hstays name other hmentions
      obtain ⟨_, hmem, rfl, hrun, hdefined⟩ := hmentions
      rw [map_name_explain, List.map_append, List.mem_append] at hdefined
      obtain ⟨old, hold, rfl⟩ := List.mem_map.1 hmem
      rcases List.mem_append.1 hold with hold | hold
      · exact absurd (List.mem_map_of_mem hold) hname
      · refine ⟨_, List.mem_map_of_mem hold, rfl, hrun, ?_⟩
        rw [map_name_explain]
        exact hdefined.resolve_left hother
    intro name hcircle
    obtain ⟨last, -, hlast⟩ := Relation.TransGen.tail'_iff.1 hcircle
    have hname := hstays last name hlast
    have hway : ∀ other, Relation.TransGen
        (Mentions ((own ++ others).map glossary.explain)) name other →
          Relation.TransGen (Mentions (others.map glossary.explain)) name other := by
      intro other hway
      induction hway with
      | single hmentions => exact Relation.TransGen.single (hothers _ _ hmentions hname)
      | tail hway hmentions ih =>
          obtain ⟨previous, -, hprevious⟩ := Relation.TransGen.tail'_iff.1 hway
          exact ih.tail (hothers _ _ hmentions (hstays _ _ hprevious))
    exact hacyclic name (hway name hcircle)

end Glossary

/-! ### Making a glossary -/

/-- The error tells of a definition that refers to itself over others. -/
def IsCircular (error : ModelError) : Prop := ∃ place, error = .located .circularReference place

/-- Definitions under names of their own have a glossary, or there is a circle among
them, and this is the only way to fail. -/
theorem Glossary.ofDefinitions_outcome (parenthesize : Bool) {definitions : List Definition}
    (hnames : ∀ definition ∈ definitions, Nameable definition)
    (hnodup : (definitions.map Definition.name).Nodup) :
    match ofDefinitions parenthesize definitions with
    | .ok _ => Acyclic definitions
    | .error error => ¬ Acyclic definitions ∧ IsCircular error := by
  obtain ⟨hexists, -⟩ := ofDefinitions_spec parenthesize hnames
  cases hresult : ofDefinitions parenthesize definitions with
  | ok glossary => exact (hexists.1 ⟨glossary, hresult⟩).2
  | error error =>
      refine ⟨fun hacyclic => ?_, ?_⟩
      · obtain ⟨glossary, hglossary⟩ := hexists.2 ⟨hnodup, hacyclic⟩
        rw [hresult] at hglossary
        contradiction
      · have hne : ∀ name ∈ definitions.map Definition.name, name ≠ [] := by
          intro name hname
          obtain ⟨definition, hmem, rfl⟩ := List.mem_map.1 hname
          exact (hnames definition hmem).1
        obtain ⟨names, hdictionary⟩ := (Dictionary.ofKeywords_spec hne).1.2 hnodup
        rw [ofDefinitions_eq parenthesize hdictionary] at hresult
        split at hresult
        next => contradiction
        next =>
          cases hresult
          exact ⟨_, rfl⟩

/-! ### All categories -/

variable {table table' : SymbolTable} {source : Category} {glossary : Glossary}

/-- Inlining a category explains the definitions of all categories to be inlined. -/
theorem Inlines.flatMap_get (h : Inlines source glossary table table')
    (categories : List Category)
    (hcategories : ∀ category ∈ categories, category ∈ Category.inlined ∧
      (category = source ∨ category ∈ laterThan source)) :
    categories.flatMap table'.get = (categories.flatMap table.get).map glossary.explain := by
  rw [List.map_flatMap]
  apply List.flatMap_congr
  intro category hcategory
  obtain ⟨hinlined, hbehind⟩ := hcategories category hcategory
  obtain ⟨-, -, hmarkovs, hfunctions, -⟩ := laterThan_spec hinlined
  rw [h.get_eq]
  apply List.map_congr_left
  intro definition _
  unfold Glossary.rewritten
  split
  next => rfl
  next hother =>
    rw [if_pos (hbehind.resolve_left hother), Glossary.replaceIn, if_neg hfunctions]
    rfl

/-- Inlining a category fails when there is a circle among its own definitions, and in
no other case. -/
theorem inlineCategory_outcome (parenthesize : Bool) (hsource : source ∈ Category.inlined)
    (hnames : ∀ definition ∈ table.get source, Nameable definition)
    (hnodup : ((table.get source).map Definition.name).Nodup) :
    match inlineCategory parenthesize table source with
    | .ok next => Acyclic (table.get source) ∧ ∃ glossary, Inlines source glossary table next
    | .error error => ¬ Acyclic (table.get source) ∧ IsCircular error := by
  have houtcome := Glossary.ofDefinitions_outcome parenthesize hnames hnodup
  cases hresult : inlineCategory parenthesize table source with
  | ok next =>
      obtain ⟨glossary, hglossary, hinlines⟩ := (inlineCategory_spec hsource hnames).1 hresult
      rw [hglossary] at houtcome
      exact ⟨houtcome, glossary, hinlines⟩
  | error error =>
      unfold inlineCategory at hresult
      split at hresult
      next => contradiction
      next =>
        cases hglossary : Glossary.ofDefinitions parenthesize (table.get source) with
        | ok glossary =>
            rw [hglossary] at hresult
            contradiction
        | error culprit =>
            rw [hglossary] at hresult houtcome
            cases hresult
            exact houtcome

/-- Inlining some categories, one after the other, succeeds when there is no circle
among all of their definitions together, and fails for a circle otherwise. -/
theorem foldlM_inlineCategory_outcome (parenthesize : Bool) {sources : List Category}
    (hsources : ∀ source ∈ sources, source ∈ Category.inlined)
    (hlater : sources.Pairwise fun earlier source => source ∈ laterThan earlier)
    (hnames : HasNames table)
    (hnodup : ((sources.flatMap table.get).map Definition.name).Nodup) :
    match sources.foldlM (inlineCategory parenthesize) table with
    | .ok _ => Acyclic (sources.flatMap table.get)
    | .error error => ¬ Acyclic (sources.flatMap table.get) ∧ IsCircular error := by
  induction sources generalizing table with
  | nil =>
      intro name hcircle
      obtain ⟨_, ⟨_, hmem, -⟩, -⟩ := Relation.TransGen.head'_iff.1 hcircle
      exact absurd hmem List.not_mem_nil
  | cons source later ih =>
      have hsource := hsources source List.mem_cons_self
      have hrest := fun other hother => hsources other (List.mem_cons_of_mem _ hother)
      obtain ⟨hbehind, hpairwise⟩ := List.pairwise_cons.1 hlater
      have hown : ∀ definition ∈ table.get source,
          definition ∈ (source :: later).flatMap table.get := fun definition hmem =>
        List.mem_flatMap.2 ⟨source, List.mem_cons_self, hmem⟩
      have hnodupOwn : ((table.get source).map Definition.name).Nodup := by
        rw [List.flatMap_cons, List.map_append] at hnodup
        exact (List.nodup_append.1 hnodup).1
      have hfirst := inlineCategory_outcome parenthesize hsource
        (hnames source hsource) hnodupOwn
      rw [List.foldlM_cons]
      cases hresult : inlineCategory parenthesize table source with
      | error error =>
          rw [hresult] at hfirst
          exact ⟨fun hacyclic => hfirst.1 (hacyclic.mono hown), hfirst.2⟩
      | ok next =>
          rw [hresult] at hfirst
          obtain ⟨hacyclic, glossary, hinlines⟩ := hfirst
          have hexplained := hinlines.flatMap_get later
            fun category hcategory =>
              ⟨hrest category hcategory, Or.inr (hbehind category hcategory)⟩
          -- a circle among all definitions is one among those that are left
          have hiff : Acyclic ((source :: later).flatMap table.get) ↔
              Acyclic (later.flatMap next.get) := by
            rw [hinlines.resolved.acyclic_explain_iff hacyclic hown hnodup, List.flatMap_cons,
              hinlines.resolved.acyclic_append_iff, hexplained]
          have hnodup' : ((later.flatMap next.get).map Definition.name).Nodup := by
            rw [hexplained, Glossary.map_name_explain]
            rw [List.flatMap_cons, List.map_append] at hnodup
            exact (List.nodup_append.1 hnodup).2.1
          rw [hiff]
          exact ih hrest hpairwise (hnames.of_namesOf_eq (hinlines.namesOf_eq hsource)) hnodup'

end Inlining

namespace SymbolTable

open Inlining

/-- Inlining the names of a table whose constants, temporaries and numbers are under
identifiers of their own fails for a circular reference just when one of these names is
mentioned by its own definition, directly or over definitions of whatever of these
categories. In all other cases it succeeds. -/
theorem inlineNames_circular_iff {table : SymbolTable}
    (hidentifiers : ∀ definition ∈ table.inlinedDefinitions,
      Text.isIdentifier definition.name = true)
    (hnodup : (table.inlinedDefinitions.map Definition.name).Nodup) (parenthesize : Bool) :
    ((∃ place, table.inlineNames parenthesize = .error (.located .circularReference place)) ↔
      ∃ name, Relation.TransGen (Mentions table.inlinedDefinitions) name name) ∧
    ((∃ table', table.inlineNames parenthesize = .ok table') ↔
      ¬ ∃ name, Relation.TransGen (Mentions table.inlinedDefinitions) name name) := by
  have hnames : HasNames table := fun source hsource definition hmem =>
    (Text.isNameText_of_isIdentifier
      (hidentifiers definition (mem_inlinedDefinitions.2 ⟨source, hsource, hmem⟩))).2
  have hall : ∀ source ∈ Category.inlined, source ∈ Category.inlined := fun _ hsource => hsource
  have houtcome := foldlM_inlineCategory_outcome parenthesize hall (by decide) hnames hnodup
  rw [← not_acyclic_iff, not_not]
  unfold inlineNames inlinedDefinitions
  cases hresult : Category.inlined.foldlM (inlineCategory parenthesize) table with
  | ok table' =>
      rw [hresult] at houtcome
      simp [houtcome]
  | error error =>
      rw [hresult] at houtcome
      obtain ⟨hcircle, place, rfl⟩ := houtcome
      simp [hcircle]

/-- A constant, a temporary and a number that mention each other in turn. -/
def ring : SymbolTable :=
  ((empty.push .constants ⟨1, ['c'], "b+1".toList, []⟩).push .temporaries
    ⟨2, ['b'], "2*(n-k)".toList, []⟩).push .numbers ⟨3, ['n'], ['c'], []⟩

theorem inlineNames_circular_ring :
    (∀ definition ∈ ring.inlinedDefinitions, Text.isIdentifier definition.name = true) ∧
      (ring.inlinedDefinitions.map Definition.name).Nodup ∧
      ∃ place, ring.inlineNames true = .error (.located .circularReference place) := by
  have hidentifiers : ∀ definition ∈ ring.inlinedDefinitions,
      Text.isIdentifier definition.name = true := by decide
  have hnodup : (ring.inlinedDefinitions.map Definition.name).Nodup := by decide
  refine ⟨hidentifiers, hnodup, (inlineNames_circular_iff hidentifiers hnodup true).1.2 ?_⟩
  have hconstant : Mentions ring.inlinedDefinitions ['c'] ['b'] :=
    ⟨⟨1, ['c'], "b+1".toList, []⟩, by decide, rfl, by decide, by decide⟩
  have htemporary : Mentions ring.inlinedDefinitions ['b'] ['n'] :=
    ⟨⟨2, ['b'], "2*(n-k)".toList, []⟩, by decide, rfl, by decide, by decide⟩
  have hnumber : Mentions ring.inlinedDefinitions ['n'] ['c'] :=
    ⟨⟨3, ['n'], ['c'], []⟩, by decide, rfl, by decide, by decide⟩
  exact ⟨['c'], ((Relation.TransGen.single hconstant).tail htemporary).tail hnumber⟩

end SymbolTable

end OdeModel
