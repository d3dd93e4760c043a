import OdeModel.Proofs.Inlining.Glossary
import OdeModel.Proofs.Inlining.Order

/-!
# Resolving definitions

The definitions of a glossary are resolved in the order of dependence. Afterwards
each of them is what the finished glossary makes of the expression that it had in
the beginning, and none has a name of the glossary left.
-/

namespace OdeModel

namespace Inlining

namespace Glossary

variable {glossary : Glossary}

/-- The definition with the names in its expression replaced. -/
def explain (glossary : Glossary) (definition : Definition) : Definition :=
  { definition with expr := (glossary.replace [] definition.expr).1 }

/-- The definitions that a definition refers to, by their numbers. -/
def referencesOf (names : Dictionary) (definitions : List Definition) (index : Nat) : List Nat :=
  Dependency.referencesOf (fun expr => (names.delimited expr).map Occurrence.id) definitions index

theorem Covers.mem_referencesOf_iff (h : Covers glossary) {definitions : List Definition}
    (hnames : definitions.map Definition.name = glossary.definitions.map Definition.name)
    (index next : Nat) :
    next ∈ referencesOf glossary.names definitions index ↔
      ∃ definition other, definitions[index]? = some definition ∧
        definitions[next]? = some other ∧ other.name ∈ Text.runs definition.expr := by
  unfold referencesOf Dependency.referencesOf
  cases hget : definitions[index]? with
  | none => simp
  | some definition =>
      rw [Dictionary.mem_map_id_delimited_iff h.names h.word, ← hnames]
      simp only [List.getElem?_map, Option.map_eq_some_iff, Option.some.injEq]
      constructor
      · rintro ⟨run, hrun, other, hother, rfl⟩
        exact ⟨definition, other, rfl, hother, hrun⟩
      · rintro ⟨_, other, rfl, hother, hrun⟩
        exact ⟨other.name, hrun, other, hother, rfl⟩

theorem definitions_resolveAt (glossary : Glossary) (index : Nat) :
    (glossary.resolveAt index).definitions =
      glossary.definitions.modify index glossary.explain := rfl

/-- Definitions that are changed one by one keep what every change keeps. -/
theorem map_eq_of_change {α : Type} {f : Definition → α} {old new : List Definition}
    {change : Nat → Definition → Definition}
    (hget : ∀ index : Nat, new[index]? = old[index]?.map (change index))
    (hsame : ∀ index definition, f (change index definition) = f definition) :
    new.map f = old.map f := by
  apply List.ext_getElem?
  intro index
  rw [List.getElem?_map, List.getElem?_map, hget, Option.map_map]
  congr 1
  funext definition
  exact hsame index definition

theorem map_resolveAt {α : Type} {f : Definition → α} (glossary : Glossary)
    (hsame : ∀ definition, f (glossary.explain definition) = f definition) (index : Nat) :
    (glossary.resolveAt index).definitions.map f = glossary.definitions.map f := by
  apply map_eq_of_change
    (fun i => List.getElem?_modify glossary.explain index glossary.definitions i)
  intro i definition
  split
  next => exact hsame definition
  next => rfl

theorem map_name_resolveAt (glossary : Glossary) (index : Nat) :
    (glossary.resolveAt index).definitions.map Definition.name =
      glossary.definitions.map Definition.name := glossary.map_resolveAt (fun _ => rfl) index

theorem Covers.resolveAt (h : Covers glossary) (index : Nat) :
    Covers (glossary.resolveAt index) where
  names := by
    rw [map_name_resolveAt]
    exact h.names
  isNameText := by
    intro definition hmem
    apply h.word
    rw [← map_name_resolveAt glossary index]
    exact List.mem_map_of_mem hmem

theorem definition?_resolveAt {index : Nat} {run : Text}
    (hother : ∀ definition, glossary.definitions[index]? = some definition →
      definition.name ≠ run) :
    (glossary.resolveAt index).definition? run = glossary.definition? run := by
  unfold definition?
  rw [map_name_resolveAt]
  cases hid : (glossary.definitions.map Definition.name).idxOf? run with
  | none => rfl
  | some id =>
      obtain ⟨hlt, hname, -⟩ := List.idxOf?_eq_some_iff.1 hid
      rw [List.length_map] at hlt
      rw [List.getElem_map] at hname
      have hne : index ≠ id := by
        rintro rfl
        exact hother _ (List.getElem?_eq_getElem hlt) hname
      rw [Option.bind_some, Option.bind_some, definitions_resolveAt,
        List.getElem?_modify_ne _ _ hne]

/-- A definition that does not refer to the resolved one is explained as before. -/
theorem Covers.explain_resolveAt (h : Covers glossary) {index : Nat} {definition : Definition}
    (hother : ∀ resolved, glossary.definitions[index]? = some resolved →
      resolved.name ∉ Text.runs definition.expr) :
    (glossary.resolveAt index).explain definition = glossary.explain definition := by
  unfold explain
  rw [(h.resolveAt index).replace_eq, h.replace_eq]
  congr 1
  apply Text.mapRuns_congr
  intro run hrun
  unfold standIn
  rw [definition?_resolveAt]
  · rfl
  · rintro resolved hresolved rfl
    exact hother resolved hresolved hrun

/-- The glossary made of another one by resolving some of its definitions: these are
what it makes of the old ones by itself, the others are still the old ones. -/
structure Resolves (old new : Glossary) (done : List Nat) : Prop where
  names : new.names = old.names
  parenthesize : new.parenthesize = old.parenthesize
  definition : ∀ index, new.definitions[index]? = old.definitions[index]?.map fun definition =>
    if index ∈ done then new.explain definition else definition

namespace Resolves

variable {old new : Glossary} {done : List Nat}

theorem refl (glossary : Glossary) : Resolves glossary glossary [] :=
  ⟨rfl, rfl, fun index => by simp⟩

theorem map_name (h : Resolves old new done) :
    new.definitions.map Definition.name = old.definitions.map Definition.name := by
  apply map_eq_of_change h.definition
  intro index definition
  split <;> rfl

theorem covers (h : Resolves old new done) (hold : Covers old) : Covers new where
  names := by
    rw [h.names, h.map_name]
    exact hold.names
  isNameText := by
    intro definition hmem
    apply hold.word
    rw [← h.map_name]
    exact List.mem_map_of_mem hmem

/-- Resolving one more definition keeps those that are resolved, since they do not
refer to it. -/
theorem resolveAt (h : Resolves old new done) (hold : Covers old) {index : Nat}
    (hdone : Dependency.InOrder (referencesOf old.names old.definitions) [] (done ++ [index])) :
    Resolves old (new.resolveAt index) (done ++ [index]) := by
  obtain ⟨hinorder, hnew, hrefs⟩ := Dependency.InOrder.concat_iff.1 hdone
  have hcovers := h.covers hold
  -- a definition that is done refers to none that is resolved later
  have hcalm : ∀ {i : Nat} {definition : Definition}, old.definitions[i]? = some definition →
      (i = index ∨ i ∈ done) →
      (new.resolveAt index).explain definition = new.explain definition := by
    intro i definition hget hi
    apply hcovers.explain_resolveAt
    intro resolved hresolved hmem
    rw [h.definition, Option.map_eq_some_iff] at hresolved
    obtain ⟨other, hother, rfl⟩ := hresolved
    rw [if_neg hnew] at hmem
    have hrefers : index ∈ referencesOf old.names old.definitions i :=
      (hold.mem_referencesOf_iff rfl i index).2 ⟨definition, other, hget, hother, hmem⟩
    rcases hi with rfl | hi
    · exact hnew (hrefs i hrefers)
    · exact hnew (hinorder.mem_of_refers hi hrefers)
  refine ⟨h.names, h.parenthesize, fun i => ?_⟩
  rw [definitions_resolveAt, List.getElem?_modify, h.definition]
  cases hget : old.definitions[i]? with
  | none => rfl
  | some definition =>
      simp only [Option.map_some, Option.map_eq_map, List.mem_append, List.mem_singleton]
      by_cases hi : i = index
      · subst hi
        rw [if_neg hnew, if_pos rfl, if_pos (Or.inr rfl), hcalm hget (Or.inl rfl)]
      · rw [if_neg fun heq => hi heq.symm]
        by_cases hmem : i ∈ done
        · rw [if_pos hmem, if_pos (Or.inl hmem), hcalm hget (Or.inr hmem)]
        · rw [if_neg hmem, if_neg (by simp [hmem, hi])]

theorem foldl_resolveAt (hold : Covers old) {list : List Nat} (h : Resolves old new done)
    (hlist : Dependency.InOrder (referencesOf old.names old.definitions) [] (done ++ list)) :
    Resolves old (list.foldl Glossary.resolveAt new) (done ++ list) := by
  induction list generalizing new done with
  | nil => simpa using h
  | cons index later ih =>
      have hsplit : done ++ index :: later = done ++ [index] ++ later := by simp
      rw [hsplit] at hlist ⊢
      exact ih (h.resolveAt hold (Dependency.InOrder.append_iff.1 hlist).1) hlist

end Resolves

/-- The glossary in which some definitions are resolved: every one of them is what
the glossary makes of it, and they have an order of dependence. -/
structure Resolved (definitions : List Definition) (glossary : Glossary) : Prop where
  covers : Covers glossary
  definitions_eq : glossary.definitions = definitions.map glossary.explain
  ordered : ∃ order, Dependency.InOrder (referencesOf glossary.names definitions) [] order ∧
    ∀ index, index < definitions.length → index ∈ order

namespace Resolved

variable {definitions : List Definition}

theorem map_name (h : Resolved definitions glossary) :
    glossary.definitions.map Definition.name = definitions.map Definition.name := by
  rw [h.definitions_eq, List.map_map]
  rfl

/-- What holds of a definition when it holds of all that it mentions holds of all. -/
theorem induction {p : Definition → Prop} (h : Resolved definitions glossary)
    (step : ∀ definition ∈ definitions,
      (∀ other ∈ definitions, other.name ∈ Text.runs definition.expr → p other) →
        p definition) :
    ∀ definition ∈ definitions, p definition := by
  obtain ⟨order, horder, hall⟩ := h.ordered
  have hindices : ∀ index ∈ order, ∀ definition, definitions[index]? = some definition →
      p definition := by
    apply horder.induction (p := fun index => ∀ definition,
      definitions[index]? = some definition → p definition) (by simp)
    intro index _ ih definition hget
    apply step definition (List.mem_of_getElem? hget)
    intro other hother hmention
    obtain ⟨next, hnext⟩ := List.mem_iff_getElem?.1 hother
    exact ih next ((h.covers.mem_referencesOf_iff h.map_name.symm index next).2
      ⟨definition, other, hget, hnext, hmention⟩) other hnext
  intro definition hmem
  obtain ⟨index, hget⟩ := List.mem_iff_getElem?.1 hmem
  exact hindices index (hall index (List.getElem?_eq_some_iff.1 hget).1) definition hget

/-- The runs of resolved definitions come from the old ones, and none is a name. -/
theorem mem_runs (h : Resolved definitions glossary) :
    ∀ definition ∈ glossary.definitions, ∀ run ∈ Text.runs definition.expr,
      run ∉ definitions.map Definition.name ∧
        ∃ old ∈ definitions, run ∈ Text.runs old.expr := by
  have hall : ∀ old ∈ definitions, ∀ run ∈ Text.runs (glossary.explain old).expr,
      run ∉ definitions.map Definition.name ∧
        ∃ old ∈ definitions, run ∈ Text.runs old.expr := by
    apply h.induction (p := fun old => ∀ run ∈ Text.runs (glossary.explain old).expr,
      run ∉ definitions.map Definition.name ∧ ∃ old ∈ definitions, run ∈ Text.runs old.expr)
    intro old hold ih run hrun
    rcases (h.covers.mem_runs_replace_iff [] old.expr run).1 hrun with
      ⟨hstay, hfree⟩ | ⟨definition, hmem, -, hmention, hin⟩
    · rw [h.map_name] at hfree
      exact ⟨hfree.resolve_left (by simp), old, hold, hstay⟩
    · rw [h.definitions_eq] at hmem
      obtain ⟨other, hother, rfl⟩ := List.mem_map.1 hmem
      exact ih other hother hmention run hin
  intro definition hmem
  rw [h.definitions_eq] at hmem
  obtain ⟨old, hold, rfl⟩ := List.mem_map.1 hmem
  exact hall old hold

end Resolved

end Glossary

/-! ### Making a glossary -/

/-- The definition has a name that can stand in an expression. -/
def Nameable (definition : Definition) : Prop :=
  definition.name ≠ [] ∧ Text.IsNameText definition.name

/-- The definition of a name has another defined name in its expression. -/
def Mentions (definitions : List Definition) (name other : Text) : Prop :=
  ∃ definition ∈ definitions, definition.name = name ∧
    other ∈ Text.runs definition.expr ∧ other ∈ definitions.map Definition.name

/-- No name is mentioned by its own definition, directly or over others. -/
def Acyclic (definitions : List Definition) : Prop :=
  ∀ name, ¬ Relation.TransGen (Mentions definitions) name name

namespace Glossary

variable {definitions : List Definition}

/-- Names mention each other as the definitions refer to each other. -/
theorem Covers.refers_iff (h : Covers glossary) (hglossary : glossary.definitions = definitions)
    {index next : Nat} {definition other : Definition}
    (hindex : definitions[index]? = some definition) (hnext : definitions[next]? = some other) :
    Dependency.Refers (referencesOf glossary.names definitions) index next ↔
      Mentions definitions definition.name other.name := by
  have hnodup : (definitions.map Definition.name).Nodup := hglossary ▸ h.names.nodup
  rw [Dependency.Refers, h.mem_referencesOf_iff (by rw [hglossary])]
  constructor
  · rintro ⟨_, _, hindex', hnext', hmention⟩
    rw [hindex] at hindex'
    rw [hnext] at hnext'
    cases hindex'
    cases hnext'
    exact ⟨definition, List.mem_of_getElem? hindex, rfl, hmention,
      List.mem_map_of_mem (List.mem_of_getElem? hnext)⟩
  · rintro ⟨definition', hmem, hname, hmention, -⟩
    have heq := List.inj_on_of_nodup_map hnodup hmem (List.mem_of_getElem? hindex) hname
    exact ⟨definition, other, hindex, hnext, heq ▸ hmention⟩

theorem Covers.transGen_mentions (h : Covers glossary)
    (hglossary : glossary.definitions = definitions) {index next : Nat}
    (hrefers : Relation.TransGen
      (Dependency.Refers (referencesOf glossary.names definitions)) index next) :
    ∃ definition other, definitions[index]? = some definition ∧
      definitions[next]? = some other ∧
      Relation.TransGen (Mentions definitions) definition.name other.name := by
  induction hrefers with
  | single hrefers =>
      obtain ⟨definition, other, hindex, hnext, -⟩ :=
        (h.mem_referencesOf_iff (by rw [hglossary]) _ _).1 hrefers
      exact ⟨definition, other, hindex, hnext,
        Relation.TransGen.single ((h.refers_iff hglossary hindex hnext).1 hrefers)⟩
  | tail _ hrefers ih =>
      obtain ⟨definition, middle, hindex, hmiddle, hchain⟩ := ih
      obtain ⟨_, other, -, hnext, -⟩ :=
        (h.mem_referencesOf_iff (by rw [hglossary]) _ _).1 hrefers
      exact ⟨definition, other, hindex, hnext,
        hchain.tail ((h.refers_iff hglossary hmiddle hnext).1 hrefers)⟩

theorem Covers.transGen_refers (h : Covers glossary)
    (hglossary : glossary.definitions = definitions) {name last : Text}
    (hmentions : Relation.TransGen (Mentions definitions) name last) {index : Nat}
    {definition : Definition} (hindex : definitions[index]? = some definition)
    (hname : definition.name = name) :
    ∃ next other, definitions[next]? = some other ∧ other.name = last ∧
      Relation.TransGen
        (Dependency.Refers (referencesOf glossary.names definitions)) index next := by
  subst hname
  induction hmentions with
  | single hmentions =>
      obtain ⟨_, -, -, -, hmem⟩ := id hmentions
      obtain ⟨other, hother, rfl⟩ := List.mem_map.1 hmem
      obtain ⟨next, hnext⟩ := List.mem_iff_getElem?.1 hother
      exact ⟨next, other, hnext, rfl,
        Relation.TransGen.single ((h.refers_iff hglossary hindex hnext).2 hmentions)⟩
  | tail _ hmentions ih =>
      obtain ⟨middle, between, hmiddle, rfl, hchain⟩ := ih
      obtain ⟨_, -, -, -, hmem⟩ := id hmentions
      obtain ⟨other, hother, rfl⟩ := List.mem_map.1 hmem
      obtain ⟨next, hnext⟩ := List.mem_iff_getElem?.1 hother
      exact ⟨next, other, hnext, rfl,
        hchain.tail ((h.refers_iff hglossary hmiddle hnext).2 hmentions)⟩

/-- A name that mentions itself over others belongs to a definition that refers to
itself over others. -/
theorem Covers.acyclic_iff (h : Covers glossary)
    (hglossary : glossary.definitions = definitions) :
    Acyclic definitions ↔ ∀ index, ¬ Relation.TransGen
      (Dependency.Refers (referencesOf glossary.names definitions)) index index := by
  constructor
  · intro hacyclic index hcycle
    obtain ⟨definition, other, hindex, hother, hchain⟩ := h.transGen_mentions hglossary hcycle
    rw [hindex] at hother
    cases hother
    exact hacyclic _ hchain
  · intro hacyclic name hcycle
    obtain ⟨_, ⟨definition, hmem, hname, -⟩, -⟩ := Relation.TransGen.head'_iff.1 hcycle
    obtain ⟨index, hindex⟩ := List.mem_iff_getElem?.1 hmem
    obtain ⟨next, other, hnext, hother, hchain⟩ :=
      h.transGen_refers hglossary hcycle hindex hname
    have hnodup : (definitions.map Definition.name).Nodup := hglossary ▸ h.names.nodup
    obtain rfl := List.inj_on_of_nodup_map hnodup (List.mem_of_getElem? hnext) hmem
      (hother.trans hname.symm)
    have hsame : index = next := by
      have hlt := (List.getElem?_eq_some_iff.1 hindex).1
      have hindex' : (definitions.map Definition.name)[index]? = some other.name := by
        rw [List.getElem?_map, hindex, Option.map_some]
      have hnext' : (definitions.map Definition.name)[next]? = some other.name := by
        rw [List.getElem?_map, hnext, Option.map_some]
      exact (List.getElem?_inj (by simpa using hlt) hnodup).1 (hindex'.trans hnext'.symm)
    exact hacyclic index (hsame ▸ hchain)

theorem ofDefinitions_eq (parenthesize : Bool) {names : Dictionary}
    (hnames : Dictionary.ofKeywords { } (definitions.map Definition.name) = .ok names) :
    ofDefinitions parenthesize definitions =
      match Dependency.order (referencesOf names definitions) definitions.length with
      | .ok order => .ok (order.foldl resolveAt ⟨names, definitions, parenthesize⟩)
      | .error index => .error (Dependency.circularReference definitions index) := by
  have hof : ofDefinitions parenthesize definitions =
      (Dependency.ofDefinitions (fun expr => (names.delimited expr).map Occurrence.id)
        definitions).map fun order =>
          order.foldl resolveAt ⟨names, definitions, parenthesize⟩ := by
    rw [ofDefinitions, Dictionary.ofNames, hnames]
    rfl
  rw [hof, Dependency.ofDefinitions_eq]
  change ((Dependency.order (referencesOf names definitions) definitions.length).mapError
    _).map _ = _
  cases Dependency.order (referencesOf names definitions) definitions.length <;> rfl

/-- A glossary of definitions exists when their names differ and none of them
mentions itself over others; they are resolved in it. -/
theorem ofDefinitions_spec (parenthesize : Bool)
    (hnames : ∀ definition ∈ definitions, Nameable definition) :
    ((∃ glossary, ofDefinitions parenthesize definitions = .ok glossary) ↔
      (definitions.map Definition.name).Nodup ∧ Acyclic definitions) ∧
    ∀ glossary, ofDefinitions parenthesize definitions = .ok glossary →
      Resolved definitions glossary ∧ glossary.parenthesize = parenthesize := by
  have hne : ∀ name ∈ definitions.map Definition.name, name ≠ [] := by
    intro name hname
    obtain ⟨definition, hmem, rfl⟩ := List.mem_map.1 hname
    exact (hnames definition hmem).1
  obtain ⟨hexists, hholds⟩ := Dictionary.ofKeywords_spec hne
  cases hdict : Dictionary.ofKeywords { } (definitions.map Definition.name) with
  | error error =>
      have hof : ofDefinitions parenthesize definitions = .error (.duplicateKeyword error) := by
        rw [ofDefinitions, Dictionary.ofNames, hdict]
        rfl
      rw [hdict] at hexists
      simp only [reduceCtorEq, exists_false, false_iff] at hexists
      simp [hof, hexists]
  | ok names =>
      have hnodup := hexists.1 ⟨names, hdict⟩
      have hcovers : Covers ⟨names, definitions, parenthesize⟩ :=
        ⟨hholds names hdict, fun definition hmem => (hnames definition hmem).2⟩
      have hvalid : ∀ index, ∀ next ∈ referencesOf names definitions index,
          next < definitions.length := by
        intro index next hnext
        obtain ⟨_, _, -, hget, -⟩ := (hcovers.mem_referencesOf_iff rfl index next).1 hnext
        exact (List.getElem?_eq_some_iff.1 hget).1
      have hspec := Dependency.order_spec hvalid
      rw [ofDefinitions_eq parenthesize hdict]
      have hacyclic := hcovers.acyclic_iff rfl
      cases horder : Dependency.order (referencesOf names definitions) definitions.length with
      | error culprit =>
          rw [horder] at hspec
          have hcyclic : ¬ Acyclic definitions := fun h => hacyclic.1 h culprit hspec.2
          simp [hcyclic]
      | ok order =>
          rw [horder] at hspec
          obtain ⟨hinorder, hperm⟩ := hspec
          have hall : ∀ index, index < definitions.length → index ∈ order := fun index hindex =>
            hperm.mem_iff.2 (List.mem_range.2 hindex)
          refine ⟨⟨fun _ => ⟨hnodup, hacyclic.2 fun index hcycle => ?_⟩, fun _ => ⟨_, rfl⟩⟩, ?_⟩
          · obtain ⟨definition, _, hindex, -⟩ := hcovers.transGen_mentions rfl hcycle
            exact hinorder.not_transGen_self
              (hall index (List.getElem?_eq_some_iff.1 hindex).1) hcycle
          · rintro glossary ⟨⟩
            have hresolves := (Resolves.refl ⟨names, definitions, parenthesize⟩).foldl_resolveAt
              hcovers hinorder
            rw [List.nil_append] at hresolves
            refine ⟨⟨hresolves.covers hcovers, ?_, order, ?_, hall⟩, hresolves.parenthesize⟩
            · apply List.ext_getElem?
              intro index
              rw [hresolves.definition, List.getElem?_map]
              cases hindex : definitions[index]? with
              | none => rfl
              | some definition =>
                  have hmem := hall index (List.getElem?_eq_some_iff.1 hindex).1
                  simp only [Option.map_some, if_pos hmem]
            · rw [hresolves.names]
              exact hinorder

end Glossary

end Inlining

end OdeModel
