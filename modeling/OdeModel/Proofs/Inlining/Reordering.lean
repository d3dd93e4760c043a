import Mathlib.Logic.Equiv.Basic
import OdeModel.Proofs.Inlining.Phases
import OdeModel.Proofs.Inlining.Values

/-!
# Definitions in another order

A table may hold its definitions in another order. Whether names differ and whether there is
a circle depends on which definitions there are, and what a glossary makes of a text does
too, so inlining the names of two such tables keeps the one the other in that order.
-/

namespace OdeModel

/-- The second list holds the elements of the first one at other places: `places` tells for
each place where its element was. Every order of the elements is such a one, since places
behind the end hold nothing. -/
def Reorders {α : Type} (places : Equiv.Perm Nat) (old new : List α) : Prop :=
  ∀ place : Nat, new[place]? = old[places place]?

namespace Reorders

variable {α β : Type} {places : Equiv.Perm Nat} {old new : List α}

theorem symm (h : Reorders places old new) : Reorders places.symm new old := fun place => by
  rw [h, places.apply_symm_apply]

theorem mem_iff (h : Reorders places old new) {a : α} : a ∈ new ↔ a ∈ old := by
  rw [List.mem_iff_getElem?, List.mem_iff_getElem?]
  simp only [h _]
  exact places.surjective.exists (p := fun place => old[place]? = some a) |>.symm

theorem map (h : Reorders places old new) (f : α → β) :
    Reorders places (old.map f) (new.map f) := fun place => by
  rw [List.getElem?_map, List.getElem?_map, h]

theorem lt_length_iff (h : Reorders places old new) {place : Nat} :
    places place < old.length ↔ place < new.length := by
  rw [← not_le, ← not_le, ← List.getElem?_eq_none_iff, ← List.getElem?_eq_none_iff, h]

theorem nodup (h : Reorders places old new) (hold : old.Nodup) : new.Nodup := by
  rw [List.nodup_iff_getElem?_ne_getElem?]
  intro first second hlt hsecond hsame
  rw [h, h] at hsame
  have heq := (List.getElem?_inj (h.lt_length_iff.2 hsecond) hold).1 hsame.symm
  exact hlt.ne' (places.injective heq)

theorem eq_nil_iff (h : Reorders places old new) : new = [] ↔ old = [] := by
  rw [List.eq_nil_iff_forall_not_mem, List.eq_nil_iff_forall_not_mem]
  simp only [h.mem_iff]

/-- Steps on all elements give the same results in that order. -/
theorem exists_mapM (h : Reorders places old new) {ε : Type} {f : α → Except ε β}
    {olds : List β} (hold : old.mapM f = .ok olds) :
    ∃ news, new.mapM f = .ok news ∧ Reorders places olds news := by
  rw [mapM_eq_ok_iff] at hold
  have hnew : ∃ news, List.Forall₂ (fun a b => f a = .ok b) new news := by
    have hall : ∀ a ∈ new, ∃ b, f a = .ok b := by
      intro a ha
      obtain ⟨b, -, hb⟩ := exists_of_forall₂_mem hold.flip (h.mem_iff.1 ha)
      exact ⟨b, hb⟩
    clear h
    induction new with
    | nil => exact ⟨[], .nil⟩
    | cons a new ih =>
        rw [List.forall_mem_cons] at hall
        obtain ⟨⟨b, hb⟩, hrest⟩ := hall
        obtain ⟨news, hnews⟩ := ih hrest
        exact ⟨b :: news, .cons hb hnews⟩
  obtain ⟨news, hnews⟩ := hnew
  refine ⟨news, mapM_eq_ok_iff.2 hnews, fun place => ?_⟩
  cases hplace : new[place]? with
  | none =>
      have hnone := hplace
      rw [h] at hnone
      rw [List.getElem?_eq_none_iff] at hplace hnone
      rw [List.getElem?_eq_none (hnews.length_eq ▸ hplace),
        List.getElem?_eq_none (hold.length_eq ▸ hnone)]
  | some a =>
      obtain ⟨b, hb, hab⟩ := exists_of_forall₂_getElem? hnews.flip hplace
      rw [h] at hplace
      obtain ⟨b', hb', hab'⟩ := exists_of_forall₂_getElem? hold.flip hplace
      rw [hb, hb', Except.ok.inj (hab.symm.trans hab')]

end Reorders

/-- The second table holds the definitions of the first one, each category in an order of
its own. -/
def SymbolTable.Reorders (places : Category → Equiv.Perm Nat) (table table' : SymbolTable) :
    Prop :=
  ∀ category, OdeModel.Reorders (places category) (table.get category) (table'.get category)

theorem SymbolTable.Reorders.symm {places : Category → Equiv.Perm Nat}
    {table table' : SymbolTable} (h : table.Reorders places table') :
    table'.Reorders (fun category => (places category).symm) table :=
  fun category => (h category).symm

namespace Inlining

namespace Glossary

variable {definitions definitions' : List Definition} {glossary glossary' : Glossary}

/-- Glossaries of the same definitions replace a run by the same text, if they explain its
definition in the same way. -/
theorem Resolved.standIn_eq (h : Resolved definitions glossary)
    (h' : Resolved definitions' glossary')
    (hmem : ∀ definition, definition ∈ definitions' ↔ definition ∈ definitions)
    (hparenthesize : glossary'.parenthesize = glossary.parenthesize) {run : Text}
    (hexplain : ∀ definition ∈ definitions, definition.name = run →
      glossary'.explain definition = glossary.explain definition)
    (exclude : List Text) (whole : Bool) :
    glossary'.standIn exclude whole run = glossary.standIn exclude whole run := by
  have hdefinition : glossary'.definition? run = glossary.definition? run := by
    apply Option.ext
    intro definition
    rw [h'.covers.definition?_eq_some_iff, h.covers.definition?_eq_some_iff, h'.definitions_eq,
      h.definitions_eq, List.mem_map, List.mem_map]
    constructor
    · rintro ⟨⟨old, hold, rfl⟩, hname⟩
      have hold := (hmem old).1 hold
      exact ⟨⟨old, hold, (hexplain old hold hname).symm⟩, hname⟩
    · rintro ⟨⟨old, hold, rfl⟩, hname⟩
      exact ⟨⟨old, (hmem old).2 hold, hexplain old hold hname⟩, hname⟩
  unfold standIn
  rw [hdefinition, hparenthesize]

/-- Glossaries of the same definitions explain each of them in the same way. -/
theorem Resolved.explain_eq (h : Resolved definitions glossary)
    (h' : Resolved definitions' glossary')
    (hmem : ∀ definition, definition ∈ definitions' ↔ definition ∈ definitions)
    (hparenthesize : glossary'.parenthesize = glossary.parenthesize) :
    ∀ definition ∈ definitions, glossary'.explain definition = glossary.explain definition := by
  apply h.induction
    (p := fun definition => glossary'.explain definition = glossary.explain definition)
  intro definition _ ih
  unfold explain
  rw [h'.covers.replace_eq, h.covers.replace_eq]
  congr 1
  refine Text.mapRuns_congr fun run hrun => h.standIn_eq h' hmem hparenthesize ?_ _ _
  rintro other hother rfl
  exact ih other hother hrun

/-- Glossaries of the same definitions make the same of every text. -/
theorem Resolved.replace_eq (h : Resolved definitions glossary)
    (h' : Resolved definitions' glossary')
    (hmem : ∀ definition, definition ∈ definitions' ↔ definition ∈ definitions)
    (hparenthesize : glossary'.parenthesize = glossary.parenthesize)
    (exclude : List Text) (text : Text) :
    (glossary'.replace exclude text).1 = (glossary.replace exclude text).1 := by
  rw [h'.covers.replace_eq, h.covers.replace_eq]
  exact Text.mapRuns_congr fun run _ => h.standIn_eq h' hmem hparenthesize
    (fun definition hdefinition _ => h.explain_eq h' hmem hparenthesize definition hdefinition) _ _

theorem Resolved.rewritten_eq (h : Resolved definitions glossary)
    (h' : Resolved definitions' glossary')
    (hmem : ∀ definition, definition ∈ definitions' ↔ definition ∈ definitions)
    (hparenthesize : glossary'.parenthesize = glossary.parenthesize)
    (source category : Category) (definition : Definition) :
    glossary'.rewritten source category definition =
      glossary.rewritten source category definition := by
  have hreplace := h.replace_eq h' hmem hparenthesize
  simp only [rewritten, explain, replaceInArgs, replaceIn, hreplace]

end Glossary

variable {places : Category → Equiv.Perm Nat} {table table' : SymbolTable} {parenthesize : Bool}

theorem HasNames.reorders (hnames : HasNames table) (h : table.Reorders places table') :
    HasNames table' := fun source hsource definition hmem =>
  hnames source hsource definition ((h source).mem_iff.1 hmem)

/-- Inlining one category keeps the order of the definitions. -/
theorem inlineCategory_reorders {source : Category} (hsource : source ∈ Category.inlined)
    (h : table.Reorders places table') (hnames : HasNames table) {next : SymbolTable}
    (hnext : inlineCategory parenthesize table source = .ok next) :
    ∃ next', inlineCategory parenthesize table' source = .ok next' ∧
      next.Reorders places next' := by
  have hmem := fun definition => (h source).mem_iff (a := definition)
  have hnames' := hnames.reorders h
  obtain ⟨glossary, hglossary, hinlines⟩ :=
    (inlineCategory_spec hsource (hnames source hsource)).1 hnext
  have hspec := Glossary.ofDefinitions_spec parenthesize (hnames source hsource)
  obtain ⟨hnodup, hacyclic⟩ := hspec.1.1 ⟨glossary, hglossary⟩
  have hexists : ∃ next', inlineCategory parenthesize table' source = .ok next' :=
    exists_inlineCategory (hnames' source hsource) (((h source).map Definition.name).nodup hnodup)
      (hacyclic.mono fun definition => (hmem definition).1)
  obtain ⟨next', hnext'⟩ := hexists
  obtain ⟨glossary', hglossary', hinlines'⟩ :=
    (inlineCategory_spec hsource (hnames' source hsource)).1 hnext'
  have hspec' := Glossary.ofDefinitions_spec parenthesize (hnames' source hsource)
  refine ⟨next', hnext', fun category => ?_⟩
  have hrewritten : glossary'.rewritten source category = glossary.rewritten source category :=
    funext (hinlines.resolved.rewritten_eq hinlines'.resolved hmem
      ((hspec'.2 glossary' hglossary').2.trans (hspec.2 glossary hglossary).2.symm) source category)
  rw [hinlines.get_eq, hinlines'.get_eq, hrewritten]
  exact (h category).map _

/-- Inlining some categories, one after the other, keeps the order of the definitions. -/
theorem foldlM_inlineCategory_reorders {sources : List Category}
    (hsources : ∀ source ∈ sources, source ∈ Category.inlined) (h : table.Reorders places table')
    (hnames : HasNames table) {result : SymbolTable}
    (hresult : sources.foldlM (inlineCategory parenthesize) table = .ok result) :
    ∃ result', sources.foldlM (inlineCategory parenthesize) table' = .ok result' ∧
      result.Reorders places result' := by
  induction sources generalizing table table' with
  | nil =>
      cases hresult
      exact ⟨table', rfl, h⟩
  | cons source later ih =>
      rw [List.forall_mem_cons] at hsources
      rw [List.foldlM_cons] at hresult
      obtain ⟨next, hnext, hrest⟩ := bind_eq_ok_iff.1 hresult
      obtain ⟨next', hnext', hreorders⟩ := inlineCategory_reorders hsources.1 h hnames hnext
      obtain ⟨glossary, -, hinlines⟩ :=
        (inlineCategory_spec hsources.1 (hnames source hsources.1)).1 hnext
      obtain ⟨result', hresult', hreorders'⟩ := ih hsources.2 hreorders
        (hnames.of_namesOf_eq (hinlines.namesOf_eq hsources.1)) hrest
      refine ⟨result', ?_, hreorders'⟩
      rw [List.foldlM_cons, bind_eq_ok_iff]
      exact ⟨next', hnext', hresult'⟩

end Inlining

end OdeModel
