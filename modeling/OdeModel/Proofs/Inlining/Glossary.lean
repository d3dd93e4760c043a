import OdeModel.Inlining.Names
import OdeModel.Proofs.Inlining.Occurrences

/-!
# Replacing names

A glossary changes all runs of an expression that are among its names, at once. The
other runs stay, and no runs grow together.
-/

namespace OdeModel

namespace Text

theorem runs_parenthesized (expr : Text) : runs (parenthesized expr) = runs expr := by
  rw [parenthesized, List.cons_append, runs_cons (by decide), runs_concat (by decide)]

/-- Parentheses do not touch the names of an expression. -/
theorem runs_wrap (parenthesize whole : Bool) (expr : Text) :
    runs (wrap parenthesize whole expr) = runs expr := by
  unfold wrap
  split
  next => exact runs_parenthesized expr
  next => rfl

end Text

namespace Inlining

namespace Glossary

/-- The names of a glossary are those of its definitions, and all of them can stand
in an expression. -/
structure Covers (glossary : Glossary) : Prop where
  names : glossary.names.Holds (glossary.definitions.map Definition.name)
  isNameText : ∀ definition ∈ glossary.definitions, Text.IsNameText definition.name

/-- The definition of a name. -/
def definition? (glossary : Glossary) (run : Text) : Option Definition :=
  ((glossary.definitions.map Definition.name).idxOf? run).bind fun id =>
    glossary.definitions[id]?

/-- What takes the place of a run in an expression, or of the whole expression. -/
def standIn (glossary : Glossary) (exclude : List Text) (whole : Bool) (run : Text) : Text :=
  if run ∈ exclude then run
  else
    match glossary.definition? run with
    | none => run
    | some definition => Text.wrap glossary.parenthesize whole definition.expr

variable {glossary : Glossary}

theorem Covers.word (h : Covers glossary) :
    ∀ word ∈ glossary.definitions.map Definition.name, Text.IsNameText word := by
  intro word hword
  obtain ⟨definition, hmem, rfl⟩ := List.mem_map.1 hword
  exact h.isNameText definition hmem

theorem Covers.definition?_eq_some_iff (h : Covers glossary) {run : Text}
    {definition : Definition} :
    glossary.definition? run = some definition ↔
      definition ∈ glossary.definitions ∧ definition.name = run := by
  simp only [definition?, Option.bind_eq_some_iff,
    Dictionary.idxOf?_eq_some_iff_of_nodup h.names.nodup, List.getElem?_map,
    Option.map_eq_some_iff]
  constructor
  · rintro ⟨id, ⟨other, hother, hname⟩, hget⟩
    rw [hother] at hget
    cases hget
    exact ⟨List.mem_of_getElem? hother, hname⟩
  · rintro ⟨hmem, rfl⟩
    obtain ⟨id, hget⟩ := List.mem_iff_getElem?.1 hmem
    exact ⟨id, ⟨definition, hget, rfl⟩, hget⟩

theorem definition?_eq_none_iff {run : Text} :
    glossary.definition? run = none ↔ run ∉ glossary.definitions.map Definition.name := by
  unfold definition?
  rw [Option.bind_eq_none_iff]
  constructor
  · intro h hmem
    obtain ⟨id, hid⟩ := Option.isSome_iff_exists.1 (List.isSome_idxOf?.2 hmem)
    have hlt := (List.idxOf?_eq_some_iff.1 hid).1
    rw [List.length_map] at hlt
    have hget := h id hid
    rw [List.getElem?_eq_getElem hlt] at hget
    contradiction
  · intro h id hid
    rw [List.idxOf?_eq_none_iff.2 h] at hid
    contradiction

/-- The definitions of a glossary are found under their names. -/
theorem Covers.find?_eq (h : Covers glossary) (run : Text) :
    (glossary.definitions.find? fun definition => definition.name == run) =
      glossary.definition? run := by
  cases hfind : glossary.definitions.find? fun definition => definition.name == run with
  | none =>
      rw [List.find?_eq_none] at hfind
      rw [eq_comm, definition?_eq_none_iff, List.mem_map]
      rintro ⟨definition, hmem, hname⟩
      exact hfind definition hmem (by simpa using hname)
  | some definition =>
      rw [eq_comm, h.definition?_eq_some_iff]
      exact ⟨List.mem_of_find?_eq_some hfind, by simpa using List.find?_some hfind⟩

/-! ### One expression -/

/-- The occurrence of a name at a place, if it is one to be replaced. -/
def choose (glossary : Glossary) (exclude : List Text) (place : Nat × Text) :
    Option Occurrence :=
  (Dictionary.occurrenceOf (glossary.definitions.map Definition.name) place).filter fun found =>
    !exclude.contains found.keyword

theorem Covers.exchanges (h : Covers glossary) (exclude : List Text) (whole : Bool) :
    Text.Exchanges (glossary.choose exclude)
      (fun found => Text.wrap glossary.parenthesize whole (glossary.meaning found))
      (glossary.standIn exclude whole) := by
  have hsome : ∀ {position run found}, glossary.choose exclude (position, run) = some found →
      glossary.definition? run = glossary.definitions[found.id]? ∧ found.keyword = run ∧
        found.start = position ∧ found.stop = position + Text.width run ∧
        (glossary.definition? run).isSome = true ∧ run ∉ exclude := by
    intro position run found hchoice
    rw [choose, Option.filter_eq_some_iff,
      Dictionary.occurrenceOf_eq_some_iff h.names.nodup] at hchoice
    obtain ⟨⟨hget, hplace, hstop⟩, hexclude⟩ := hchoice
    cases hplace
    rw [List.getElem?_map, Option.map_eq_some_iff] at hget
    obtain ⟨definition, hget, hname⟩ := hget
    have hdefinition : glossary.definition? found.keyword = some definition :=
      h.definition?_eq_some_iff.2 ⟨List.mem_of_getElem? hget, hname⟩
    exact ⟨hdefinition.trans hget.symm, rfl, rfl, hstop, by rw [hdefinition]; rfl,
      by simpa using hexclude⟩
  constructor
  case start => exact fun hchoice => (hsome hchoice).2.2.1
  case stop => exact fun hchoice => (hsome hchoice).2.2.2.1
  case chosen =>
    intro position run found hchoice
    obtain ⟨hdefinition, -, -, -, hdefined, hexclude⟩ := hsome hchoice
    obtain ⟨definition, hget⟩ := Option.isSome_iff_exists.1 hdefined
    simp [meaning, standIn, ← hdefinition, hget, hexclude]
  case other =>
    intro position run hchoice
    rw [choose, Option.filter_eq_none_iff] at hchoice
    unfold standIn
    split
    next => rfl
    next hexclude =>
      split
      next => rfl
      next definition hdefinition =>
        exfalso
        obtain ⟨hmem, rfl⟩ := h.definition?_eq_some_iff.1 hdefinition
        obtain ⟨id, hid⟩ := Option.isSome_iff_exists.1
          (List.isSome_idxOf?.2 (List.mem_map_of_mem (f := Definition.name) hmem))
        refine hchoice ⟨id, definition.name, position, position + Text.width definition.name⟩ ?_ ?_
        · simp [Dictionary.occurrenceOf, hid]
        · simpa using hexclude

theorem standIn_of_not_mem {exclude : List Text} {whole : Bool} {run : Text}
    (h : run ∉ glossary.definitions.map Definition.name) :
    glossary.standIn exclude whole run = run := by
  rw [standIn, definition?_eq_none_iff.2 h]
  split <;> rfl

/-- The one name that is found is the whole expression. -/
def takesWhole (found : List Occurrence) (expr : Text) : Bool :=
  match found with
  | [only] => only.start == 0 && only.stop == Text.width expr
  | _ => false

/-- A name that is the whole expression is found in nothing but a name, and a name
has no other name in it. -/
theorem Covers.takesWhole_eq (h : Covers glossary) (exclude : List Text) (expr : Text) :
    (Text.places 0 expr).filterMap (glossary.choose exclude) = [] ∨
      takesWhole ((Text.places 0 expr).filterMap (glossary.choose exclude)) expr =
        expr.all isNameChar := by
  by_cases hname : Text.IsNameText expr
  · by_cases hne : expr = []
    · exact Or.inl (by simp [hne])
    · rw [Text.places_of_isNameText 0 hname hne, List.filterMap_cons, List.filterMap_nil]
      cases hchoice : glossary.choose exclude (0, expr) with
      | none => exact Or.inl rfl
      | some found =>
          right
          have hstart := (h.exchanges exclude true).start hchoice
          have hstop := (h.exchanges exclude true).stop hchoice
          rw [List.all_eq_true.2 hname]
          simp [takesWhole, hstart, hstop]
  · -- a name that is the whole expression would make it one of name characters
    right
    have hall : expr.all isNameChar = false := by
      rw [Bool.eq_false_iff, ne_eq, List.all_eq_true]
      exact hname
    rw [hall, Bool.eq_false_iff]
    intro hwhole
    unfold takesWhole at hwhole
    split at hwhole
    next only honly =>
      have hmem : only ∈ (Text.places 0 expr).filterMap (glossary.choose exclude) := by
        rw [honly]
        exact List.mem_singleton.2 rfl
      obtain ⟨⟨position, run⟩, hplace, hchoice⟩ := List.mem_filterMap.1 hmem
      have hstart := (h.exchanges exclude true).start hchoice
      have hstop := (h.exchanges exclude true).stop hchoice
      obtain ⟨before, after, rfl, hposition, hrun⟩ := Text.mem_places_iff.1 hplace
      simp only [Bool.and_eq_true, beq_iff_eq, Text.width_append] at hwhole
      have hbefore : before = [] := by
        by_contra hne
        have := Text.width_pos hne
        omega
      have hafter : after = [] := by
        by_contra hne
        have := Text.width_pos hne
        omega
      rw [hbefore, hafter, List.nil_append, List.append_nil] at hname
      exact hname hrun.isNameText
    next => contradiction

/-- The names that are found and not excluded are the chosen runs. -/
theorem Covers.filter_delimited (h : Covers glossary) (exclude : List Text) (expr : Text) :
    (glossary.names.delimited expr).filter (fun found => !exclude.contains found.keyword) =
      (Text.places 0 expr).filterMap (glossary.choose exclude) := by
  rw [Dictionary.delimited_eq h.names h.word, List.filter_filterMap]
  rfl

/-- Replacing the names of an expression changes all of its runs at once. -/
theorem Covers.replace_eq (h : Covers glossary) (exclude : List Text) (expr : Text) :
    (glossary.replace exclude expr).1 =
      Text.mapRuns (glossary.standIn exclude (expr.all isNameChar)) expr := by
  have hfold := fun whole => (h.exchanges exclude whole).foldr_splice [] expr
  simp only [List.nil_append, Text.width_nil] at hfold
  have hreplace : (glossary.replace exclude expr).1 =
      Text.mapRuns (glossary.standIn exclude
        (takesWhole ((Text.places 0 expr).filterMap (glossary.choose exclude)) expr)) expr := by
    rw [← hfold, ← h.filter_delimited]
    rfl
  rcases h.takesWhole_eq exclude expr with hnone | hwhole
  · -- nothing is replaced, whether as a whole or not
    have hsame := fun whole => (hfold whole).symm
    simp only [hnone, List.foldr_nil] at hsame
    rw [hreplace, hsame, hsame]
  · rw [hreplace, hwhole]

/-- The runs of an expression with its names replaced: those that stay, and those of
the definitions that came in. -/
theorem Covers.mem_runs_replace_iff (h : Covers glossary) (exclude : List Text)
    (expr run : Text) :
    run ∈ Text.runs (glossary.replace exclude expr).1 ↔
      (run ∈ Text.runs expr ∧
        (run ∈ exclude ∨ run ∉ glossary.definitions.map Definition.name)) ∨
      ∃ definition ∈ glossary.definitions, definition.name ∉ exclude ∧
        definition.name ∈ Text.runs expr ∧ run ∈ Text.runs definition.expr := by
  have hstay : ∀ {old}, old ∈ Text.runs expr → Text.runs old = [old] := fun hold =>
    Text.runs_of_isNameText (Text.isNameText_of_mem_runs hold).2
      (Text.isNameText_of_mem_runs hold).1
  rw [h.replace_eq, Text.runs_mapRuns, List.mem_flatMap]
  constructor
  · rintro ⟨old, hold, hrun⟩
    unfold standIn at hrun
    split at hrun
    next hexclude =>
      rw [hstay hold, List.mem_singleton] at hrun
      subst hrun
      exact Or.inl ⟨hold, Or.inl hexclude⟩
    next hexclude =>
      split at hrun
      next hnone =>
        rw [hstay hold, List.mem_singleton] at hrun
        subst hrun
        exact Or.inl ⟨hold, Or.inr (definition?_eq_none_iff.1 hnone)⟩
      next definition hsome =>
        obtain ⟨hmem, rfl⟩ := h.definition?_eq_some_iff.1 hsome
        rw [Text.runs_wrap] at hrun
        exact Or.inr ⟨definition, hmem, hexclude, hold, hrun⟩
  · rintro (⟨hold, hfree⟩ | ⟨definition, hmem, hexclude, hold, hrun⟩)
    · refine ⟨run, hold, ?_⟩
      rcases hfree with hexclude | hfree
      · rw [standIn, if_pos hexclude, hstay hold]
        exact List.mem_singleton.2 rfl
      · rw [standIn_of_not_mem hfree, hstay hold]
        exact List.mem_singleton.2 rfl
    · refine ⟨definition.name, hold, ?_⟩
      rw [standIn, if_neg hexclude, h.definition?_eq_some_iff.2 ⟨hmem, rfl⟩, Text.runs_wrap]
      exact hrun

/-- An expression without names to be replaced stays as it is. -/
theorem Covers.replace_eq_self (h : Covers glossary) {exclude : List Text} {expr : Text}
    (hfree : ∀ run ∈ Text.runs expr,
      run ∈ glossary.definitions.map Definition.name → run ∈ exclude) :
    (glossary.replace exclude expr).1 = expr := by
  rw [h.replace_eq]
  apply Text.mapRuns_eq_self
  intro run hrun
  by_cases hmem : run ∈ glossary.definitions.map Definition.name
  · rw [standIn, if_pos (hfree run hrun hmem)]
  · exact standIn_of_not_mem hmem

end Glossary

end Inlining

end OdeModel
