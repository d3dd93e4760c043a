import OdeModel.Proofs.Dictionary.WholeText
import OdeModel.Proofs.Statement.Entries

/-!
# A scope of dictionaries

A scope can be kept in dictionaries in which names are looked up as whole texts: one
that grows with every name that is defined, and fixed ones for the words with a
meaning of their own. Such a registry accepts and refuses the same names, for the
same reasons.
-/

namespace OdeModel

theorem Matching.trail_eq_iff_of_sensitive {matching : Matching}
    (h : matching.caseSensitive = true) (s t : Text) :
    matching.trail s = matching.trail t ↔ s = t := by
  have hfold : ∀ text : Text, text.map matching.fold = text := fun text =>
    (List.map_congr_left fun c _ => if_pos h).trans (List.map_id text)
  rw [Matching.trail, Matching.trail, List.reverse_inj, hfold, hfold]

theorem Matching.trail_eq_iff_of_insensitive {matching : Matching}
    (h : matching.caseSensitive = false) (s t : Text) :
    matching.trail s = matching.trail t ↔ s.map Char.toLower = t.map Char.toLower := by
  have hfold : matching.fold = Char.toLower := funext fun c => by simp [Matching.fold, h]
  rw [Matching.trail, Matching.trail, List.reverse_inj, hfold]

/-- The dictionaries in which a name is looked up before it is defined. -/
structure Registry where
  /-- The marks of statements and the leading words of blocks. -/
  keywords : Dictionary
  /-- The names of built-in functions and constants. -/
  builtins : Dictionary
  /-- The options, in upper or lower case. -/
  options : Dictionary
  /-- The names defined so far. -/
  used : Dictionary
  /-- A name may not be that of an option. -/
  reserveOptions : Bool

namespace Registry

/-- The marks, and the leading words that are not among them. -/
def keywordList : List Text :=
  Form.marked.map Form.mark ++
    Vocabulary.blocks.filter fun block => !(Form.marked.map Form.mark).contains block

/-- The dictionary in which the given words are looked up. -/
def lookup (caseSensitive : Bool) (words : List Text) : Dictionary :=
  ((Dictionary.empty ⟨caseSensitive, true⟩).addAll words).1

/-- The registry without defined names. -/
def empty (reserveOptions : Bool) : Registry where
  keywords := lookup true keywordList
  builtins := lookup true Vocabulary.builtins
  options := lookup false Vocabulary.options
  used := Dictionary.empty ⟨true, true⟩
  reserveOptions := reserveOptions

/-- What forbids to define the name, if anything does. -/
def objection? (registry : Registry) (name : Text) : Option Fault :=
  if !Text.isIdentifier name then some .unknownAssignment
  else if registry.used.containsMatch name then some .duplicatedName
  else if registry.builtins.containsMatch name then some .reservedFunction
  else if registry.keywords.containsMatch name then some .reservedKeyword
  else if registry.reserveOptions && registry.options.containsMatch name then
    some .reservedOption
  else none

/-- Defines a name. -/
def define (registry : Registry) (name : Text) : Except Fault Registry :=
  match registry.objection? name with
  | some fault => .error fault
  | none =>
      match registry.used.insert name with
      | .ok (used, _) => .ok { registry with used }
      | .error _ => .error .duplicatedName

/-- The registry answers as the scope does. -/
structure Represents (registry : Registry) (scope : Scope) : Prop where
  keywords : ∀ name, registry.keywords.containsMatch name = Vocabulary.isKeyword name
  builtins : ∀ name, registry.builtins.containsMatch name = Vocabulary.isBuiltin name
  options : ∀ name, registry.options.containsMatch name = (Vocabulary.option? name).isSome
  reserveOptions : registry.reserveOptions = scope.reserveOptions
  wellFormed : registry.used.WellFormed
  matching : registry.used.matching = ⟨true, true⟩
  used : registry.used.keywords.toList = scope.names

open Dictionary in
/-- The dictionary of some words that differ contains what is compared like one of them. -/
theorem containsMatch_lookup {caseSensitive : Bool} {words : List Text}
    (hne : ∀ word ∈ words, word ≠ [])
    (hnodup : (words.map (Matching.trail ⟨caseSensitive, true⟩)).Nodup) (name : Text) :
    (lookup caseSensitive words).containsMatch name = true ↔ ∃ word ∈ words,
      Matching.trail ⟨caseSensitive, true⟩ word = Matching.trail ⟨caseSensitive, true⟩ name := by
  unfold lookup
  obtain ⟨hwf, hmatching, -, -⟩ := addAll_spec (WellFormed.empty ⟨caseSensitive, true⟩) words
  obtain ⟨hiff, hlist⟩ := addAll_keywords (WellFormed.empty ⟨caseSensitive, true⟩) hne
  have hkeywords : ((Dictionary.empty ⟨caseSensitive, true⟩).addAll words).1.keywords.toList =
      words := by
    refine (hlist (hiff.2 ⟨hnodup, fun word _ => ?_⟩)).trans (List.nil_append words)
    rintro ⟨known, hknown, -⟩
    exact absurd hknown List.not_mem_nil
  rw [containsMatch_iff_knows hwf (by rw [hmatching]; rfl), Knows, hkeywords, hmatching]
  rfl

/-- A dictionary for given words answers whether a name is one of them. -/
theorem containsMatch_lookup_sensitive {words : List Text} (hne : ∀ word ∈ words, word ≠ [])
    (hnodup : words.Nodup) (name : Text) :
    (lookup true words).containsMatch name = words.contains name := by
  have hinjective : Function.Injective (Matching.trail ⟨true, true⟩) := fun s t =>
    (Matching.trail_eq_iff_of_sensitive rfl s t).1
  rw [Bool.eq_iff_iff, containsMatch_lookup hne ((List.nodup_map_iff hinjective).2 hnodup),
    List.contains_iff_mem]
  simp only [Matching.trail_eq_iff_of_sensitive, exists_eq_right]

theorem containsMatch_keywords (name : Text) :
    (lookup true keywordList).containsMatch name = Vocabulary.isKeyword name := by
  have hne : ∀ word ∈ keywordList, word ≠ [] := by decide +kernel
  have hnodup : keywordList.Nodup := by decide +kernel
  rw [containsMatch_lookup_sensitive hne hnodup, Vocabulary.isKeyword, Bool.eq_iff_iff]
  simp only [keywordList, Bool.or_eq_true, List.contains_iff_mem, List.mem_append,
    List.mem_filter, Bool.not_eq_true']
  cases hmark : (Form.marked.map Form.mark).contains name with
  | true => simp [List.contains_iff_mem.1 hmark]
  | false => simp

theorem containsMatch_builtins (name : Text) :
    (lookup true Vocabulary.builtins).containsMatch name = Vocabulary.isBuiltin name := by
  have hne : ∀ word ∈ Vocabulary.builtins, word ≠ [] := by decide +kernel
  have hnodup : Vocabulary.builtins.Nodup := by decide +kernel
  exact containsMatch_lookup_sensitive hne hnodup name

/-- The letters of a text as the digits of a number, by which texts are told apart. -/
def digits (s : Text) : Nat := s.foldl (fun n c => 256 * n + c.toNat) 0

theorem containsMatch_options (name : Text) :
    (lookup false Vocabulary.options).containsMatch name = (Vocabulary.option? name).isSome := by
  have hne : ∀ option ∈ Vocabulary.options, option ≠ [] := by decide +kernel
  have hdigits : ((Vocabulary.options.map (Matching.trail ⟨false, true⟩)).map digits).Nodup := by
    decide +kernel
  rw [Bool.eq_iff_iff, containsMatch_lookup hne hdigits.of_map, Vocabulary.option?,
    List.find?_isSome]
  simp only [Matching.trail_eq_iff_of_insensitive, beq_iff_eq]

theorem Represents.of_fixed {keywords builtins options : Dictionary} (reserveOptions : Bool)
    (hkeywords : ∀ name, keywords.containsMatch name = Vocabulary.isKeyword name)
    (hbuiltins : ∀ name, builtins.containsMatch name = Vocabulary.isBuiltin name)
    (hoptions : ∀ name, options.containsMatch name = (Vocabulary.option? name).isSome) :
    Represents ⟨keywords, builtins, options, .empty ⟨true, true⟩, reserveOptions⟩
      (Scope.empty reserveOptions) :=
  ⟨hkeywords, hbuiltins, hoptions, rfl, Dictionary.WellFormed.empty _, rfl, rfl⟩

theorem represents_empty (reserveOptions : Bool) :
    (empty reserveOptions).Represents (Scope.empty reserveOptions) :=
  .of_fixed reserveOptions containsMatch_keywords containsMatch_builtins containsMatch_options

namespace Represents

variable {registry : Registry} {scope : Scope}

theorem containsMatch_used (h : registry.Represents scope) (name : Text) :
    registry.used.containsMatch name = scope.isUsed name := by
  have hwhole : registry.used.matching.wholeText = true := by rw [h.matching]
  rw [Bool.eq_iff_iff, Dictionary.containsMatch_iff_knows h.wellFormed hwhole, Dictionary.Knows,
    h.matching, h.used, Scope.isUsed, List.contains_iff_mem]
  simp only [Matching.trail_eq_iff_of_sensitive, exists_eq_right]

theorem objection?_eq (h : registry.Represents scope) (name : Text) :
    registry.objection? name = scope.objection? name := by
  rw [objection?, Scope.objection?, h.containsMatch_used, h.builtins, h.keywords, h.options,
    h.reserveOptions]

/-- A registry and a scope refuse the same name for the same reason, or both define it. -/
theorem define (h : registry.Represents scope) (name : Text) :
    (∃ fault, registry.define name = .error fault ∧ scope.define name = .error fault) ∨
      ∃ registry' scope', registry.define name = .ok registry' ∧
        scope.define name = .ok scope' ∧ registry'.Represents scope' := by
  rw [Registry.define, Scope.define, h.objection?_eq]
  cases hobjection : scope.objection? name with
  | some fault => exact Or.inl ⟨fault, rfl, rfl⟩
  | none =>
      obtain ⟨hidentifier, hunused, -⟩ := Scope.objection?_eq_none_iff.1 hobjection
      have hne : name ≠ [] := by
        rintro rfl
        contradiction
      have hfresh : ¬ registry.used.Knows name := by
        have hwhole : registry.used.matching.wholeText = true := by rw [h.matching]
        rw [← Dictionary.containsMatch_iff_knows h.wellFormed hwhole, h.containsMatch_used, hunused]
        decide
      have hadd := Dictionary.add_of_not_knows h.wellFormed hne hfresh
      have hinsert : registry.used.insert name =
          .ok ((registry.used.withKeyword name).relink, some registry.used.keywords.size) := by
        rw [Dictionary.insert, hadd]
        rfl
      right
      simp only [hinsert]
      refine ⟨_, _, rfl, rfl, h.keywords, h.builtins, h.options, h.reserveOptions,
        (h.wellFormed.add hadd).relink, h.matching, ?_⟩
      rw [show (registry.used.withKeyword name).relink.keywords =
        (registry.used.withKeyword name).keywords from rfl,
        Dictionary.toList_keywords_withKeyword, h.used]

end Represents

end Registry

end OdeModel
