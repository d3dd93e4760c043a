import OdeModel.Proofs.Arithmetic.Numerals
import OdeModel.Proofs.Line.Brackets
import OdeModel.Proofs.Line.Spacing

/-!
# Tidy lines

A text is tidy when there is something in it, its brackets are nested and it is in normal
spacing. The first steps of the preparation make every line tidy. The expansion of arrays
comes after them and keeps it so: a group and the variable only give way to digits, and the
blanks beside them stand outside of all brackets as before.
-/

namespace OdeModel

namespace Text

variable {variableName : Text} {index : Int}

/-! ### Digits in the place of something else -/

theorem takesBlank_of_isNameChar {c : Char} (h : isNameChar c = true) : takesBlank c = true := by
  refine takesBlank_eq_true_iff.2 ⟨isBlank_of_isNameChar h, ?_⟩
  rintro rfl
  exact absurd h (by decide)

theorem takesBlank_intText (n : Int) : ∀ c ∈ intText n, takesBlank c = true := by
  have hdigits : ∀ c ∈ natText n.natAbs, takesBlank c = true := by
    intro c hc
    have hdigit := isDigit_of_mem_natText hc
    refine takesBlank_eq_true_iff.2 ⟨isBlank_of_figure (by simp [hdigit]), ?_⟩
    rintro rfl
    exact absurd hdigit (by decide)
  unfold intText
  split
  next => exact List.forall_mem_cons.2 ⟨by decide, hdigits⟩
  next => exact hdigits

theorem intText_ne_nil (n : Int) : intText n ≠ [] := by
  unfold intText
  split
  next => exact List.cons_ne_nil _ _
  next => exact natText_ne_nil _

/-- Replacing leaves no text empty. -/
theorem replaceVariable_ne_nil {s : Text} (h : s ≠ []) :
    replaceVariable s variableName index ≠ [] := by
  intro hnil
  have hfrom : replaceFrom variableName (intText index) 0 s = [] := hnil
  rcases @head?_replaceFrom variableName (intText index) 0 s with hhead | ⟨-, hprefix⟩
  · rw [hfrom] at hhead
    exact h (List.head?_eq_none_iff.1 hhead.symm)
  · rw [hfrom] at hprefix
    exact intText_ne_nil index (List.prefix_nil.1 hprefix)

/-- A nested part of a text may give way to a whole number. -/
theorem IsSpaced.exchange_intText {before middle after : Text}
    (h : IsSpaced (before ++ (middle ++ after))) (hmiddle : Nested (fun _ => True) middle)
    (n : Int) : IsSpaced (before ++ (intText n ++ after)) := by
  have hdigits : Nested (fun _ => True) (intText n) := Nested.nil.congr (brackets_intText n).symm
  exact h.exchange (by rw [hdigits.level_eq, hmiddle.level_eq]) (intText_ne_nil n)
    (takesBlank_intText n)

/-- The index may take the place of the variable in a part of a text. -/
theorem IsSpaced.replaceVariable {before s after : Text} (h : IsSpaced (before ++ (s ++ after))) :
    IsSpaced (before ++ (replaceVariable s variableName index ++ after)) := by
  change IsSpaced (before ++ (replaceFrom variableName (intText index) 0 s ++ after))
  generalize (0 : Nat) = offset
  induction offset, s using operandsFrom_induction generalizing before with
  | nil offset =>
      rw [replaceFrom_nil]
      exact h
  | skip offset c rest _ _ heq ih =>
      rw [replaceFrom_skip heq]
      have hrest := @ih (before ++ [c]) (by simpa using h)
      simpa using hrest
  | operand operand rest hfits heq ih =>
      rw [replaceFrom_operand heq, List.append_assoc, ← List.append_assoc]
      refine ih ?_
      rw [List.append_assoc] at h ⊢
      unfold replacement
      split
      next hreplaced =>
        rw [Bool.and_eq_true, Bool.not_eq_true'] at hreplaced
        have hname := (hfits.name hreplaced.1).2.1
        have hnested : Nested (fun _ => True) operand.text :=
          Nested.nil.congr (brackets_of_isNameText hname).symm
        exact h.exchange_intText hnested index
      next => exact h

/-! ### Tidy texts -/

/-- There is something in the text, its brackets are nested and it is in normal spacing. -/
structure Tidy (s : Text) : Prop where
  ne_nil : s ≠ []
  nested : Nested (fun _ => True) s
  spaced : IsSpaced s

/-- Nested brackets and something that is no blank make a text tidy in normal spacing. -/
theorem tidy_normalSpacing {s : Text} (hne : s ≠ []) (hlast : s.getLast?.any isBlank = false)
    (hnested : Nested (fun _ => True) s) : Tidy (normalSpacing s) where
  ne_nil := by
    intro hnil
    have hkept := withoutBlanks_normalSpacing s
    rw [hnil] at hkept
    have hblank := List.filter_eq_nil_iff.1 hkept.symm _ (List.getLast_mem hne)
    rw [List.getLast?_eq_some_getLast hne, Option.any_some] at hlast
    simp [hlast] at hblank
  nested := hnested.congr (brackets_normalSpacing s).symm
  spaced := isSpaced_normalSpacing s

end Text

open Text

namespace Line

variable {line : Line} {variableName : Text} {index : Int}

/-- The blanks of a template stay as they are when its groups get their values. -/
theorem spaced_instantiateFrom {offset : Nat} {s result : Text}
    (h : line.instantiateFrom variableName index offset s = .ok result) (front : Text)
    (hnested : Nested (fun _ => True) (front ++ s)) (hspaced : IsSpaced (front ++ s)) :
    IsSpaced (front ++ result) := by
  refine instantiateFrom_nested_induction (motive := fun front s result =>
    IsSpaced (front ++ s) → IsSpaced (front ++ result)) ?plain ?group h hnested hspaced
  case plain =>
    intro front s _ _ hs
    have hreplaced := @IsSpaced.replaceVariable variableName index front s [] (by simpa using hs)
    simpa using hreplaced
  case group =>
    intro front before inside later n result _ hvalue _ ih hs
    have hgroup : Nested (fun _ => True) ('[' :: (inside ++ [']'])) :=
      (nested_of_evalText hvalue).bracketed rfl rfl rfl
    have hreplaced : IsSpaced (front ++ replaceVariable before variableName index ++
        ('[' :: (inside ++ [']']) ++ later)) := by
      simpa using @IsSpaced.replaceVariable variableName index front before _ hs
    simpa using ih (by simpa using hreplaced.exchange_intText hgroup n)

theorem ne_nil_instantiateFrom {offset : Nat} {s result : Text}
    (h : line.instantiateFrom variableName index offset s = .ok result) (hs : s ≠ []) :
    result ≠ [] := by
  refine instantiateFrom_induction (motive := fun s result => s ≠ [] → result ≠ [])
    ?plain ?group h hs
  case plain => exact fun s _ hs => replaceVariable_ne_nil hs
  case group =>
    intro plain inside c later n result _ _ _ _ _
    simp [intText_ne_nil]

/-- A header that is its own template is tidy as the line is. -/
theorem tidy_template {header : ArrayHeader} {range : Int × Nat}
    (h : ArrayHeader.ofText? line.text = some header) (hrange : line.range header = .ok range)
    (hline : Tidy line.text) (hname : IsNameText variableName) (hne : variableName ≠ []) :
    Tidy (header.template variableName) where
  ne_nil := by simp [ArrayHeader.template]
  nested := nested_template h hrange hline.nested hname
  spaced := by
    have hspaced := hline.spaced
    rw [(ArrayHeader.ofText?_eq_some_iff.1 h).text_eq] at hspaced
    have hopened : IsSpaced (header.before ++ ['['] ++
        ((header.low ++ '.' :: '.' :: header.high) ++ ']' :: header.after)) := by
      simpa using hspaced
    have hvariable : Nested (fun _ => True) variableName :=
      Nested.nil.congr (brackets_of_isNameText hname).symm
    have hlevel := fun depth => (hvariable.level_eq depth).trans
      ((nested_range hrange).level_eq depth).symm
    simpa [ArrayHeader.template] using
      hopened.exchange (hlevel _) hne fun c hc => takesBlank_of_isNameChar (hname c hc)

theorem tidy_instantiateFrom {s result : Text}
    (h : line.instantiateFrom variableName index 0 s = .ok result) (hs : Tidy s) : Tidy result where
  ne_nil := ne_nil_instantiateFrom h hs.ne_nil
  nested := nested_instantiateFrom h [] hs.nested
  spaced := spaced_instantiateFrom h [] hs.nested hs.spaced

/-- Every line of a prepared text passes the check of its brackets, has something in it and
is in normal spacing. -/
theorem prepare_tidy {name input : Text} {lines : List Line}
    (hvariable : isIdentifier variableName = true)
    (h : prepare name variableName input = .ok lines) :
    ∀ line ∈ lines, line.checkBrackets = .ok () ∧ line.text ≠ [] ∧
      line.withNormalSpacing = line ∧ IsSpaced line.text := by
  obtain ⟨-, hne, hname⟩ := isNameText_of_isIdentifier hvariable
  obtain ⟨raw, -, hnested, h⟩ := prepare_eq_ok_iff.1 h
  have hkept : ∀ line ∈ (withoutComments raw).map withNormalSpacing, Tidy line.text := by
    refine List.forall_mem_map.2 fun line hmem => ?_
    obtain ⟨hline, hsome⟩ := List.mem_filter.1 hmem
    obtain ⟨source, -, rfl⟩ := List.mem_map.1 hline
    exact tidy_normalSpacing (by simpa using hsome) (trimEnd_getLast? _) (hnested _ hmem)
  intro line hmem
  have htidy : Tidy line.text := forall_mem_expandArrays
    (fun _ _ _ hheader hrange hline => tidy_template hheader hrange hline hname hne)
    (fun _ _ _ _ htext hline => tidy_instantiateFrom htext hline) hkept h line hmem
  refine ⟨checkBrackets_eq_ok_iff.2 htidy.nested, htidy.ne_nil, ?_, htidy.spaced⟩
  rw [withNormalSpacing, normalSpacing_eq_self_iff.2 htidy.spaced]

/-- The lines of two arrays, with blanks around brackets and equals signs and beside a group. -/
theorem prepare_tidy_arrays :
    isIdentifier Vocabulary.arrayVariable = true ∧
    prepare [] Vocabulary.arrayVariable
        "%[1 .. 2]\n u[ j ]'  = f( [j] , 2 ) -  [j] ; # two\n%\nx [0..1] = j + ( j )".toList =
      .ok [⟨2, "u1'=f(1,2) - 1".toList⟩, ⟨2, "u2'=f(2,2) - 2".toList⟩,
        ⟨4, "x 0=0 + (0)".toList⟩, ⟨4, "x 1=1 + (1)".toList⟩] ∧
    normalSpacing "u2'=f(2,2) - 2".toList = "u2'=f(2,2) - 2".toList := by
  have hidentifier : isIdentifier Vocabulary.arrayVariable = true := by decide
  have hlines : prepare [] Vocabulary.arrayVariable
        "%[1 .. 2]\n u[ j ]'  = f( [j] , 2 ) -  [j] ; # two\n%\nx [0..1] = j + ( j )".toList =
      .ok [⟨2, "u1'=f(1,2) - 1".toList⟩, ⟨2, "u2'=f(2,2) - 2".toList⟩,
        ⟨4, "x 0=0 + (0)".toList⟩, ⟨4, "x 1=1 + (1)".toList⟩] := by
    decide +kernel
  obtain ⟨-, -, hspacing, -⟩ :=
    prepare_tidy hidentifier hlines ⟨2, "u2'=f(2,2) - 2".toList⟩ (by simp)
  exact ⟨hidentifier, hlines, congrArg Line.text hspacing⟩

end Line

end OdeModel
