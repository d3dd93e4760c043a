import OdeModel.Proofs.Inlining.Occurrences
import OdeModel.Proofs.Text.Operands

/-!
# Complete names and operands

What is inlined are the complete names in an expression; what is checked are its
operands. The two agree outside of number literals on the names that do not touch
a literal. A literal may hold a complete name, an exponent behind a point as in
`1.e5`, and a name that is glued to a literal, as in `2k`, is an operand only.
-/

namespace OdeModel

/-- Position of the first character, and the position after the last one. -/
def Occurrence.span (found : Occurrence) : Nat × Nat := (found.start, found.stop)

namespace Operand

/-- Position of the first character, and the position after the last one. -/
def span (operand : Operand) : Nat × Nat := (operand.offset, operand.stop)

/-- The operand is a name, and one of the given words. -/
def isNameOf (words : List Text) (operand : Operand) : Bool :=
  !operand.isNumber && words.contains operand.text

/-- A name character stands right before the operand. -/
def isGlued (expr : Text) (operand : Operand) : Bool :=
  (Text.around expr operand.offset).1.any isNameChar

instance (operand : Operand) (position : Nat) : Decidable (operand.Covers position) :=
  inferInstanceAs (Decidable (_ ∧ _))

end Operand

namespace Text

/-- The position belongs to a number literal of the expression. -/
def InNumber (expr : Text) (position : Nat) : Prop :=
  ∃ operand ∈ operands expr, operand.isNumber = true ∧ operand.Covers position

instance (expr : Text) (position : Nat) : Decidable (InNumber expr position) :=
  inferInstanceAs (Decidable (∃ operand ∈ operands expr, _ ∧ _))

/-- An operand covers a place only if the text in front of the operand is the start
of the text in front of the place. -/
theorem exists_between_of_covers {expr before after : Text} (hsplit : expr = before ++ after)
    {operand : Operand} (hmem : operand ∈ operands expr)
    (hcovers : operand.Covers (width before)) :
    ∃ first between later, before = first ++ between ∧ expr = first ++ operand.text ++ later ∧
      operand.text ++ later = between ++ after ∧ operand.offset = width first ∧
        width between < width operand.text ∧ operand.Fits later := by
  obtain ⟨first, later, hexpr, hoffset, hfits⟩ := exists_of_mem_operandsFrom 0 expr operand hmem
  rw [Nat.zero_add] at hoffset
  obtain ⟨hle, hlt⟩ := hcovers
  rw [Operand.stop, hoffset] at hlt
  rw [hoffset] at hle
  have hsame : first ++ (operand.text ++ later) = before ++ after := by
    rw [← List.append_assoc, ← hexpr, hsplit]
  obtain ⟨between, hbefore, hlater⟩ := exists_append_of_width_le hsame hle
  rw [hbefore, width_append] at hlt
  exact ⟨first, between, later, hbefore, hexpr, hlater, hoffset, by omega, hfits⟩

/-- No place is in a literal and at the start of a name. -/
theorem not_inNumber_offset {expr : Text} {operand : Operand} (hmem : operand ∈ operands expr)
    (hname : operand.isNumber = false) : ¬ InNumber expr operand.offset := by
  rintro ⟨number, hnumber, hisNumber, hle, hlt⟩
  have hpos := offset_lt_stop_of_mem_operandsFrom hmem
  rcases disjoint_operandsFrom 0 expr operand hmem number hnumber with rfl | h | h
  · rw [hname] at hisNumber
    contradiction
  · omega
  · omega

theorem isGlued_of_mem_places {expr run : Text} {operand : Operand}
    (hplace : (operand.offset, run) ∈ places 0 expr) : operand.isGlued expr = false := by
  obtain ⟨before, after, rfl, hoffset, hrun⟩ := mem_places_iff.1 hplace
  rw [Nat.zero_add] at hoffset
  rw [Operand.isGlued, hoffset, List.append_assoc, around, takeBytes_width_append]
  exact hrun.before

/-- A name that no name character touches on the left is a run of the text. -/
theorem mem_places_of_mem_operands {expr : Text} {operand : Operand}
    (hmem : operand ∈ operands expr) (hname : operand.isNumber = false)
    (hglued : operand.isGlued expr = false) : (operand.offset, operand.text) ∈ places 0 expr := by
  obtain ⟨before, after, rfl, hoffset, hfits⟩ := exists_of_mem_operandsFrom 0 expr operand hmem
  rw [Operand.isGlued, hoffset, Nat.zero_add, List.append_assoc, around,
    takeBytes_width_append] at hglued
  exact mem_places_iff.2 ⟨before, after, rfl, hoffset, hfits.ne_nil, (hfits.name hname).2.1,
    hglued, (hfits.name hname).2.2⟩

/-- A run that starts like a name is an operand, unless it starts inside of a literal. -/
theorem mem_operands_of_mem_places {expr run : Text} {position : Nat}
    (hplace : (position, run) ∈ places 0 expr) (hstart : run.head?.any isNameStart = true)
    (hnumber : ¬ InNumber expr position) : ⟨position, run, false⟩ ∈ operands expr := by
  obtain ⟨before, after, hsplit, hposition, hrun⟩ := mem_places_iff.1 hplace
  rw [Nat.zero_add] at hposition
  subst hposition
  obtain ⟨c, rest, rfl⟩ := List.exists_cons_of_ne_nil hrun.ne_nil
  rw [List.append_assoc] at hsplit
  obtain ⟨operand, hmem, hcovers⟩ :=
    exists_covers_of_isNameStart 0 expr before c (rest ++ after) hsplit (by simpa using hstart)
  rw [Nat.zero_add] at hcovers
  have hname : operand.isNumber = false := by
    by_contra h
    exact hnumber ⟨operand, hmem, by simpa using h, hcovers⟩
  obtain ⟨first, between, later, hbefore, -, hlater, hoffset, hlt, hfits⟩ :=
    exists_between_of_covers hsplit hmem hcovers
  -- the run touches no name character, so it starts where the operand does
  obtain rfl : between = [] := by
    by_contra hne
    have hlast : between.getLast? = some (between.getLast hne) :=
      List.getLast?_eq_some_getLast hne
    obtain ⟨more, htext, -⟩ := exists_append_of_width_le hlater.symm hlt.le
    have hchar := (hfits.name hname).2.1 (between.getLast hne)
      (htext ▸ List.mem_append_left _ (List.getLast_mem hne))
    have hbetween := hrun.before
    rw [hbefore, List.getLast?_append, hlast] at hbetween
    simp [hchar] at hbetween
  have htext : operand.text = c :: rest := by
    rw [← takeWhile_isNameChar (hfits.name hname).2.1 (hfits.name hname).2.2, hlater,
      List.nil_append, takeWhile_isNameChar hrun.isNameText hrun.after]
  rw [List.append_nil] at hbefore
  have hoperand : operand = ⟨width before, c :: rest, false⟩ := by
    rw [← htext, hbefore, ← hoffset, ← hname]
  exact hoperand ▸ hmem

/-- A run that starts like a name inside of a literal is its exponent behind a point. -/
theorem exponent_of_inNumber {expr run : Text} {position : Nat}
    (hplace : (position, run) ∈ places 0 expr) (hstart : run.head?.any isNameStart = true)
    (hnumber : InNumber expr position) :
    (run.head? = some 'e' ∨ run.head? = some 'E') ∧
      (around expr position).1 = some '.' := by
  obtain ⟨before, after, hsplit, hposition, hrun⟩ := mem_places_iff.1 hplace
  rw [Nat.zero_add] at hposition
  subst hposition
  obtain ⟨c, rest, rfl⟩ := List.exists_cons_of_ne_nil hrun.ne_nil
  rw [List.append_assoc] at hsplit
  obtain ⟨operand, hmem, hisNumber, hcovers⟩ := hnumber
  obtain ⟨first, between, later, hbefore, -, hlater, hoffset, hlt, hfits⟩ :=
    exists_between_of_covers hsplit hmem hcovers
  obtain ⟨hstarts, hspan⟩ := hfits.number hisNumber
  obtain ⟨more, htext, hmore⟩ := exists_append_of_width_le hlater.symm hlt.le
  cases more with
  | nil =>
      rw [List.append_nil] at htext
      rw [htext] at hlt
      exact absurd hlt (Nat.lt_irrefl _)
  | cons d more =>
      rw [List.cons_append, List.cons_append, List.cons.injEq] at hmore
      obtain ⟨rfl, -⟩ := hmore
      rw [List.head?_cons, Option.any_some] at hstart
      obtain ⟨hletter, d, hlast, hd⟩ :=
        spanNumber_letter hstarts (by rw [hspan]; exact htext) hstart
      rw [hsplit, around, takeBytes_width_append, hbefore, List.getLast?_append, hlast]
      refine ⟨by simpa using hletter, ?_⟩
      rcases hd with hd | rfl
      · -- a digit would be part of the run
        have hbetween := hrun.before
        rw [hbefore, List.getLast?_append, hlast] at hbetween
        simp [isNameChar_of_ascii (c := d) (by simp [hd])] at hbetween
      · rfl

end Text

namespace Dictionary

variable {words : List Text} {d : Dictionary}

theorem pairwise_delimited (h : d.Holds words)
    (hwords : ∀ word ∈ words, Text.IsNameText word) (expr : Text) :
    (d.delimited expr).Pairwise fun found found' => found.start < found'.start := by
  rw [delimited_eq h hwords]
  exact (pairwise_filterMap_occurrenceOf h.nodup expr).imp fun hbehind => by omega

/-- A complete name outside of literals is a name among the operands, and no name
character touches it. -/
theorem exists_operand_of_mem_delimited (h : d.Holds words)
    (hwords : ∀ word ∈ words, Text.isIdentifier word = true) {expr : Text} {found : Occurrence}
    (hmem : found ∈ d.delimited expr) (hnumber : ¬ Text.InNumber expr found.start) :
    ∃ operand ∈ Text.operands expr, operand.isNameOf words = true ∧
      operand.isGlued expr = false ∧ operand.span = found.span := by
  have hname := fun word hword => Text.isNameText_of_isIdentifier (hwords word hword)
  obtain ⟨hkeyword, hplace, hstop⟩ :=
    (mem_delimited_iff h (fun word hword => (hname word hword).2.2) expr found).1 hmem
  have hword := List.mem_of_getElem? hkeyword
  refine ⟨⟨found.start, found.keyword, false⟩,
    Text.mem_operands_of_mem_places hplace (hname _ hword).1 hnumber, ?_,
    Text.isGlued_of_mem_places hplace, ?_⟩
  · simpa [Operand.isNameOf] using hword
  · rw [Occurrence.span, hstop]
    rfl

/-- A name among the operands that no name character touches is complete. -/
theorem exists_delimited_of_mem_operands (h : d.Holds words)
    (hwords : ∀ word ∈ words, Text.IsNameText word) {expr : Text} {operand : Operand}
    (hmem : operand ∈ Text.operands expr) (hname : operand.isNameOf words = true)
    (hglued : operand.isGlued expr = false) :
    ∃ found ∈ d.delimited expr, found.span = operand.span := by
  rw [Operand.isNameOf, Bool.and_eq_true, Bool.not_eq_true', List.contains_iff_mem] at hname
  obtain ⟨id, hid⟩ := List.mem_iff_getElem?.1 hname.2
  exact ⟨⟨id, operand.text, operand.offset, operand.stop⟩,
    (mem_delimited_iff h hwords expr _).2
      ⟨hid, Text.mem_places_of_mem_operands hmem hname.1 hglued, rfl⟩, rfl⟩

theorem isNumber_of_isNameOf {operand : Operand} (h : operand.isNameOf words = true) :
    operand.isNumber = false := by
  rw [Operand.isNameOf, Bool.and_eq_true, Bool.not_eq_true'] at h
  exact h.1

/-- The first span starts before the second one. -/
def StartsBefore (first second : Nat × Nat) : Prop := first.1 < second.1

instance : Std.Antisymm StartsBefore where
  antisymm _ _ hfirst hsecond := absurd hsecond (Nat.lt_asymm hfirst)

instance : Std.Irrefl StartsBefore where
  irrefl span := Nat.lt_irrefl span.1

/-- Outside of literals the complete names are the names among the operands that no
name character touches. -/
theorem map_span_delimited_filter (h : d.Holds words)
    (hwords : ∀ word ∈ words, Text.isIdentifier word = true) (expr : Text) :
    ((d.delimited expr).filter fun found => !Text.InNumber expr found.start).map
        Occurrence.span =
      ((Text.operands expr).filter fun operand =>
        operand.isNameOf words && !operand.isGlued expr).map Operand.span := by
  have hnames : ∀ word ∈ words, Text.IsNameText word :=
    fun word hword => (Text.isNameText_of_isIdentifier (hwords word hword)).2.2
  have hleft : (((d.delimited expr).filter fun found => !Text.InNumber expr found.start).map
      Occurrence.span).Pairwise StartsBefore :=
    List.pairwise_map.2 ((pairwise_delimited h hnames expr).filter _)
  have hright : (((Text.operands expr).filter fun operand =>
      operand.isNameOf words && !operand.isGlued expr).map Operand.span).Pairwise StartsBefore :=
    List.pairwise_map.2 ((Text.pairwise_offset_operandsFrom 0 expr).filter _)
  apply hleft.eq_of_mem_iff hright
  intro span
  simp only [List.mem_map, List.mem_filter, Bool.and_eq_true, Bool.not_eq_true',
    decide_eq_false_iff_not]
  constructor
  · rintro ⟨found, ⟨hmem, hnumber⟩, rfl⟩
    obtain ⟨operand, hoperand, hname, hglued, hspan⟩ :=
      exists_operand_of_mem_delimited h hwords hmem hnumber
    exact ⟨operand, ⟨hoperand, hname, hglued⟩, hspan⟩
  · rintro ⟨operand, ⟨hmem, hname, hglued⟩, rfl⟩
    obtain ⟨found, hfound, hspan⟩ :=
      exists_delimited_of_mem_operands h hnames hmem hname hglued
    have hstart : found.start = operand.offset := congrArg Prod.fst hspan
    refine ⟨found, ⟨hfound, ?_⟩, hspan⟩
    rw [hstart]
    exact Text.not_inNumber_offset hmem (isNumber_of_isNameOf hname)

/-- The complete names of an expression are searched with the automaton, and its
operands are read from left to right. Outside of number literals, the two find the
same names in the same order, except for those that are glued to a literal and are
operands only. A complete name inside of a literal starts its exponent and stands
behind a point. So the two agree on an expression just when no name among the
operands is glued and no complete name stands inside of a literal. -/
theorem delimited_agrees_operands (words : List Text) (hnodup : words.Nodup)
    (hwords : ∀ word ∈ words, Text.isIdentifier word = true) :
    ∃ d, ofKeywords { } words = .ok d ∧ ∀ expr : Text,
      ((d.delimited expr).filter fun found => !Text.InNumber expr found.start).map
          Occurrence.span =
        ((Text.operands expr).filter fun operand =>
          operand.isNameOf words && !operand.isGlued expr).map Operand.span ∧
      (∀ found ∈ d.delimited expr, Text.InNumber expr found.start →
        (found.keyword.head? = some 'e' ∨ found.keyword.head? = some 'E') ∧
          (Text.around expr found.start).1 = some '.') ∧
      ((d.delimited expr).map Occurrence.span =
          ((Text.operands expr).filter fun operand => operand.isNameOf words).map Operand.span ↔
        (∀ found ∈ d.delimited expr, ¬ Text.InNumber expr found.start) ∧
          ∀ operand ∈ Text.operands expr, operand.isNameOf words = true →
            operand.isGlued expr = false) := by
  have hname := fun word hword => Text.isNameText_of_isIdentifier (hwords word hword)
  have hnames : ∀ word ∈ words, Text.IsNameText word := fun word hword => (hname word hword).2.2
  have hspec := ofKeywords_spec fun word hword => (hname word hword).2.1
  obtain ⟨d, hd⟩ := hspec.1.2 hnodup
  have h := hspec.2 d hd
  refine ⟨d, hd, fun expr => ⟨map_span_delimited_filter h hwords expr, ?_, ?_, ?_⟩⟩
  · intro found hmem hnumber
    obtain ⟨hkeyword, hplace, -⟩ := (mem_delimited_iff h hnames expr found).1 hmem
    exact Text.exponent_of_inNumber hplace
      (hname _ (List.mem_of_getElem? hkeyword)).1 hnumber
  · intro hsame
    constructor
    · -- a complete name at the place of an operand that is a name is in no literal
      intro found hmem
      have hspan : found.span ∈ ((Text.operands expr).filter fun operand =>
          operand.isNameOf words).map Operand.span := hsame ▸ List.mem_map_of_mem hmem
      obtain ⟨operand, hoperand, hspan⟩ := List.mem_map.1 hspan
      obtain ⟨hoperand, hnameOf⟩ := List.mem_filter.1 hoperand
      have hstart : operand.offset = found.start := congrArg Prod.fst hspan
      rw [← hstart]
      exact Text.not_inNumber_offset hoperand (isNumber_of_isNameOf hnameOf)
    · intro operand hmem hnameOf
      have hspan : operand.span ∈ (d.delimited expr).map Occurrence.span :=
        hsame ▸ List.mem_map_of_mem (List.mem_filter.2 ⟨hmem, hnameOf⟩)
      obtain ⟨found, hfound, hspan⟩ := List.mem_map.1 hspan
      have hstart : found.start = operand.offset := congrArg Prod.fst hspan
      obtain ⟨-, hplace, -⟩ := (mem_delimited_iff h hnames expr found).1 hfound
      exact Text.isGlued_of_mem_places (hstart ▸ hplace)
  · rintro ⟨hnumber, hglued⟩
    have hall : (d.delimited expr).filter (fun found => !Text.InNumber expr found.start) =
        d.delimited expr :=
      List.filter_eq_self.2 fun found hmem => by simpa using hnumber found hmem
    have hkept : (Text.operands expr).filter (fun operand =>
        operand.isNameOf words && !operand.isGlued expr) =
          (Text.operands expr).filter fun operand => operand.isNameOf words :=
      List.filter_congr fun operand hmem => by
        cases hnameOf : operand.isNameOf words with
        | false => rfl
        | true => simp [hglued operand hmem hnameOf]
    rw [← hall, map_span_delimited_filter h hwords expr, hkept]

/-- In `1.e5+2k*e5` only the last name is both complete and an operand. -/
theorem delimited_agrees_operands_glued :
    ["k".toList, "e5".toList].Nodup ∧
      (∀ word ∈ ["k".toList, "e5".toList], Text.isIdentifier word = true) ∧
      ∃ d, ofKeywords { } ["k".toList, "e5".toList] = .ok d ∧
        ((d.delimited "1.e5+2k*e5".toList).filter fun found =>
          !Text.InNumber "1.e5+2k*e5".toList found.start).map Occurrence.span = [(8, 10)] := by
  refine ⟨by decide, by decide, ?_⟩
  obtain ⟨d, hd, h⟩ := delimited_agrees_operands ["k".toList, "e5".toList]
    (by decide) (by decide)
  refine ⟨d, hd, ?_⟩
  rw [(h _).1]
  decide +kernel

/-- A complete name inside of the literal `1.e5`, and an operand `x` of `2x` that is
no complete name. -/
theorem delimited_operands_differ :
    (ofKeywords { } ["e5".toList]).toOption.map (fun d =>
      ((d.delimited "1.e5*x".toList).map Occurrence.span,
        ((Text.operands "1.e5*x".toList).filter fun operand =>
          operand.isNameOf ["e5".toList]).map Operand.span)) = some ([(2, 4)], []) ∧
    (ofKeywords { } ["x".toList]).toOption.map (fun d =>
      ((d.delimited "2x".toList).map Occurrence.span,
        ((Text.operands "2x".toList).filter fun operand =>
          operand.isNameOf ["x".toList]).map Operand.span)) = some ([], [(1, 2)]) := by
  constructor <;> decide +kernel

end Dictionary

end OdeModel
