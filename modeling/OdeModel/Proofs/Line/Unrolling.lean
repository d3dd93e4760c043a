import OdeModel.Proofs.Line.Brackets

/-!
# What arrays expand to

The result of an expansion, described without the steps that lead to it. A header is found by
its first square brackets and a group by the bracket that closes it, but in a line that passes
the check of its brackets a group has no brackets of its own. So the text of a template is cut
into groups, which give way to their values, and texts between them, in which the variable
gives way to the index. The lines stand in the order of the arrays, the indices and the
templates, and none is left out.
-/

namespace OdeModel

namespace Text

variable {variableName index s t : Text}

/-! ### Square brackets -/

theorem mem_brackets_iff {c : Char} (hc : (isOpening c || isClosing c) = true) :
    c ∈ brackets s ↔ c ∈ s := by
  simp [brackets, List.mem_filter, hc]

theorem mem_replaceVariable_iff {c : Char} (hc : (isOpening c || isClosing c) = true) (n : Int) :
    c ∈ replaceVariable s variableName n ↔ c ∈ s := by
  rw [← mem_brackets_iff hc, brackets_replaceVariable, mem_brackets_iff hc]

theorem bracket_not_mem_intText {c : Char} (hc : (isOpening c || isClosing c) = true) (n : Int) :
    c ∉ intText n := by
  rw [← mem_brackets_iff hc, brackets_intText]
  exact List.not_mem_nil

/-- A text that opens no square bracket closes none. -/
theorem Nested.not_mem_close {outside : Char → Prop} (h : Nested outside s) (hopen : '[' ∉ s) :
    ']' ∉ s := by
  induction h with
  | nil => exact List.not_mem_nil
  | @cons _ c s hopening hclosing _ _ ih =>
      rw [List.mem_cons, not_or] at hopen ⊢
      refine ⟨?_, ih hopen.2⟩
      rintro rfl
      contradiction
  | @enclosed _ o c inside s ho hc hkind _ _ ihinside ih =>
      simp only [List.mem_cons, List.mem_append, not_or] at hopen ⊢
      refine ⟨?_, ihinside hopen.2.1, ?_, ih hopen.2.2.2⟩
      · rintro rfl
        contradiction
      · rintro rfl
        exact hopen.1 hkind

/-- A text with a value has no square brackets. -/
theorem not_mem_of_evalText {env : Environment} {value : Value} (h : evalText env s = .ok value) :
    '[' ∉ s ∧ ']' ∉ s := by
  obtain ⟨tokens, expr, hlexes, -⟩ := exists_of_evalText h
  have hround : ∀ c ∈ brackets s, c = '(' ∨ c = ')' := by
    rw [hlexes.brackets_eq]
    intro c hc
    obtain ⟨token, -, htoken⟩ := List.mem_filterMap.1 hc
    cases token <;> cases htoken
    · exact .inl rfl
    · exact .inr rfl
  constructor
  · rw [← mem_brackets_iff rfl]
    exact fun hmem => absurd (hround _ hmem) (by decide)
  · rw [← mem_brackets_iff rfl]
    exact fun hmem => absurd (hround _ hmem) (by decide)

/-! ### The variable -/

/-- The text from position `offset` on, of which these are the operands, with the index in
place of every operand that is the variable. Everything else is as before. -/
inductive Replaced (variableName index : Text) : Nat → List Operand → Text → Text → Prop
  /-- There is no other operand. -/
  | rest (offset : Nat) (s : Text) : Replaced variableName index offset [] s s
  /-- The next operand stands behind a gap. -/
  | operand {offset : Nat} {operand : Operand} {later : List Operand} {s t : Text} (gap : Text)
      (hgap : offset + width gap = operand.offset)
      (hlater : Replaced variableName index operand.stop later s t) :
      Replaced variableName index offset (operand :: later) (gap ++ (operand.text ++ s))
        (gap ++ ((if operand.text = variableName then index else operand.text) ++ t))

theorem Replaced.cons {offset : Nat} {c : Char} {operands : List Operand}
    (h : Replaced variableName index (offset + c.utf8Size) operands s t) :
    Replaced variableName index offset operands (c :: s) (c :: t) := by
  cases h with
  | rest => exact .rest offset (c :: s)
  | operand gap hgap hlater =>
      exact .operand (c :: gap) (by rw [width_cons, ← Nat.add_assoc, hgap]) hlater

/-- A number is not the variable. -/
theorem ne_of_fits {operand : Operand} (hvariable : isIdentifier variableName = true)
    (h : operand.Fits s) (hnumber : operand.isNumber = true) : operand.text ≠ variableName := by
  intro heq
  obtain ⟨hstart, -⟩ := isNameText_of_isIdentifier hvariable
  obtain ⟨c, rest, hcons⟩ := List.exists_cons_of_ne_nil h.ne_nil
  rw [← heq, hcons] at hstart
  have hfigure := (h.number hnumber).1
  rw [hcons, List.cons_append] at hfigure
  exact absurd hstart (Bool.eq_false_iff.1 (isNameStart_of_startsNumber hfigure))

theorem replacement_eq_ite {operand : Operand}
    (h : operand.isNumber = true → operand.text ≠ variableName) :
    replacement variableName index operand =
      if operand.text = variableName then index else operand.text := by
  unfold replacement
  cases hnumber : operand.isNumber with
  | false => simp
  | true => simp [h hnumber]

/-- Replacing puts the index in place of the operands that are the variable. -/
theorem replaced_replaceFrom (hvariable : isIdentifier variableName = true) (offset : Nat)
    (s : Text) : Replaced variableName index offset (operandsFrom offset s) s
      (replaceFrom variableName index offset s) := by
  induction offset, s using operandsFrom_induction with
  | nil offset =>
      rw [replaceFrom_nil, operandsFrom]
      exact .rest offset []
  | skip offset c rest _ _ heq ih =>
      rw [replaceFrom_skip heq, heq]
      exact ih.cons
  | operand operand rest hfits heq ih =>
      rw [replaceFrom_operand heq, heq, replacement_eq_ite (ne_of_fits hvariable hfits)]
      exact .operand [] rfl ih

theorem Replaced.eq_replaceOperands {offset : Nat} {operands : List Operand}
    (h : Replaced variableName index offset operands s t)
    (hnumber : ∀ operand ∈ operands, operand.isNumber = true → operand.text ≠ variableName) :
    t = replaceOperands variableName index offset operands s := by
  induction h with
  | rest => rfl
  | @operand offset operand later s t gap hgap _ ih =>
      obtain ⟨hfirst, hlater⟩ := List.forall_mem_cons.1 hnumber
      have hoffset : operand.offset - offset = width gap := by omega
      have hstop : operand.stop - offset = width (gap ++ operand.text) := by
        rw [width_append, Operand.stop]
        omega
      rw [replaceOperands, hoffset, takeBytes_width_append, ← replacement_eq_ite hfirst, ih hlater]
      change _ = gap ++ replacement variableName index operand ++
        replaceOperands variableName index operand.stop later
          (dropBytes (operand.stop - offset) (gap ++ (operand.text ++ s)))
      rw [hstop, ← List.append_assoc gap operand.text, dropBytes_width_append, List.append_assoc]

/-- The index in place of the variable in a text. -/
theorem replaced_iff (hvariable : isIdentifier variableName = true) {n : Int} :
    Replaced variableName (intText n) 0 (operands s) s t ↔
      t = replaceVariable s variableName n := by
  constructor
  · intro h
    refine h.eq_replaceOperands fun operand hmem => ?_
    obtain ⟨_, _, _, _, hfits⟩ := exists_of_mem_operandsFrom 0 s operand hmem
    exact ne_of_fits hvariable hfits
  · rintro rfl
    exact replaced_replaceFrom hvariable 0 s

/-! ### Templates -/

/-- The text of a template at an index: each group in square brackets gives way to its value,
and between the groups the index takes the place of the variable. -/
inductive Filled (variableName : Text) (index : Int) : Text → Text → Prop
  /-- There is no other group. -/
  | plain {s t : Text} (hopen : '[' ∉ s)
      (hreplaced : Replaced variableName (intText index) 0 (operands s) s t) :
      Filled variableName index s t
  /-- The next group stands behind a text without one. -/
  | group {before inside later replaced t : Text} {n : Int} (hopen : '[' ∉ before)
      (hinside : '[' ∉ inside ∧ ']' ∉ inside)
      (hreplaced : Replaced variableName (intText index) 0 (operands before) before replaced)
      (hvalue : evalText (Environment.empty.set variableName (.whole index)) inside =
        .ok (.whole n))
      (hlater : Filled variableName index later t) :
      Filled variableName index (before ++ '[' :: (inside ++ ']' :: later))
        (replaced ++ (intText n ++ t))

end Text

open Text

/-- The header stands for the indices from `low` to `high`, the values of its bounds. -/
structure ArrayHeader.Spans (header : ArrayHeader) (low high : Int) : Prop where
  low_value : evalText .empty (trim header.low) = .ok (.whole low)
  high_value : evalText .empty (trim header.high) = .ok (.whole high)
  low_le_high : low ≤ high

namespace Line

variable {line template : Line} {variableName : Text} {index : Int}

/-- What a nested template becomes. -/
theorem instantiateFrom_eq_ok_iff (hvariable : isIdentifier variableName = true) {s result : Text}
    (hs : Nested (fun _ => True) s) : line.instantiateFrom variableName index 0 s = .ok result ↔
      Filled variableName index s result := by
  constructor
  · intro h
    have hfront : Nested (fun _ => True) ([] ++ s) := hs
    refine instantiateFrom_nested_induction (motive := fun _ s result =>
      Filled variableName index s result) ?plain ?group h hfront
    case plain => exact fun _ s hopen _ => .plain hopen ((replaced_iff hvariable).2 rfl)
    case group =>
      intro _ before inside later n result hopen hvalue _ ih
      rw [List.append_assoc]
      exact .group hopen (not_mem_of_evalText hvalue) ((replaced_iff hvariable).2 rfl) hvalue ih
  · intro h
    clear hs
    generalize (0 : Nat) = offset
    induction h generalizing offset with
    | plain hopen hreplaced =>
        rw [(replaced_iff hvariable).1 hreplaced]
        exact instantiateFrom_plain hopen offset
    | group hopen _ hreplaced hvalue _ ih =>
        rw [(replaced_iff hvariable).1 hreplaced, ← List.append_assoc]
        exact instantiateFrom_group hopen (nested_of_evalText hvalue).balanced hvalue ih offset

/-- A template that became a line opens no square bracket. -/
theorem not_mem_open_instantiateFrom {offset : Nat} {s result : Text}
    (h : line.instantiateFrom variableName index offset s = .ok result) : '[' ∉ result := by
  refine instantiateFrom_induction (motive := fun _ result => '[' ∉ result) ?plain ?group h
  case plain =>
    intro s hopen
    rwa [mem_replaceVariable_iff rfl]
  case group =>
    intro before inside c later n result hopen _ _ ih
    simp only [List.mem_append, not_or, mem_replaceVariable_iff (c := '[') rfl]
    exact ⟨⟨hopen, bracket_not_mem_intText rfl n⟩, ih⟩

/-- The line that a template stands for at an index. -/
structure IsInstance (variableName : Text) (index : Int) (template line : Line) : Prop where
  number_eq : line.number = template.number
  filled : Filled variableName index template.text line.text
  not_mem_open : '[' ∉ line.text
  not_mem_close : ']' ∉ line.text

theorem instantiate_eq_ok_iff (hvariable : isIdentifier variableName = true)
    (hnested : Nested (fun _ => True) template.text) :
    template.instantiate variableName index = .ok line ↔
      IsInstance variableName index template line := by
  rw [instantiate, bind_eq_ok_iff]
  constructor
  · rintro ⟨text, htext, hline⟩
    cases hline
    have hopen := not_mem_open_instantiateFrom htext
    exact ⟨rfl, (instantiateFrom_eq_ok_iff hvariable hnested).1 htext, hopen,
      (nested_instantiateFrom htext [] hnested).not_mem_close hopen⟩
  · rintro ⟨hnumber, hfilled, -, -⟩
    refine ⟨line.text, (instantiateFrom_eq_ok_iff hvariable hnested).2 hfilled, ?_⟩
    rw [← hnumber]
    rfl

/-- The lines that the templates stand for at the indices from `low` to `high`: index by index,
and one for each template and index. -/
structure AreInstances (variableName : Text) (low high : Int) (templates lines : List Line) :
    Prop where
  length_eq : (lines.length : Int) = (high - low + 1) * templates.length
  instances : List.Forall₂ (fun place line => IsInstance variableName place.1 place.2 line)
    (indices low (high - low + 1).toNat ×ˢ templates) lines

theorem instantiateAll_eq_ok_iff_areInstances (hvariable : isIdentifier variableName = true)
    {templates lines : List Line} {low high : Int} (hle : low ≤ high)
    (hnested : AllNested templates) :
    instantiateAll templates variableName (high - low + 1).toNat low = .ok lines ↔
      AreInstances variableName low high templates lines := by
  have hplaces : ∀ place ∈ indices low (high - low + 1).toNat ×ˢ templates, ∀ line,
      place.2.instantiate variableName place.1 = .ok line ↔
        IsInstance variableName place.1 place.2 line := fun place hmem _ =>
    instantiate_eq_ok_iff hvariable (hnested _ (List.mem_product.1 hmem).2)
  rw [instantiateAll_eq_ok_iff, forall₂_congr_of_mem hplaces]
  refine ⟨fun h => ⟨?_, h⟩, fun h => h.instances⟩
  rw [← h.length_eq, List.length_product, length_indices, Nat.cast_mul,
    Int.toNat_of_nonneg (by omega)]

/-- What a list of lines expands to. -/
inductive Unrolled (variableName : Text) : List Line → List Line → Prop
  /-- No lines. -/
  | nil : Unrolled variableName [] []
  /-- A line that is no header stays. -/
  | plain {line : Line} {rest result : List Line}
      (hplain : ∀ header : ArrayHeader, ¬ header.Heads line.text)
      (hrest : Unrolled variableName rest result) :
      Unrolled variableName (line :: rest) (line :: result)
  /-- A header without a percent sign is its own template. -/
  | single {line : Line} {header : ArrayHeader} {low high : Int}
      {rest expanded result : List Line} (hheader : header.Heads line.text)
      (hsingle : ∀ front, header.before ≠ front ++ ['%']) (hrange : header.Spans low high)
      (hexpanded : AreInstances variableName low high
        [{ line with text := header.template variableName }] expanded)
      (hrest : Unrolled variableName rest result) :
      Unrolled variableName (line :: rest) (expanded ++ result)
  /-- Behind a header with a percent sign the templates go on to the next percent sign. -/
  | block {line closing : Line} {header : ArrayHeader} {low high : Int} {front : Text}
      {templates rest expanded result : List Line} (hheader : header.Heads line.text)
      (hblock : header.before = front ++ ['%']) (hrange : header.Spans low high)
      (htemplates : ∀ template ∈ templates, '%' ∉ template.text) (hclosing : '%' ∈ closing.text)
      (hexpanded : AreInstances variableName low high templates expanded)
      (hrest : Unrolled variableName rest result) :
      Unrolled variableName (line :: (templates ++ closing :: rest)) (expanded ++ result)

theorem unrolled_of_expandArrays {lines result : List Line}
    (hvariable : isIdentifier variableName = true) (hnested : AllNested lines)
    (h : expandArrays variableName lines = .ok result) : Unrolled variableName lines result := by
  have hname := (isNameText_of_isIdentifier hvariable).2.2
  refine expandArrays_induction (motive := fun lines result =>
    AllNested lines → Unrolled variableName lines result) ?nil ?plain ?single ?block h hnested
  case nil => exact fun _ => .nil
  case plain =>
    intro line rest result hheader ih hnested
    refine .plain (fun header hheads => ?_) (ih (List.forall_mem_cons.1 hnested).2)
    rw [ArrayHeader.ofText?_eq_some_iff.2 hheads] at hheader
    contradiction
  case single =>
    intro line header low count rest expanded result hheader hopens hrange hexpanded ih hnested
    obtain ⟨hline, hrest⟩ := List.forall_mem_cons.1 hnested
    obtain ⟨high, hlow, hhigh, hle, rfl⟩ := range_eq_ok_iff.1 hrange
    have htemplate := nested_template hheader hrange hline hname
    refine .single (ArrayHeader.ofText?_eq_some_iff.1 hheader) (fun front hfront => ?_)
      ⟨hlow, hhigh, hle⟩ ?_ (ih hrest)
    · exact absurd (ArrayHeader.opensBlock_eq_true_iff.2 ⟨front, hfront⟩) (by simp [hopens])
    · exact (instantiateAll_eq_ok_iff_areInstances hvariable hle
        (List.forall_mem_singleton.2 htemplate)).1 hexpanded
  case block =>
    intro line header low count templates closing rest expanded result hheader hopens hrange
      htemplates hclosing hexpanded ih hnested
    obtain ⟨hblock, hrest⟩ := List.forall_mem_append.1 (List.forall_mem_cons.1 hnested).2
    obtain ⟨high, hlow, hhigh, hle, rfl⟩ := range_eq_ok_iff.1 hrange
    obtain ⟨front, hfront⟩ := ArrayHeader.opensBlock_eq_true_iff.1 hopens
    exact .block (ArrayHeader.ofText?_eq_some_iff.1 hheader) hfront ⟨hlow, hhigh, hle⟩ htemplates
      hclosing ((instantiateAll_eq_ok_iff_areInstances hvariable hle hblock).1 hexpanded)
      (ih (List.forall_mem_cons.1 hrest).2)

theorem range_of_spans {header : ArrayHeader} {low high : Int}
    (h : header.Spans low high) : line.range header = .ok (low, (high - low + 1).toNat) :=
  range_eq_ok_iff.2 ⟨high, h.low_value, h.high_value, h.low_le_high, rfl⟩

theorem expandArrays_of_unrolled {lines result : List Line}
    (hvariable : isIdentifier variableName = true) (hnested : AllNested lines)
    (h : Unrolled variableName lines result) : expandArrays variableName lines = .ok result := by
  have hname := (isNameText_of_isIdentifier hvariable).2.2
  induction h with
  | nil => rw [expandArrays]
  | plain hplain _ ih =>
      refine expandArrays_plain (Option.eq_none_iff_forall_ne_some.2 fun header hheader => ?_)
        (ih (List.forall_mem_cons.1 hnested).2)
      exact hplain header (ArrayHeader.ofText?_eq_some_iff.1 hheader)
  | @single line header low high rest expanded result hheader hsingle hrange hexpanded _ ih =>
      obtain ⟨hline, hrest⟩ := List.forall_mem_cons.1 hnested
      have hfound := ArrayHeader.ofText?_eq_some_iff.2 hheader
      have hopens : header.opensBlock = false := Bool.eq_false_iff.2 fun hopens =>
        (ArrayHeader.opensBlock_eq_true_iff.1 hopens).elim hsingle
      have htemplate := nested_template hfound (range_of_spans hrange) hline hname
      have hlines := (instantiateAll_eq_ok_iff_areInstances hvariable hrange.low_le_high
        (List.forall_mem_singleton.2 htemplate)).2 hexpanded
      exact expandArrays_single hfound hopens (range_of_spans hrange) hlines (ih hrest)
  | @block line closing header low high front templates rest expanded result hheader hblock hrange
      htemplates hclosing hexpanded _ ih =>
      obtain ⟨hnested', hrest⟩ := List.forall_mem_append.1 (List.forall_mem_cons.1 hnested).2
      have hlines := (instantiateAll_eq_ok_iff_areInstances hvariable hrange.low_le_high
        hnested').2 hexpanded
      exact expandArrays_block (ArrayHeader.ofText?_eq_some_iff.2 hheader)
        (ArrayHeader.opensBlock_eq_true_iff.2 ⟨front, hblock⟩) (range_of_spans hrange) htemplates
        hclosing hlines (ih (List.forall_mem_cons.1 hrest).2)

/-- The expansion of lines that pass the check of their brackets loses, adds and reorders
nothing. -/
theorem expandArrays_eq_ok_iff {lines result : List Line}
    (hvariable : isIdentifier variableName = true)
    (hchecked : ∀ line ∈ lines, line.checkBrackets = .ok ()) :
    expandArrays variableName lines = .ok result ↔ Unrolled variableName lines result := by
  have hnested : AllNested lines := fun line hmem => checkBrackets_eq_ok_iff.1 (hchecked line hmem)
  exact ⟨unrolled_of_expandArrays hvariable hnested, expandArrays_of_unrolled hvariable hnested⟩

/-- A block with two templates, a line that stays and a header on a line of its own. -/
theorem expandArrays_eq_ok_iff_block :
    isIdentifier Vocabulary.arrayVariable = true ∧
    expandArrays Vocabulary.arrayVariable
        [⟨1, "%[1..2]".toList⟩, ⟨2, "a[j]=j*e2j".toList⟩, ⟨3, "b[j]=a[3-j]".toList⟩,
          ⟨4, "%".toList⟩, ⟨6, "c=(j)".toList⟩, ⟨7, "x[2..3]'=f(y[j-1])".toList⟩] =
      .ok [⟨2, "a1=1*e2j".toList⟩, ⟨3, "b1=a2".toList⟩, ⟨2, "a2=2*e2j".toList⟩,
        ⟨3, "b2=a1".toList⟩, ⟨6, "c=(j)".toList⟩, ⟨7, "x2'=f(y1)".toList⟩,
        ⟨7, "x3'=f(y2)".toList⟩] ∧
    Unrolled Vocabulary.arrayVariable
      [⟨1, "%[1..2]".toList⟩, ⟨2, "a[j]=j*e2j".toList⟩, ⟨3, "b[j]=a[3-j]".toList⟩,
        ⟨4, "%".toList⟩, ⟨6, "c=(j)".toList⟩, ⟨7, "x[2..3]'=f(y[j-1])".toList⟩]
      [⟨2, "a1=1*e2j".toList⟩, ⟨3, "b1=a2".toList⟩, ⟨2, "a2=2*e2j".toList⟩,
        ⟨3, "b2=a1".toList⟩, ⟨6, "c=(j)".toList⟩, ⟨7, "x2'=f(y1)".toList⟩,
        ⟨7, "x3'=f(y2)".toList⟩] := by
  refine ⟨by decide, by decide +kernel, (expandArrays_eq_ok_iff (by decide) ?checked).1 ?expanded⟩
  case checked => decide +kernel
  case expanded => decide +kernel

end Line

end OdeModel
