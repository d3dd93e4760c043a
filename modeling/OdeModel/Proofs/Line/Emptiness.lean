import OdeModel.Proofs.Line.Brackets
import Mathlib.Data.List.DropRight

/-!
# Models without statements

A model file is refused as empty when it has only lines of comments. The test comes before
comments, separators and arrays are taken away, so it misses the files from which these steps
take everything else: lines of separators, and arrays without templates between their percent
signs. A preparation of such a file succeeds, and there are no lines.
-/

namespace OdeModel

namespace Text

variable {s : Text}

/-! ### Comments and separators -/

/-- A comment that starts a line is outside of curly brackets. -/
theorem beforeComment_cons (c : Char) (rest : Text) :
    ∃ depth, beforeComment 0 (c :: rest) =
      if c = '#' then [] else c :: beforeComment depth rest := by
  by_cases hc : c = '#'
  · subst hc
    exact ⟨0, rfl⟩
  · rw [beforeComment]
    simp only [if_neg hc]
    exact ⟨_, if_neg fun h => hc h.1⟩

theorem beforeComment_eq_nil_iff (hne : s ≠ []) : beforeComment 0 s = [] ↔ s.head? = some '#' := by
  obtain ⟨c, rest, rfl⟩ := List.exists_cons_of_ne_nil hne
  obtain ⟨depth, hkept⟩ := beforeComment_cons c rest
  rw [hkept]
  split
  next h => simp [h]
  next h => simp [h]

/-- Commas and semicolons, and blanks behind them. -/
def IsSeparators (s : Text) : Prop :=
  ∃ marks blanks, s = marks ++ blanks ∧ marks ≠ [] ∧ (∀ c ∈ marks, c = ',' ∨ c = ';') ∧
    ∀ c ∈ blanks, isBlank c = true

theorem IsSeparators.ne_nil (h : IsSeparators s) : s ≠ [] := by
  obtain ⟨marks, blanks, rfl, hne, -⟩ := h
  exact List.append_ne_nil_of_left_ne_nil hne blanks

theorem IsSeparators.forall_mem_trimEnd (h : IsSeparators s) :
    ∀ c ∈ trimEnd s, c = ',' ∨ c = ';' := by
  obtain ⟨marks, blanks, rfl, -, hmarks, hblanks⟩ := h
  have htrim : trimEnd (marks ++ blanks) = marks := by
    have hlast : List.rdropWhile isBlank marks = marks :=
      List.rdropWhile_eq_self_iff.2 fun hl hblank => by
        rcases hmarks _ (List.getLast_mem hl) with heq | heq <;> rw [heq] at hblank <;>
          exact absurd hblank (by decide)
    rw [trimEnd, dropEndWhile, List.reverse_append,
      List.dropWhile_append_of_pos fun c hc => hblanks c (List.mem_reverse.1 hc)]
    exact hlast
  rwa [htrim]

/-- Nothing is left of a line when there is nothing or only separators before its comment. -/
theorem statement_eq_nil_iff (hs : s.head?.any isBlank = false) :
    statement s = [] ↔ beforeComment 0 s = [] ∨ IsSeparators (beforeComment 0 s) := by
  have hhead : (beforeComment 0 s).head?.any isBlank = false := by
    cases s with
    | nil => rfl
    | cons c rest =>
        obtain ⟨depth, hkept⟩ := beforeComment_cons c rest
        rw [hkept]
        split
        next => rfl
        next => exact hs
  rw [statement]
  generalize beforeComment 0 s = kept at hhead ⊢
  have hprefix : ∀ {t : Text}, t <+: kept → (∀ c ∈ t, isBlank c = true) → t = [] := by
    rintro t ⟨later, rfl⟩ hblank
    cases t with
    | nil => rfl
    | cons c t => simp [hblank c List.mem_cons_self] at hhead
  constructor
  · intro h
    refine or_iff_not_imp_left.2 fun hne => ?_
    have hnone : dropEndWhile (fun c => c == ',' || c == ';') (trimEnd kept) = [] :=
      hprefix ((List.rdropWhile_prefix _ _).trans (List.rdropWhile_prefix _ _))
        (List.rdropWhile_eq_nil_iff.1 h)
    refine ⟨trimEnd kept, List.rtakeWhile isBlank kept, ?_, fun hnil => hne ?_, ?_, ?_⟩
    · exact (List.rdropWhile_append_rtakeWhile).symm
    · exact hprefix List.prefix_rfl (List.rdropWhile_eq_nil_iff.1 hnil)
    · simpa using List.rdropWhile_eq_nil_iff.1 hnone
    · exact fun c hc => List.mem_rtakeWhile_imp hc
  · rintro (rfl | hseparators)
    · rfl
    · have hnone : dropEndWhile (fun c => c == ',' || c == ';') (trimEnd kept) = [] :=
        List.rdropWhile_eq_nil_iff.2 fun c hc => by
          simpa using hseparators.forall_mem_trimEnd c hc
      rw [hnone]
      rfl

end Text

open Text

namespace Line

variable {line : Line} {variableName name input : Text} {index : Int}

/-! ### Lines of the file -/

/-- The lines of the file before the one that ends the statements. -/
def ofFile (input : Text) : List Line := statements 1 ((fields (· == '\n') 0 input).map Prod.snd)

theorem ofInput_eq_ok_iff {raw : List Line} :
    ofInput name input = .ok raw ↔
      raw = ofFile input ∧ ∃ line ∈ ofFile input, line.isComment = false := by
  change (if (ofFile input).all isComment then _ else _) = _ ↔ _
  split
  next hall =>
    have hcomments := List.all_eq_true.1 hall
    constructor
    · intro h
      contradiction
    · rintro ⟨-, line, hmem, hline⟩
      rw [hcomments line hmem] at hline
      contradiction
  next hall =>
    rw [Bool.not_eq_true, List.all_eq_false] at hall
    obtain ⟨line, hmem, hline⟩ := hall
    exact ⟨fun h => ⟨(Except.ok.inj h).symm, line, hmem, by simpa using hline⟩,
      fun h => h.1 ▸ rfl⟩

theorem ofInput_eq_error_iff {e : ModelError} :
    ofInput name input = .error e ↔
      e = .noStatements name ∧ ∀ line ∈ ofFile input, line.isComment = true := by
  rw [← List.all_eq_true]
  unfold ofInput
  change (if (ofFile input).all isComment then _ else _) = _ ↔ _
  split
  next hall => exact ⟨fun h => ⟨(Except.error.inj h).symm, hall⟩, fun h => h.1 ▸ rfl⟩
  next hall => exact ⟨fun h => (nomatch h), fun h => absurd h.2 hall⟩

/-- A line of the file is not empty, and no blank comes first. -/
theorem trimmed_of_mem_statements {number : Nat} {texts : List Text}
    (hmem : line ∈ statements number texts) :
    line.text ≠ [] ∧ line.text.head?.any isBlank = false := by
  induction texts generalizing number with
  | nil => simp [statements] at hmem
  | cons raw later ih =>
      rw [statements] at hmem
      split at hmem
      next => simp at hmem
      next =>
        split at hmem
        next => exact ih hmem
        next hsome =>
          rcases List.mem_cons.1 hmem with rfl | hmem
          · exact ⟨by simpa using hsome, head?_trim raw⟩
          · exact ih hmem

/-! ### Errors -/

/-- A step that fails tells the place. -/
def FailsAtPlace {α : Type} (x : Except ModelError α) : Prop :=
  ∀ e, x = .error e → ∃ fault place, e = .located fault place

theorem FailsAtPlace.bind {α β : Type} {x : Except ModelError α} {f : α → Except ModelError β}
    (hx : FailsAtPlace x) (hf : ∀ a, FailsAtPlace (f a)) : FailsAtPlace (x >>= f) := by
  intro e he
  rcases bind_eq_error_iff.1 he with hfirst | ⟨a, -, hlater⟩
  · exact hx e hfirst
  · exact hf a e hlater

theorem failsAtPlace_ok {α : Type} (a : α) : FailsAtPlace (.ok a) := fun _ he => nomatch he

theorem failsAtPlace_error {α : Type} (line : Line) (fault : Fault) (column : Nat) :
    FailsAtPlace (α := α) (.error (line.error fault column)) := by
  rintro e ⟨⟩
  exact ⟨fault, _, rfl⟩

theorem failsAtPlace_checkBrackets (lines : List Line) :
    FailsAtPlace (lines.forM checkBrackets) := by
  intro e he
  obtain ⟨line, -, hline⟩ := exists_of_forM_eq_error he
  unfold checkBrackets at hline
  split at hline
  next => contradiction
  next fault column _ => exact failsAtPlace_error line fault column e hline

theorem failsAtPlace_instantiateFrom (offset : Nat) (s : Text) :
    FailsAtPlace (line.instantiateFrom variableName index offset s) := by
  fun_induction instantiateFrom line variableName index offset s with
  | case1 => exact failsAtPlace_ok _
  | case2 => exact failsAtPlace_error _ _ _
  | case3 offset s plain start group later hclosed n hvalue ih =>
      exact ih.bind fun _ => failsAtPlace_ok _
  | case4 => exact failsAtPlace_error _ _ _

theorem failsAtPlace_instantiateAll {templates : List Line} {count : Nat} {low : Int} :
    FailsAtPlace (instantiateAll templates variableName count low) := by
  induction count generalizing low with
  | zero => exact failsAtPlace_ok _
  | succ count ih =>
      refine FailsAtPlace.bind (fun e he => ?_) fun _ => ih.bind fun _ => failsAtPlace_ok _
      obtain ⟨template, -, htemplate⟩ := exists_of_mapM_eq_error he
      exact (failsAtPlace_instantiateFrom _ _).bind (fun _ => failsAtPlace_ok _) e htemplate

theorem failsAtPlace_range {header : ArrayHeader} : FailsAtPlace (line.range header) := by
  have hbound : ∀ text column, FailsAtPlace (line.bound text column) := by
    intro text column
    unfold bound
    split
    next => exact failsAtPlace_ok _
    next => exact failsAtPlace_error _ _ _
  refine (hbound _ _).bind fun low => (hbound _ _).bind fun high => ?_
  split
  next => exact failsAtPlace_error _ _ _
  next => exact failsAtPlace_ok _

theorem failsAtPlace_expandArrays (lines : List Line) :
    FailsAtPlace (expandArrays variableName lines) := by
  induction lines using expandArrays.induct with
  | case1 =>
      rw [expandArrays]
      exact failsAtPlace_ok _
  | case2 line rest hheader ih =>
      rw [expandArrays, hheader]
      exact ih.bind fun _ => failsAtPlace_ok _
  | case3 line rest header hheader ihblock ih =>
      rw [expandArrays, hheader]
      refine failsAtPlace_range.bind fun range => ?_
      dsimp only
      split
      next =>
        split
        next => exact failsAtPlace_error _ _ _
        next closing later hlater =>
          exact failsAtPlace_instantiateAll.bind fun _ =>
            (ihblock closing later hlater).bind fun _ => failsAtPlace_ok _
      next =>
        exact failsAtPlace_instantiateAll.bind fun _ => ih.bind fun _ => failsAtPlace_ok _

/-! ### Empty files -/

/-- Each line is an array whose percent sign comes again in the next line, so that there are no
templates. -/
inductive EmptyBlocks : List Line → Prop
  /-- No lines. -/
  | nil : EmptyBlocks []
  /-- An array without templates. -/
  | block {line closing : Line} {header : ArrayHeader} {range : Int × Nat} {rest : List Line}
      (hheader : ArrayHeader.ofText? line.text = some header) (hopens : header.opensBlock = true)
      (hrange : line.range header = .ok range) (hclosing : '%' ∈ closing.text)
      (hrest : EmptyBlocks rest) : EmptyBlocks (line :: closing :: rest)

theorem length_instantiateAll {templates result : List Line} {count : Nat} {low : Int}
    (h : instantiateAll templates variableName count low = .ok result) :
    result.length = count * templates.length := by
  rw [← (instantiateAll_eq_ok_iff.1 h).length_eq, List.length_product, length_indices]

theorem instantiateAll_nil (count : Nat) (low : Int) :
    instantiateAll [] variableName count low = .ok [] := by
  rw [instantiateAll_eq_ok_iff, List.product_nil]
  exact .nil

/-- The lines expand to nothing when they are arrays without templates. -/
theorem expandArrays_eq_nil_iff {lines : List Line} :
    expandArrays variableName lines = .ok [] ↔ EmptyBlocks lines := by
  constructor
  · intro h
    have hcount : ∀ {line : Line} {header low count}, line.range header = .ok (low, count) →
        0 < count := by
      intro line header low count hrange
      obtain ⟨high, -, -, hle, rfl⟩ := range_eq_ok_iff.1 hrange
      omega
    refine expandArrays_induction (motive := fun lines result => result = [] → EmptyBlocks lines)
      ?nil ?plain ?single ?block h rfl
    case nil => exact fun _ => .nil
    case plain => exact fun _ _ _ _ _ hnil => nomatch hnil
    case single =>
      intro line header low count rest expanded result _ _ hrange hexpanded _ hnil
      have hlength := length_instantiateAll hexpanded
      rw [(List.append_eq_nil_iff.1 hnil).1] at hlength
      simp [(hcount hrange).ne] at hlength
    case block =>
      intro line header low count templates closing rest expanded result hheader hopens hrange _
        hclosing hexpanded ih hnil
      obtain ⟨hnone, hrest⟩ := List.append_eq_nil_iff.1 hnil
      have hlength := length_instantiateAll hexpanded
      rw [hnone] at hlength
      obtain rfl : templates = [] := by simpa [(hcount hrange).ne'] using hlength
      exact .block hheader hopens hrange hclosing (ih hrest)
  · intro h
    induction h with
    | nil => rw [expandArrays]
    | @block line closing header range rest hheader hopens hrange hclosing _ ih =>
        have hblock := expandArrays_block hheader hopens hrange (List.forall_mem_nil _) hclosing
          (instantiateAll_nil _ _) ih
        exact hblock

theorem isComment_iff (hmem : line ∈ ofFile input) :
    line.isComment = true ↔ beforeComment 0 line.text = [] := by
  rw [isComment, decide_eq_true_iff, beforeComment_eq_nil_iff (trimmed_of_mem_statements hmem).1]

/-- Nothing is left of a line that is a comment or has separators only. -/
theorem withoutComments_eq_nil_iff :
    withoutComments (ofFile input) = [] ↔
      ∀ line ∈ ofFile input, line.isComment = true ∨ IsSeparators (beforeComment 0 line.text) := by
  rw [withoutComments, List.filter_eq_nil_iff, List.forall_mem_map]
  refine forall₂_congr fun line hmem => ?_
  dsimp only
  rw [isComment_iff hmem, ← statement_eq_nil_iff (trimmed_of_mem_statements hmem).2]
  simp

theorem prepare_eq_noStatements_iff {other : Text} :
    prepare name variableName input = .error (.noStatements other) ↔
      other = name ∧ ∀ line ∈ ofFile input, line.isComment = true := by
  constructor
  · intro h
    rcases bind_eq_error_iff.1 h with hfile | ⟨raw, -, hrest⟩
    · obtain ⟨hother, hcomments⟩ := ofInput_eq_error_iff.1 hfile
      exact ⟨ModelError.noStatements.inj hother, hcomments⟩
    · have hplace := (failsAtPlace_checkBrackets (withoutComments raw)).bind fun _ =>
        @failsAtPlace_expandArrays variableName ((withoutComments raw).map withNormalSpacing)
      obtain ⟨fault, place, hlocated⟩ := hplace _ hrest
      contradiction
  · rintro ⟨rfl, hcomments⟩
    exact bind_eq_error_iff.2 (.inl (ofInput_eq_error_iff.2 ⟨rfl, hcomments⟩))

theorem prepare_eq_nil_iff :
    prepare name variableName input = .ok [] ↔
      (∃ line ∈ ofFile input, line.isComment = false) ∧
        AllNested (withoutComments (ofFile input)) ∧
        EmptyBlocks ((withoutComments (ofFile input)).map withNormalSpacing) := by
  rw [prepare_eq_ok_iff]
  simp only [ofInput_eq_ok_iff, expandArrays_eq_nil_iff]
  constructor
  · rintro ⟨raw, ⟨rfl, hsome⟩, hnested, hblocks⟩
    exact ⟨hsome, hnested, hblocks⟩
  · rintro ⟨hsome, hnested, hblocks⟩
    exact ⟨_, ⟨rfl, hsome⟩, hnested, hblocks⟩

/-- A model is refused as empty, under its name, just when it has comments only. A preparation
succeeds without a line just when there is something else, but what is left of it are arrays
without templates. If nothing is left, the model is refused unless it has a line of separators. -/
theorem prepare_empty (name variableName input : Text) :
    (∀ other, prepare name variableName input = .error (.noStatements other) ↔
      other = name ∧ ∀ line ∈ ofFile input, line.isComment = true) ∧
    (prepare name variableName input = .ok [] ↔
      (∃ line ∈ ofFile input, line.isComment = false) ∧
        AllNested (withoutComments (ofFile input)) ∧
        EmptyBlocks ((withoutComments (ofFile input)).map withNormalSpacing)) ∧
    (withoutComments (ofFile input) = [] →
      (prepare name variableName input = .error (.noStatements name) ↔
        ∀ line ∈ ofFile input, ¬ IsSeparators (beforeComment 0 line.text))) := by
  refine ⟨fun _ => prepare_eq_noStatements_iff, prepare_eq_nil_iff, fun hnone => ?_⟩
  have hlines := withoutComments_eq_nil_iff.1 hnone
  rw [prepare_eq_noStatements_iff, and_iff_right rfl]
  refine forall₂_congr fun line hmem => ?_
  constructor
  · exact fun hcomment hseparators => hseparators.ne_nil ((isComment_iff hmem).1 hcomment)
  · exact fun hnot => (hlines line hmem).resolve_right hnot

/-- A semicolon in the only line, and an array without templates. -/
theorem prepare_empty_not_refused :
    (withoutComments (ofFile ";\ndone".toList) = [] ∧
      prepare "<input>".toList Vocabulary.arrayVariable ";\ndone".toList = .ok []) ∧
    prepare "<input>".toList Vocabulary.arrayVariable "%[1..2]\n%\ndone".toList = .ok [] := by
  decide +kernel

end Line

end OdeModel
