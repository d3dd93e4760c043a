import OdeModel.Line.Preparation
import OdeModel.Proofs.Arithmetic.Lexemes
import OdeModel.Proofs.Line.Expansion
import OdeModel.Proofs.Text.Commas
import OdeModel.Proofs.Text.Replacing
import OdeModel.Proofs.Text.Settling

/-!
# Brackets of prepared lines

The brackets of a line are checked before arrays are expanded. Normal spacing keeps them.
The range of an array and the groups in its templates have values, so they close every
bracket that they open, and a line may go without them: in every line of a prepared text
each bracket is closed by one of its own kind.
-/

namespace OdeModel

namespace Text

variable {s t : Text}

theorem brackets_natText (n : Nat) : brackets (natText n) = [] :=
  brackets_eq_nil fun _ hc =>
    not_bracket (Or.inl (by simp [Nat.isDigit_of_mem_toDigits (by decide) (by decide) hc]))

theorem brackets_intText (n : Int) : brackets (intText n) = [] := by
  unfold intText
  split
  · exact brackets_natText _
  · exact brackets_natText _

/-! ### Spacing -/

theorem brackets_respace (depth : Nat) (pending : Bool) (last : Option Char) (s : Text) :
    brackets (respace depth pending last s) = brackets s := by
  induction s generalizing depth pending last with
  | nil => rfl
  | cons c s ih =>
      have hsplit : brackets (c :: s) = brackets [c] ++ brackets s := brackets_append [c] s
      have hlater := ih (nest depth c) false (some c)
      rw [respace]
      split
      next hblank =>
        have hc : brackets [c] = [] := by
          refine brackets_eq_nil fun d hd => ?_
          rw [List.mem_singleton] at hd
          subst hd
          by_contra hbracket
          rw [← Bool.or_eq_false_iff, Bool.not_eq_false, Bool.or_eq_true] at hbracket
          rw [isBlank_of_bracket hbracket] at hblank
          contradiction
        rw [ih, hsplit, hc, List.nil_append]
      next =>
        dsimp only
        split
        · rw [hsplit, ← hlater]
          exact brackets_append [' ', c] _
        · rw [hsplit, ← hlater]
          exact brackets_append [c] _

theorem brackets_normalSpacing (s : Text) : brackets (normalSpacing s) = brackets s :=
  brackets_respace 0 false none s

/-- The check of the brackets depends on the brackets alone. -/
theorem imbalance?_brackets {stack stack' : List (Nat × Char)}
    (hstack : stack.map Prod.snd = stack'.map Prod.snd) (offset offset' : Nat) (s : Text) :
    imbalance? stack offset s = none ↔ imbalance? stack' offset' (brackets s) = none := by
  induction s generalizing stack stack' offset offset' with
  | nil =>
      cases stack with
      | nil =>
          obtain rfl : stack' = [] := by simpa using hstack.symm
          rfl
      | cons entry outer =>
          obtain ⟨entry', outer', rfl, -⟩ := List.map_eq_cons_iff.1 hstack.symm
          simp [imbalance?, brackets]
  | cons c s ih =>
      cases hopening : isOpening c with
      | true =>
          have hfirst : brackets (c :: s) = c :: brackets s :=
            List.filter_cons_of_pos (by simp [hopening])
          rw [hfirst, imbalance?_open hopening, imbalance?_open hopening]
          exact ih (by simp [hstack]) _ _
      | false =>
          cases hclosing : isClosing c with
          | true =>
              have hfirst : brackets (c :: s) = c :: brackets s :=
                List.filter_cons_of_pos (by simp [hclosing])
              rw [hfirst]
              cases stack with
              | nil =>
                  obtain rfl : stack' = [] := by simpa using hstack.symm
                  simp [imbalance?, hopening, hclosing]
              | cons entry outer =>
                  obtain ⟨⟨start', o'⟩, outer', rfl, ho, houter⟩ :=
                    List.map_eq_cons_iff.1 hstack.symm
                  obtain ⟨start, o⟩ := entry
                  dsimp only at ho
                  subst ho
                  rw [imbalance?_close hclosing, imbalance?_close hclosing]
                  split
                  next => exact ih houter.symm _ _
                  next => simp
          | false =>
              have hfirst : brackets (c :: s) = brackets s :=
                List.filter_cons_of_neg (by simp [hopening, hclosing])
              rw [hfirst, imbalance?_other hopening hclosing]
              exact ih hstack _ _

theorem Nested.congr (hs : Nested (fun _ => True) s) (h : brackets s = brackets t) :
    Nested (fun _ => True) t := by
  rw [← @imbalance?_eq_none_iff 0, imbalance?_brackets rfl 0 0] at hs ⊢
  rwa [← h]

/-- A nested part of a text may give way to another one. -/
theorem Nested.exchange {before middle after new : Text}
    (hs : Nested (fun _ => True) (before ++ (middle ++ after)))
    (hmiddle : Nested (fun _ => True) middle) (hnew : Nested (fun _ => True) new) :
    Nested (fun _ => True) (before ++ (new ++ after)) := by
  rw [← @imbalance?_eq_none_iff 0] at hs ⊢
  obtain ⟨stack, hopen, hs⟩ := exists_openAfter hs
  rw [hmiddle.imbalance?_append, imbalance?_brackets rfl _ 0] at hs
  rwa [keepsStack_imbalance?.read_append hopen, hnew.imbalance?_append,
    imbalance?_brackets rfl _ 0]

/-! ### Arrays -/

/-- Putting an index in place of a variable keeps the brackets. -/
theorem brackets_replaceFrom {variableName index : Text} (hindex : brackets index = [])
    (offset : Nat) (s : Text) :
    brackets (replaceFrom variableName index offset s) = brackets s := by
  induction offset, s using operandsFrom_induction with
  | nil offset => rw [replaceFrom_nil]
  | skip offset c rest _ _ heq ih =>
      have hsplit : ∀ s, brackets (c :: s) = brackets [c] ++ brackets s := brackets_append [c]
      rw [replaceFrom_skip heq, hsplit, hsplit rest, ih]
  | operand operand rest hfits heq ih =>
      have hnew : brackets (replacement variableName index operand) = brackets operand.text := by
        unfold replacement
        split
        next hreplaced =>
          rw [Bool.and_eq_true, Bool.not_eq_true'] at hreplaced
          rw [hindex, brackets_of_isNameText (hfits.name hreplaced.1).2.1]
        next => rfl
      rw [replaceFrom_operand heq, brackets_append, brackets_append, hnew, ih]

theorem brackets_replaceVariable (s variableName : Text) (index : Int) :
    brackets (replaceVariable s variableName index) = brackets s :=
  brackets_replaceFrom (brackets_intText index) 0 s

end Text

/-! ### Values -/

namespace Token

/-- The bracket that a token is. -/
def bracket? : Token → Option Char
  | openParen => some '('
  | closeParen => some ')'
  | _ => none

theorem not_bracket_of_continuesNumber {last c : Char} (h : continuesNumber last c = true) :
    isOpening c = false ∧ isClosing c = false := by
  simp only [continuesNumber, Bool.or_eq_true, Bool.and_eq_true, beq_iff_eq] at h
  rcases h with (((hdigit | rfl) | rfl) | rfl) | ⟨rfl | rfl, -⟩
  · exact not_bracket (Or.inl (by rw [hdigit, Bool.true_or]))
  all_goals decide

theorem brackets_spanNumeral (last : Char) (s : Text) :
    Text.brackets (spanNumeral last s).1 = [] := by
  induction s generalizing last with
  | nil => rfl
  | cons c s ih =>
      unfold spanNumeral
      split
      next hgo =>
        obtain ⟨hopening, hclosing⟩ := not_bracket_of_continuesNumber hgo
        rw [← ih c]
        exact List.filter_cons_of_neg (by simp [hopening, hclosing])
      next => rfl

/-- The brackets of a text are those of its tokens. -/
theorem Lexes.brackets_eq {s : Text} {tokens : List Token} (h : Lexes s tokens) :
    Text.brackets s = tokens.filterMap bracket? := by
  have hplain : ∀ (c : Char) (s : Text), isOpening c = false ∧ isClosing c = false →
      Text.brackets (c :: s) = Text.brackets s := fun c s hc =>
    List.filter_cons_of_neg (by simp [hc.1, hc.2])
  induction h with
  | nil => rfl
  | blank hblank _ ih => rw [hplain _ _ (Text.not_bracket_of_isBlank hblank), ih]
  | stars _ ih =>
      rw [hplain _ _ (by decide), hplain _ _ (by decide), ih]
      rfl
  | @number c figures s _ _ hc hspan _ _ ih =>
      have hfigures := brackets_spanNumeral c (figures ++ s)
      rw [hspan] at hfigures
      rw [hplain _ _ (not_bracket (Or.inl hc)), Text.brackets_append, hfigures, ih]
      rfl
  | name hc hletters _ _ ih =>
      rw [hplain _ _ (not_bracket (Or.inr (Text.isNameChar_of_isNameStart hc))),
        Text.brackets_append, Text.brackets_of_isNameText hletters, ih]
      rfl
  | @single c s token _ hsingle _ _ ih =>
      rw [← List.singleton_append, Text.brackets_append, ih]
      unfold single? at hsingle
      split at hsingle
      case h_9 => contradiction
      all_goals
        cases hsingle
        rfl

end Token

namespace Expr

open Text

/-- The tokens of the grammar close every bracket that they open. -/
theorem Derives.nested {level : Level} {tokens : Tokens} {result : level.Meaning Expr}
    (h : Derives level tokens result) :
    Nested (fun _ => True) ((tokens.map Prod.snd).filterMap Token.bracket?) := by
  refine h.kinds_induction (motive := fun kinds =>
    Nested (fun _ => True) (kinds.filterMap Token.bracket?)) ?nil ?number ?name ?joint ?group ?call
  case nil => exact .nil
  case number => exact fun _ => .nil
  case name => exact fun _ => .nil
  case joint =>
    intro before token after htoken hbefore hafter
    have hnone : token.bracket? = none := by
      cases token <;> first | rfl | contradiction
    rw [List.filterMap_append, List.filterMap_cons_none hnone]
    exact hbefore.append hafter
  case group =>
    intro inner ih
    rw [List.filterMap_append]
    exact Nested.bracketed rfl rfl rfl ih
  case call =>
    intro function inner ih
    rw [List.filterMap_append]
    exact Nested.bracketed rfl rfl rfl ih

end Expr

/-- A text with a value closes every bracket that it opens. -/
theorem nested_of_evalText {env : Environment} {s : Text} {value : Value}
    (h : evalText env s = .ok value) : Text.Nested (fun _ => True) s := by
  obtain ⟨tokens, expr, hlexes, hderives, -⟩ := exists_of_evalText h
  refine hderives.nested.congr ?_
  rw [← hlexes.brackets_eq]
  simp [Text.brackets]

open Text

namespace Line

variable {line : Line} {variableName : Text} {index : Int}

/-- The range of an array is nested, as both of its bounds have values. -/
theorem nested_range {header : ArrayHeader} {range : Int × Nat}
    (h : line.range header = .ok range) :
    Nested (fun _ => True) (header.low ++ '.' :: '.' :: header.high) := by
  obtain ⟨high, hlow, hhigh, -⟩ := range_eq_ok_iff.1 h
  have hbound : ∀ {text : Text} {n}, evalText .empty (trim text) = .ok (.whole n) →
      Nested (fun _ => True) text := fun hn => (nested_of_evalText hn).congr (brackets_trim _)
  exact (hbound hlow).append (((hbound hhigh).cons rfl rfl trivial).cons rfl rfl trivial)

/-- The range of a header may give way to the variable. -/
theorem nested_template {header : ArrayHeader} {range : Int × Nat}
    (h : ArrayHeader.ofText? line.text = some header) (hrange : line.range header = .ok range)
    (hline : Nested (fun _ => True) line.text) (hname : IsNameText variableName) :
    Nested (fun _ => True) (header.template variableName) := by
  have hvariable : Nested (fun _ => True) variableName := Nested.of_forall fun c hc =>
    ⟨(not_bracket (Or.inr (hname c hc))).1, (not_bracket (Or.inr (hname c hc))).2, trivial⟩
  rw [(ArrayHeader.ofText?_eq_some_iff.1 h).text_eq] at hline
  have hopened : Nested (fun _ => True) (header.before ++ ['['] ++
      ((header.low ++ '.' :: '.' :: header.high) ++ ']' :: header.after)) := by simpa using hline
  simpa [ArrayHeader.template] using hopened.exchange (nested_range hrange) hvariable

/-- The bracket behind a group that has a value closes the one before it. -/
theorem openingOf_eq_of_group {env : Environment} {value : Value} {before inside later : Text}
    {c : Char} (hvalue : evalText env inside = .ok value) (hc : isClosing c = true)
    (h : Nested (fun _ => True) (before ++ '[' :: (inside ++ c :: later))) : openingOf c = '[' :=
  openingOf_eq_of_imbalance? rfl hc (nested_of_evalText hvalue) (imbalance?_eq_none_iff.2 h)

/-- The value of a group may take its place. -/
theorem nested_exchange_group {env : Environment} {value : Value} {before inside later : Text}
    {c : Char} (hvalue : evalText env inside = .ok value) (hc : isClosing c = true)
    (h : Nested (fun _ => True) (before ++ '[' :: (inside ++ c :: later))) (n : Int) :
    Nested (fun _ => True) (before ++ (intText n ++ later)) := by
  have hgroup : Nested (fun _ => True) ('[' :: (inside ++ [c])) :=
    (nested_of_evalText hvalue).bracketed rfl hc (openingOf_eq_of_group hvalue hc h)
  have hdigits : Nested (fun _ => True) (intText n) :=
    Nested.nil.congr (brackets_intText n).symm
  exact Nested.exchange (by simpa using h) hgroup hdigits

/-- A nested template that becomes a line is cut into texts without opening square brackets and
groups in square brackets. What stands in `front` of the rest is as it is in that line. -/
theorem instantiateFrom_nested_induction {motive : Text → Text → Text → Prop}
    (plain : ∀ front s, '[' ∉ s → Nested (fun _ => True) (front ++ s) →
      motive front s (replaceVariable s variableName index))
    (group : ∀ front before inside later n result, '[' ∉ before →
      evalText (Environment.empty.set variableName (.whole index)) inside = .ok (.whole n) →
      Nested (fun _ => True) (front ++ (before ++ '[' :: (inside ++ ']' :: later))) →
      motive (front ++ (replaceVariable before variableName index ++ intText n)) later result →
      motive front (before ++ '[' :: (inside ++ ']' :: later))
        (replaceVariable before variableName index ++ intText n ++ result))
    {offset : Nat} {front s result : Text}
    (h : line.instantiateFrom variableName index offset s = .ok result)
    (hs : Nested (fun _ => True) (front ++ s)) : motive front s result := by
  refine instantiateFrom_induction (motive := fun s result => ∀ front,
    Nested (fun _ => True) (front ++ s) → motive front s result) ?plain ?group h front hs
  case plain => exact fun s hopen front hs => plain front s hopen hs
  case group =>
    intro before inside c later n result hopen hc hvalue ih front hs
    have hcut := hs
    rw [← List.append_assoc] at hcut
    have hbefore := brackets_replaceVariable before variableName index
    have hlater : Nested (fun _ => True)
        (front ++ (replaceVariable before variableName index ++ intText n) ++ later) :=
      (nested_exchange_group hvalue hc hcut n).congr (by simp [hbefore])
    obtain rfl := eq_of_openingOf_eq hc (d := ']') rfl (openingOf_eq_of_group hvalue hc hcut)
    exact group front before inside later n result hopen hvalue hs (ih _ hlater)

/-- What takes the place of the rest of a template is nested where that rest was. -/
theorem nested_instantiateFrom {offset : Nat} {s result : Text}
    (h : line.instantiateFrom variableName index offset s = .ok result) (front : Text)
    (hs : Nested (fun _ => True) (front ++ s)) : Nested (fun _ => True) (front ++ result) := by
  refine instantiateFrom_nested_induction (motive := fun front _ result =>
    Nested (fun _ => True) (front ++ result)) ?plain ?group h hs
  case plain =>
    intro front s _ hs
    refine hs.congr ?_
    rw [brackets_append, brackets_append, brackets_replaceVariable]
  case group =>
    intro front before inside later n result _ _ _ ih
    simpa using ih

/-- The brackets of every line are nested. -/
def AllNested (lines : List Line) : Prop := ∀ line ∈ lines, Nested (fun _ => True) line.text

/-- Lines with nested brackets keep them when their arrays are expanded. -/
theorem nested_expandArrays (hname : IsNameText variableName) {lines result : List Line}
    (hlines : AllNested lines) (h : expandArrays variableName lines = .ok result) :
    AllNested result :=
  forall_mem_expandArrays
    (fun _ _ _ hheader hrange hline => nested_template hheader hrange hline hname)
    (fun _ _ _ _ htext hline => nested_instantiateFrom htext [] hline) hlines h

/-- The check of a line lets nested brackets pass. -/
theorem checkBrackets_eq_ok_iff :
    line.checkBrackets = .ok () ↔ Nested (fun _ => True) line.text := by
  rw [← @imbalance?_eq_none_iff 0, checkBrackets]
  split
  next hnone => simp [hnone]
  next hsome => simp [hsome]

/-- The steps of a preparation that succeeds. -/
theorem prepare_eq_ok_iff {name input : Text} {lines : List Line} :
    prepare name variableName input = .ok lines ↔ ∃ raw, ofInput name input = .ok raw ∧
      AllNested (withoutComments raw) ∧
      expandArrays variableName ((withoutComments raw).map withNormalSpacing) = .ok lines := by
  have hcheck : ∀ kept : List Line, kept.forM checkBrackets = .ok () ↔ AllNested kept := by
    intro kept
    rw [forM_eq_ok_iff]
    exact forall₂_congr fun _ _ => checkBrackets_eq_ok_iff
  constructor
  · intro h
    unfold prepare at h
    obtain ⟨raw, hraw, h⟩ := bind_eq_ok_iff.1 h
    obtain ⟨⟨⟩, hchecked, h⟩ := bind_eq_ok_iff.1 h
    exact ⟨raw, hraw, (hcheck _).1 hchecked, h⟩
  · rintro ⟨raw, hraw, hchecked, h⟩
    exact bind_eq_ok_iff.2 ⟨raw, hraw, bind_eq_ok_iff.2 ⟨(), (hcheck _).2 hchecked, h⟩⟩

/-- In every line of a prepared text each bracket is closed by one of its own kind. -/
theorem nested_prepare {name input : Text} {lines : List Line} (hname : IsNameText variableName)
    (h : prepare name variableName input = .ok lines) : AllNested lines := by
  obtain ⟨raw, -, hnested, h⟩ := prepare_eq_ok_iff.1 h
  refine nested_expandArrays hname (List.forall_mem_map.2 fun line hmem => ?_) h
  exact (hnested line hmem).congr (brackets_normalSpacing line.text).symm

/-- Every line of the list is settled. -/
def AllSettled (lines : List Line) : Prop := ∀ line ∈ lines, Settled line.text

/-- All lines of a prepared text are settled. -/
theorem prepare_settled {name input : Text} {lines : List Line} (hname : IsNameText variableName)
    (h : prepare name variableName input = .ok lines) : AllSettled lines :=
  fun line hmem => (nested_prepare hname h line hmem).settled

end Line

end OdeModel
