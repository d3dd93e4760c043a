import OdeModel.Proofs.Statement.Writing
import OdeModel.Proofs.Text.Commas
import Mathlib.Algebra.BigOperators.Group.List.Basic

/-!
# Text kept by assignments

The definitions of a line, in writing, are the line again, but for blanks and commas that
separate nothing. Only what stands behind the list of a special definition or of a set, or
behind the formal arguments of a function, is in none of them.
-/

namespace OdeModel

open Text

/-- A mark has no commas or blanks. -/
theorem Form.parts_mark {form : Form} (h : form ∈ marked) : parts form.mark = [form.mark] := by
  have hmarks : ∀ form ∈ marked, parts form.mark = [form.mark] := by decide
  exact hmarks form h

/-- A mark that leads a line has no brackets. -/
theorem Form.not_bracket_of_mem_mark {form : Form} (h : form.isLeading = true ∨ form = constant)
    {c : Char} (hc : c ∈ form.mark) : isOpening c = false ∧ isClosing c = false := by
  have hall : form.mark.all (fun c => !isOpening c && !isClosing c) = true := by
    revert h
    cases form <;> decide
  simpa using List.all_eq_true.1 hall c hc

/-- What stands behind a list is blank-free and says something, if there is anything. -/
def IsExtra (extra : Text) : Prop := extra ≠ [] → 0 < weight extra

theorem isExtra_of_getLast? {extra : Text} (hblank : ∀ c ∈ extra, isBlank c = false)
    (hlast : extra.getLast? ≠ some ',') : IsExtra extra := by
  intro hne
  obtain ⟨front, c, rfl⟩ := (List.eq_nil_or_concat extra).resolve_left hne
  have hc : isBlank c = false := hblank c (by simp)
  have hcomma : c ≠ ',' := by simpa using hlast
  rw [List.concat_eq_append, weight_append]
  simp [weight, hc, hcomma]

/-- Extra text belongs behind the list of the assignment: it has a list, and there is
something behind it. -/
def Clause.Carries (led : Bool) (clause : Clause) (extra : Text) : Prop :=
  extra ≠ [] → 0 < weight extra ∧ (clause.form = .special ∨ clause.form = .assignments ∨
    clause.form = .function ∧ led = false)

/-- Only the upper and lower case of an option may differ in the name that is kept. -/
theorem Clause.keptName_spec (clause : Clause) :
    clause.keptName.map Char.toLower = clause.name.map Char.toLower ∧
      (clause.form ≠ .setting → clause.keptName = clause.name) := by
  unfold keptName
  split
  next hform =>
    refine ⟨?_, fun hother => absurd hform hother⟩
    cases hoption : Vocabulary.option? clause.name with
    | none => rfl
    | some option => simpa using List.find?_some hoption
  next => exact ⟨rfl, fun _ => rfl⟩

/-- Only a function has a list before its equals sign. -/
theorem Clause.opening_eq {clause : Clause} (h : clause.form ≠ .function) (led : Bool)
    (extra : Text) : clause.opening led extra = clause.opening led [] := by
  have hword : clause.word extra = clause.word [] := by
    unfold word
    split
    all_goals first | rfl | contradiction
  rw [opening, opening, hword]

/-- Extra text stands in one place of the assignment. -/
theorem Clause.exists_textWith_eq {led : Bool} {clause : Clause}
    (h : clause.form = .special ∨ clause.form = .assignments ∨
      clause.form = .function ∧ led = false) :
    ∃ before after : Text, ∀ extra, clause.textWith led extra = before ++ (extra ++ after) := by
  rcases h with hform | hform | ⟨hform, rfl⟩
  · refine ⟨clause.opening led [] ++ (clause.expr ++ '(' :: (joined clause.args ++ [')'])), [],
      fun extra => ?_⟩
    rw [textWith, opening_eq (by simp [hform])]
    simp [source, hform]
  · refine ⟨clause.opening led [] ++ '\x7b' :: (joined clause.args ++ ['\x7d']), [],
      fun extra => ?_⟩
    rw [textWith, opening_eq (by simp [hform])]
    simp [source, hform]
  · refine ⟨clause.name ++ '(' :: (joined clause.args ++ [')']), '=' :: clause.expr,
      fun extra => ?_⟩
    simp [textWith, opening, word, source, hform]

/-- Extra text that belongs behind the list adds its weight. -/
theorem Clause.Carries.weight_textWith {led : Bool} {clause : Clause} {extra : Text}
    (h : clause.Carries led extra) :
    weight (clause.textWith led extra) = weight (clause.textWith led []) + weight extra := by
  by_cases hne : extra = []
  · rw [hne]
    rfl
  · obtain ⟨before, after, hplace⟩ := exists_textWith_eq (h hne).2
    rw [hplace, hplace, weight_append, weight_append, weight_append, List.nil_append]
    omega

namespace Assignment

variable {line : Line} {assignment : Assignment}

/-- A list in an expression without blanks is kept up to its closing bracket. -/
theorem exprList_eq_ok {before rest expr : Text} {column : Nat} {o : Char} {args : List Text}
    (ho : isOpening o = true) (hsplit : expr = before ++ o :: rest)
    (hblank : ∀ c ∈ expr, isBlank c = false) (hnested : Nested (fun c => c ≠ ',') expr)
    (h : exprList line column expr (width before) = .ok args) :
    ∃ c extra, isClosing c = true ∧ openingOf c = o ∧
      expr = before ++ o :: (joined args ++ c :: extra) ∧ IsExtra extra := by
  subst hsplit
  unfold exprList at h
  split at h
  next => contradiction
  next items close hitems =>
    cases h
    obtain ⟨inside, c, extra, rfl, -, hc, hkind, -, hargs⟩ := hnested.splitList_spec ho hitems
    have hinside : ∀ d ∈ inside, isBlank d = false := fun d hd => hblank d (by simp [hd])
    refine ⟨c, extra, hc, hkind, by rw [hargs, joined_trim_topFields hinside], ?_⟩
    refine isExtra_of_getLast? (fun d hd => hblank d (by simp [hd])) fun hlast => ?_
    refine hnested.getLast?_ne_comma (fun _ h => h) ?_
    simp [List.getLast?_append, List.getLast?_cons, hlast]

/-- The expression of an assignment is kept but for what stands behind a list. -/
theorem contents_eq_ok {expr kept : Text} {args : List Text}
    (hblank : ∀ c ∈ expr, isBlank c = false)
    (hnested : assignment.form = .special ∨ assignment.form = .assignments →
      Nested (fun c => c ≠ ',') expr)
    (h : assignment.contents line expr = .ok (kept, args)) :
    ∃ extra, expr = Clause.source extra ⟨assignment.form, assignment.name, kept, args⟩ ∧
      (extra ≠ [] → (assignment.form = .special ∨ assignment.form = .assignments) ∧
        0 < weight extra) ∧
      (assignment.form = .function → args = assignment.formals.map Prod.snd ∧
        ∀ arg ∈ args, arg ≠ [] ∧ IsNameText arg) := by
  have hformals := fun hcategory => contents_formals h hcategory
  unfold contents at h
  dsimp only at h
  cases hform : assignment.form
  case number =>
    rw [hform] at h
    dsimp only at h
    split at h
    next =>
      cases h
      exact ⟨[], rfl, by simp, nofun⟩
    next => contradiction
  case function =>
    rw [hform] at h hformals
    obtain ⟨⟨⟩, -, h⟩ := bind_eq_ok_iff.1 h
    cases h
    exact ⟨[], rfl, by simp, fun _ => ⟨rfl, hformals rfl⟩⟩
  case special =>
    rw [hform] at h
    dsimp only at h
    split at h
    next => contradiction
    next start hstart =>
      obtain ⟨items, hitems, h⟩ := bind_eq_ok_iff.1 h
      cases h
      obtain ⟨front, rest, hsplit, -, hplace⟩ := (@find?_eq_some_iff [] expr '(' start).1 hstart
      rw [List.nil_append] at hplace
      subst hplace
      obtain ⟨c, extra, hc, hkind, hexpr, hextra⟩ := exprList_eq_ok rfl hsplit hblank
        (hnested (Or.inl hform)) hitems
      obtain rfl := eq_of_openingOf_eq hc (d := ')') rfl hkind
      refine ⟨extra, ?_, fun hne => ⟨Or.inl rfl, hextra hne⟩, nofun⟩
      have hfront : takeBytes (width front) expr = front := by
        rw [hsplit, takeBytes_width_append]
      rw [hfront]
      exact hexpr
  case assignments =>
    rw [hform] at h
    dsimp only at h
    split at h
    next hhead =>
      obtain ⟨items, hitems, h⟩ := bind_eq_ok_iff.1 h
      cases h
      obtain ⟨rest, hsplit⟩ := List.head?_eq_some_iff.1 hhead
      obtain ⟨c, extra, hc, hkind, hexpr, hextra⟩ := @exprList_eq_ok line [] rest expr _ _ _ rfl
        hsplit hblank (hnested (Or.inr hform)) hitems
      obtain rfl := eq_of_openingOf_eq hc (d := '\x7d') rfl hkind
      exact ⟨extra, hexpr, fun hne => ⟨Or.inr rfl, hextra hne⟩, nofun⟩
    next => contradiction
  all_goals
    rw [hform] at h
    cases h
    exact ⟨[], rfl, by simp, nofun⟩

/-- The formal arguments of a function are kept, up to the bracket that closes their list. -/
theorem head_of_listAt {before inner later : Text} {formals : List (Nat × Text)} {close : Nat}
    (hbalanced : imbalance? [] 0 line.text = none)
    (htext : line.text = before ++ '(' :: (inner ++ ')' :: '=' :: later))
    (h : line.listAt (width before) (· == ',') = .ok (formals, close))
    (hformals : ∀ formal ∈ formals.map Prod.snd, IsNameText formal) :
    ∃ extra, withoutBlanks (inner ++ [')']) = joined (formals.map Prod.snd) ++ ')' :: extra ∧
      IsExtra extra := by
  unfold Line.listAt at h
  split at h
  next => contradiction
  next items close hitems =>
    cases h
    rw [htext] at hitems
    obtain ⟨inside, behind, hsplit, hbehind, hpieces⟩ := exists_of_splitList rfl hitems
    have hargs : joined ((items.map fun item => (item.1, withoutBlanks item.2)).map Prod.snd) =
        withoutBlanks inside := by
      rw [List.map_map, ← joined_topFields 0 (width before + 1) inside, withoutBlanks_joined]
      have hmap := congrArg (List.map withoutBlanks) hpieces
      rw [List.map_map, List.map_map] at hmap
      rw [List.map_map]
      exact congrArg joined (hmap.trans (List.map_congr_left fun piece _ =>
        withoutBlanks_trim piece.2))
    -- names have no brackets, so the first closing one ends the list
    have hplain : ∀ c ∈ inside, isOpening c = false ∧ isClosing c = false := by
      intro c hc
      cases hblank : isBlank c with
      | true => exact not_bracket_of_isBlank hblank
      | false =>
          have hmem : c ∈ withoutBlanks inside := by simp [withoutBlanks, hc, hblank]
          rw [← hargs] at hmem
          rcases Clause.mem_joined_names hformals hmem with hname | rfl
          · exact not_bracket (Or.inr hname)
          · decide
    have hclosed : ∃ extra, behind = ')' :: (extra ++ '=' :: later) ∧
        inner ++ [')'] = inside ++ ')' :: extra := by
      have hopen : ')' ∉ inside := fun hmem => by simpa [isClosing] using (hplain _ hmem).2
      have hends : (inner ++ [')']) ++ '=' :: later = inside ++ behind := by
        rw [← hsplit]
        simp
      rcases List.append_eq_append_iff.1 hends with ⟨more, hinside, -⟩ | ⟨more, hinner, rfl⟩
      · exact absurd (by simp [hinside]) hopen
      · cases more with
        | nil =>
            rw [List.append_nil] at hinner
            exact absurd (by simp [← hinner]) hopen
        | cons c extra =>
            have hc : isClosing c = true := hbehind c rfl
            rw [htext, hsplit] at hbalanced
            have hnested : Nested (fun _ => True) inside :=
              Nested.of_forall fun d hd => ⟨(hplain d hd).1, (hplain d hd).2, trivial⟩
            have hkind := openingOf_eq_of_imbalance? rfl hc hnested hbalanced
            obtain rfl := eq_of_openingOf_eq hc (d := ')') rfl hkind
            exact ⟨extra, rfl, hinner⟩
    obtain ⟨extra, rfl, hinner⟩ := hclosed
    refine ⟨withoutBlanks extra, ?_, fun hne => ?_⟩
    · rw [hargs, hinner, withoutBlanks_append]
      rfl
    · -- the word ends with a bracket
      have hlast : (')' :: extra).getLast? = some ')' := by
        rw [← List.getLast?_append_of_ne_nil inside (by simp), ← hinner, List.getLast?_concat]
      have hmem : ')' ∈ extra := by
        cases extra with
        | nil => contradiction
        | cons c extra => exact List.mem_of_getLast? (by simpa using hlast)
      exact List.countP_pos_iff.2 ⟨')', by simp [withoutBlanks, hmem, isBlank], by decide⟩

/-- The word before an equals sign is that of the assignment found in it. -/
theorem ofWord_eq_ok {word : Word} (h : ofWord line word = .ok assignment) :
    assignment.sign = word.stop ∧ assignment.form ≠ .special ∧ assignment.form ≠ .assignments ∧
      (assignment.form ≠ .function → ∀ expr args,
        word.text = Clause.word [] ⟨assignment.form, assignment.name, expr, args⟩) ∧
      (assignment.form = .function → ∃ inner close,
        word.text = assignment.name ++ '(' :: (inner ++ [')']) ∧
          line.listAt (word.start + width assignment.name) (· == ',') =
            .ok (assignment.formals, close)) := by
  unfold ofWord at h
  split at h
  next =>
    cases h
    exact ⟨rfl, by simp, by simp, fun _ _ _ => (List.append_nil _).symm, nofun⟩
  next form found hfound =>
    obtain ⟨before, hmarks, rfl, -⟩ := Form.marks_of_ofWord? hfound
    cases form
    case constant =>
      cases h
      obtain ⟨rfl, name, -, hword⟩ := hmarks
      refine ⟨rfl, by simp, by simp, fun _ _ _ => ?_, nofun⟩
      rw [hword]
      exact congrArg (Form.constant.mark ++ ·) (dropBytes_width_append Form.constant.mark name).symm
    case setting =>
      cases h
      obtain ⟨rfl, name, -, hword⟩ := hmarks
      refine ⟨rfl, by simp, by simp, fun _ _ _ => ?_, nofun⟩
      rw [hword]
      exact congrArg (Form.setting.mark ++ ·) (dropBytes_width_append Form.setting.mark name).symm
    case derivative =>
      cases h
      obtain ⟨⟨name, -, rfl⟩, hword⟩ := hmarks
      refine ⟨rfl, by simp, by simp, fun _ _ _ => ?_, nofun⟩
      have hname : slice word.text 1 (width ('d' :: name)) = name := by
        rw [hword]
        exact slice_width_append ['d'] name Form.derivative.mark
      change word.text = 'd' :: (slice word.text 1 (width ('d' :: name)) ++ Form.derivative.mark)
      rw [hname, hword]
      rfl
    case constraint =>
      cases h
      exact ⟨rfl, by simp, by simp, fun _ _ _ => hmarks.2, nofun⟩
    case function =>
      obtain ⟨-, -, inner, hword⟩ := hmarks
      obtain ⟨⟨formals, close⟩, hlist, h⟩ := bind_eq_ok_iff.1 h
      cases h
      have hname : takeBytes (width before) word.text = before := by
        rw [hword, takeBytes_width_append]
      refine ⟨rfl, by simp, by simp, fun hform => absurd rfl hform, fun _ => ⟨inner, close, ?_, ?_⟩⟩
      · change word.text = takeBytes (width before) word.text ++ '(' :: (inner ++ [')'])
        rw [hname, hword]
      · change line.listAt (word.start + width (takeBytes (width before) word.text)) _ = _
        rw [hname]
        exact hlist
    case difference | prime | integral | initialValue =>
      cases h
      obtain ⟨-, hword⟩ := hmarks
      have hname : takeBytes (width before) word.text = before := by
        rw [hword, takeBytes_width_append]
      refine ⟨rfl, by simp, by simp, fun _ _ _ => ?_, nofun⟩
      exact hword.trans (congrArg (· ++ _) hname.symm)
    all_goals exact hmarks.elim

/-- The assignment stands behind the text before it and a gap: first what opens it, up to the
equals sign, and then its expression. -/
structure Located (line : Line) (leading : Option Form) (before gap head later : Text)
    (assignment : Assignment) : Prop where
  isGap : IsGap gap
  nextExpression : nextExpression line.text assignment.sign =
    (withoutBlanks (spanToComma 0 later).1, if (spanToComma 0 later).2.isEmpty then none
      else some (width (before ++ (gap ++ (head ++ (spanToComma 0 later).1)))))
  place : ∃ front sign, before ++ (gap ++ head) = front ++ [sign] ∧
    assignment.sign = width front ∧ (sign = ' ' ∨ sign = ',' ∨ sign = '=')
  form_eq : ∀ form, leading = some form → assignment.form = form
  isLed : assignment.form = .special ∨ assignment.form = .assignments → leading.isSome = true
  opening : assignment.form ≠ .function → ∀ expr args,
    head = Clause.opening leading.isSome [] ⟨assignment.form, assignment.name, expr, args⟩
  formals : assignment.form = .function → leading = none ∧ ∃ inner close,
    head = assignment.name ++ '(' :: (inner ++ [')', '=']) ∧
      line.listAt (width (before ++ gap ++ assignment.name)) (· == ',') =
        .ok (assignment.formals, close)

/-- The expression is looked for behind the last character of what opens the assignment. -/
theorem nextExpression_located {before gap front later : Text} {sign : Char} {place : Nat}
    (htext : line.text = before ++ (gap ++ (front ++ sign :: later)))
    (hsign : sign.utf8Size = 1) (hplace : place = width (before ++ gap ++ front)) :
    nextExpression line.text place = (withoutBlanks (spanToComma 0 later).1,
      if (spanToComma 0 later).2.isEmpty then none
      else some (width (before ++ (gap ++ (front ++ [sign] ++ (spanToComma 0 later).1))))) := by
  have hsplit : line.text = before ++ gap ++ front ++ sign :: later := by
    rw [htext]
    simp
  rw [hsplit, hplace, nextExpression_eq hsign]
  simp

theorem locate_eq_ok {leading : Option Form} {before rest : Text}
    (hleading : ∀ form, leading = some form → form.isLeading = true ∨ form = .constant)
    (hrest : leading.isSome = true → ∃ sign later, rest = sign :: later ∧ (sign = ' ' ∨ sign = ','))
    (htext : line.text = before ++ rest)
    (h : locate line (width before) leading = .ok assignment) :
    ∃ gap head later, rest = gap ++ (head ++ later) ∧
      assignment.Located line leading before gap head later := by
  unfold locate at h
  split at h
  next hboundary =>
    subst hboundary
    cases h
    obtain ⟨sign, later, rfl, hsign⟩ := hrest rfl
    have hsize : sign.utf8Size = 1 := by
      rcases hsign with rfl | rfl <;> rfl
    have hnext :=
      @nextExpression_located line before [] [] later sign (width before) htext hsize (by simp)
    refine ⟨[sign], [], later, rfl, ?_, hnext, ⟨before, sign, by simp, rfl, ?_⟩, by simp, by simp,
      fun _ _ _ => rfl, by simp⟩
    · simpa [IsGap] using hsign
    · exact hsign.imp_right Or.inl
  next hboundary =>
    split at h
    next => contradiction
    next word hword =>
      rw [htext] at hword
      obtain ⟨gap, behind, rfl, hgap, -, -, -, hends, hdelimiter, hstart⟩ :=
        nextWord_eq_some_iff.1 hword
      have hstop : word.stop = width (before ++ gap ++ word.text) := by
        rw [Word.stop, hstart, ← width_append]
      have hsplit : ∀ sign, word.delimiter = some sign → ∃ later, behind = sign :: later := by
        intro sign hsign
        exact List.head?_eq_some_iff.1 (hdelimiter.symm.trans hsign)
      split at h
      next hassignments =>
        subst hassignments
        split at h
        next hspace =>
          cases h
          obtain ⟨later, rfl⟩ := hsplit ' ' hspace
          have hnext := nextExpression_located htext rfl hstop
          exact ⟨gap, word.text ++ [' '], later, by simp, hgap, hnext,
            ⟨before ++ gap ++ word.text, ' ', by simp, hstop, Or.inl rfl⟩, by simp, by simp,
            fun _ _ _ => rfl, by simp⟩
        next => contradiction
      next hassignments =>
        split at h
        next => contradiction
        next hequals =>
          obtain ⟨later, rfl⟩ := hsplit '=' (by simpa using hequals)
          have hnext := nextExpression_located htext rfl hstop
          refine ⟨gap, word.text ++ ['='], later, by simp, ?_⟩
          have hplace : before ++ (gap ++ (word.text ++ ['='])) =
              before ++ gap ++ word.text ++ ['='] := by simp
          split at h
          next form =>
            cases h
            refine ⟨hgap, hnext, ⟨_, _, hplace, hstop, Or.inr (Or.inr rfl)⟩, by simp, by simp,
              fun _ _ _ => ?_, fun hform => ?_⟩
            · cases form
              case boundary => contradiction
              case assignments => contradiction
              all_goals rfl
            · obtain rfl : form = .function := hform
              simpa [Form.isLeading] using hleading _ rfl
          next =>
            obtain ⟨hsign, hspecial, hset, hopening, hformals⟩ := ofWord_eq_ok h
            rw [← hsign] at hnext hstop
            refine ⟨hgap, hnext, ⟨_, _, hplace, hstop, Or.inr (Or.inr rfl)⟩, by simp,
              by simp [hspecial, hset],
              fun hform expr args => congrArg (· ++ ['=']) (hopening hform expr args),
              fun hform => ⟨rfl, ?_⟩⟩
            obtain ⟨inner, close, hword, hlist⟩ := hformals hform
            refine ⟨inner, close, by rw [hword]; simp, ?_⟩
            rw [width_append, ← hstart]
            exact hlist

/-- The name that comes back from checking it is the one that is kept. A special definition
and a set have a new identifier as their name. -/
theorem defineName_eq_ok {draft defined : Draft} {name : Text}
    (h : assignment.defineName line draft = .ok (defined, name)) (expr : Text) (args : List Text) :
    name = Clause.keptName ⟨assignment.form, assignment.name, expr, args⟩ ∧
      (assignment.form = .special ∨ assignment.form = .assignments →
        isIdentifier assignment.name = true) := by
  unfold defineName at h
  cases hform : assignment.form
  case setting =>
    rw [hform] at h
    dsimp only at h
    split at h
    next option hoption =>
      cases h
      refine ⟨?_, by simp⟩
      rw [Clause.keptName, if_pos rfl, hoption, Option.getD_some]
    next => contradiction
  all_goals
    rw [hform] at h
    dsimp only at h
    first
    | cases h
      exact ⟨rfl, by simp⟩
    | split at h
      · cases h
        exact ⟨rfl, by simp⟩
      · contradiction
    | split at h
      · contradiction
      · obtain ⟨next, hnext, hpure⟩ := bind_eq_ok_iff.1 h
        cases hpure
        obtain ⟨scope, hscope, -⟩ := Draft.define_eq_ok_iff.1 hnext
        have hnew := (Scope.define_eq_ok_iff.1 hscope).1
        exact ⟨rfl, fun _ => (Scope.objection?_eq_none_iff.1 hnew).1⟩

/-- An assignment that makes a definition has an expression, and one with a list behind its
equals sign or space has an identifier before it. -/
theorem record_eq_ok {expr : Text} {draft recorded : Draft}
    (h : assignment.record line expr draft = .ok recorded) :
    expr ≠ [] ∧ (assignment.form = .special ∨ assignment.form = .assignments →
      isIdentifier assignment.name = true) := by
  unfold record at h
  split at h
  next => contradiction
  next hne =>
    obtain ⟨⟨defined, name⟩, hname, -⟩ := bind_eq_ok_iff.1 h
    exact ⟨by simpa using hne, (defineName_eq_ok hname [] []).2⟩

/-- The expression of an assignment with a list has nested brackets when the rest of the line
has. -/
theorem Located.nested {leading : Option Form} {before gap head later : Text}
    (h : assignment.Located line leading before gap head later)
    (hidentifier : isIdentifier assignment.name = true)
    (hform : assignment.form = .special ∨ assignment.form = .assignments)
    (hnested : leading = some .special ∨ leading = some .assignments →
      Nested (fun _ => True) (gap ++ (head ++ later))) :
    Nested (fun _ => True) later := by
  have hleading : leading = some .special ∨ leading = some .assignments := by
    obtain ⟨form, rfl⟩ := Option.isSome_iff_exists.1 (h.isLed hform)
    rw [h.form_eq form rfl] at hform
    exact hform.imp (congrArg some) (congrArg some)
  have hname : ∀ c ∈ assignment.name, isOpening c = false ∧ isClosing c = false := fun c hc =>
    not_bracket (Or.inr ((isNameText_of_isIdentifier hidentifier).2.2 c hc))
  have hhead : ∃ sign : Char, head = assignment.name ++ [sign] ∧ (sign = ' ' ∨ sign = '=') := by
    have hopening := h.opening (by rcases hform with hform | hform <;> simp [hform]) [] []
    rw [h.isLed hform] at hopening
    rcases hform with hform | hform <;> simp [hopening, Clause.opening, hform]
  obtain ⟨sign, rfl, hsign⟩ := hhead
  refine ((hnested hleading).of_append fun c hc => h.isGap.not_bracket hc).of_append fun c hc => ?_
  rcases List.mem_append.1 hc with hc | hc
  · exact hname c hc
  · rw [List.mem_singleton.1 hc]
    rcases hsign with rfl | rfl <;> decide

/-- In a line of lists the brackets are nested in what follows an assignment, too. -/
theorem Located.nested_tail {leading : Option Form} {before gap head later : Text}
    (h : assignment.Located line leading before gap head later)
    (hidentifier : assignment.form = .special ∨ assignment.form = .assignments →
      isIdentifier assignment.name = true)
    (hnested : leading = some .special ∨ leading = some .assignments →
      Nested (fun _ => True) (gap ++ (head ++ later))) :
    leading = some .special ∨ leading = some .assignments →
      Nested (fun _ => True) (spanToComma 0 later).2 := by
  intro hleading
  have hform : assignment.form = .special ∨ assignment.form = .assignments :=
    hleading.imp (h.form_eq _) (h.form_eq _)
  exact (h.nested (hidentifier hform) hform hnested).spanToComma_spec.2

/-- What opens an assignment is what opens its definition in writing, with some extra text
behind the formal arguments. -/
theorem Located.opening_spec {leading : Option Form} {before gap head later : Text}
    {args : List Text} (h : assignment.Located line leading before gap head later)
    (hbalanced : imbalance? [] 0 line.text = none)
    (htext : line.text = before ++ (gap ++ (head ++ later))) (expr : Text)
    (hargs : assignment.form = .function → args = assignment.formals.map Prod.snd ∧
      ∀ arg ∈ args, arg ≠ [] ∧ IsNameText arg) :
    ∃ extra, IsExtra extra ∧ (extra ≠ [] → assignment.form = .function ∧ leading = none) ∧
      withoutBlanks head = withoutBlanks
        (Clause.opening leading.isSome extra ⟨assignment.form, assignment.name, expr, args⟩) := by
  by_cases hform : assignment.form = .function
  · obtain ⟨rfl, hnames⟩ := hargs hform
    obtain ⟨rfl, inner, close, rfl, hlist⟩ := h.formals hform
    have hsplit : line.text =
        before ++ gap ++ assignment.name ++ '(' :: (inner ++ ')' :: '=' :: later) := by
      rw [htext]
      simp
    obtain ⟨extra, hhead, hextra⟩ := head_of_listAt hbalanced hsplit hlist
      fun formal hformal => (hnames formal hformal).2
    have hsame : withoutBlanks (joined (assignment.formals.map Prod.snd) ++ ')' :: extra) =
        withoutBlanks (inner ++ [')']) := by
      rw [← hhead]
      exact withoutBlanks_of_no_blank fun c hc => isBlank_of_mem_withoutBlanks hc
    have hwritten : Clause.opening false extra
        ⟨assignment.form, assignment.name, expr, assignment.formals.map Prod.snd⟩ =
          assignment.name ++ (['('] ++
            ((joined (assignment.formals.map Prod.snd) ++ ')' :: extra) ++ ['='])) := by
      simp [Clause.opening, Clause.word, hform]
    have hread : assignment.name ++ '(' :: (inner ++ [')', '=']) =
        assignment.name ++ (['('] ++ ((inner ++ [')']) ++ ['='])) := by
      simp
    refine ⟨extra, hextra, fun _ => ⟨hform, rfl⟩, ?_⟩
    rw [hread, Option.isSome_none, hwritten]
    generalize inner ++ [')'] = word at hsame
    generalize joined (assignment.formals.map Prod.snd) ++ ')' :: extra = list at hsame
    simp only [withoutBlanks_append, hsame]
  · exact ⟨[], absurd rfl, absurd rfl, congrArg withoutBlanks (h.opening hform expr args)⟩

/-- The text of an assignment is that of its definition in writing, with some extra text
behind its list. -/
theorem record_located {leading : Option Form} {before gap head later : Text}
    {draft recorded : Draft} (hbalanced : imbalance? [] 0 line.text = none)
    (htext : line.text = before ++ (gap ++ (head ++ later)))
    (hlocated : assignment.Located line leading before gap head later)
    (hnested : assignment.form = .special ∨ assignment.form = .assignments →
      Nested (fun c => c ≠ ',') (spanToComma 0 later).1)
    (h : assignment.record line (withoutBlanks (spanToComma 0 later).1) draft = .ok recorded) :
    ∃ (clause : Clause) (extra : Text), clause.Carries leading.isSome extra ∧
      recorded.symbols = draft.symbols.pushAll [clause.entry line.number] ∧
      withoutBlanks (head ++ (spanToComma 0 later).1) =
        withoutBlanks (clause.textWith leading.isSome extra) := by
  unfold record at h
  split at h
  next hne => contradiction
  next hne =>
    obtain ⟨⟨defined, name⟩, hname, h⟩ := bind_eq_ok_iff.1 h
    obtain ⟨⟨kept, args⟩, hcontents, h⟩ := bind_eq_ok_iff.1 h
    cases h
    obtain ⟨rfl, -⟩ := defineName_eq_ok hname kept args
    have hblank : ∀ c ∈ withoutBlanks (spanToComma 0 later).1, isBlank c = false :=
      fun c hc => isBlank_of_mem_withoutBlanks hc
    obtain ⟨extra, hsource, hextra, hformals⟩ :=
      contents_eq_ok hblank (fun hform => (hnested hform).withoutBlanks) hcontents
    obtain ⟨behind, hbehind, hfunction, hhead⟩ :=
      hlocated.opening_spec hbalanced htext kept hformals
    let clause : Clause := ⟨assignment.form, assignment.name, kept, args⟩
    have hsymbols : (defined.push assignment.form.category
        ⟨line.number, clause.keptName, kept, args⟩).symbols =
          draft.symbols.pushAll [clause.entry line.number] := by
      rw [Draft.push, defineName_symbols hname]
      rfl
    have hexpr := withoutBlanks_of_no_blank hblank
    by_cases hform : assignment.form = .function
    · refine ⟨clause, behind, fun hne => ⟨hbehind hne, Or.inr (Or.inr ⟨hform, ?_⟩)⟩, hsymbols, ?_⟩
      · rw [(hfunction hne).2]
        rfl
      · have hsame : clause.source behind = clause.source extra := by
          simp [clause, Clause.source, hform]
        rw [Clause.textWith, withoutBlanks_append, withoutBlanks_append, hhead, hsame, ← hsource,
          hexpr]
    · refine ⟨clause, extra, fun hne => ?_, hsymbols, ?_⟩
      · obtain ⟨hlist, hweight⟩ := hextra hne
        exact ⟨hweight, hlist.imp_right Or.inl⟩
      · rw [Clause.textWith, Clause.opening_eq hform, ← hlocated.opening hform kept args,
          withoutBlanks_append, withoutBlanks_append, ← hsource, hexpr]

end Assignment

namespace Line

variable {line : Line} {leading : Option Form} {draft recorded : Draft}

/-- The assignments of a line keep its text. -/
theorem recordFrom_kept {fuel : Nat} {before rest : Text}
    (hleading : ∀ form, leading = some form → form.isLeading = true ∨ form = .constant)
    (hrest : leading.isSome = true → ∃ sign later, rest = sign :: later ∧ (sign = ' ' ∨ sign = ','))
    (hbalanced : imbalance? [] 0 line.text = none)
    (hnested : leading = some .special ∨ leading = some .assignments →
      Nested (fun _ => True) rest)
    (htext : line.text = before ++ rest) (hfuel : rest.length < fuel)
    (h : line.recordFrom leading fuel (Text.width before) draft = .ok recorded) :
    ∃ entries : List (Clause × Text), entries ≠ [] ∧
      (∀ entry ∈ entries, entry.1.Carries leading.isSome entry.2) ∧
      recorded.symbols =
        draft.symbols.pushAll (entries.map fun entry => entry.1.entry line.number) ∧
      parts rest =
        entries.flatMap fun entry => parts (entry.1.textWith leading.isSome entry.2) := by
  induction fuel generalizing before rest draft with
  | zero => omega
  | succ fuel ih =>
      unfold recordFrom at h
      obtain ⟨assignment, hlocate, h⟩ := bind_eq_ok_iff.1 h
      dsimp only at h
      obtain ⟨entered, hentered, h⟩ := bind_eq_ok_iff.1 h
      obtain ⟨gap, head, later, rfl, hlocated⟩ :=
        Assignment.locate_eq_ok hleading hrest htext hlocate
      rw [hlocated.nextExpression] at hentered h
      obtain ⟨hexpr, hidentifier⟩ := Assignment.record_eq_ok hentered
      -- lists are looked for in texts with nested brackets only
      have hlater : assignment.form = .special ∨ assignment.form = .assignments →
          Nested (fun _ => True) later := fun hform =>
        hlocated.nested (hidentifier hform) hform hnested
      obtain ⟨clause, extra, hcarries, hsymbols, hwritten⟩ := Assignment.record_located hbalanced
        htext hlocated (fun hform => (hlater hform).spanToComma_spec.1) hentered
      have hsplit := spanToComma_append_eq 0 later
      have hcomma := head?_spanToComma 0 later
      have htail := hlocated.nested_tail hidentifier hnested
      obtain ⟨span, tail, hcut⟩ : ∃ span tail, spanToComma 0 later = (span, tail) := ⟨_, _, rfl⟩
      rw [hcut] at hexpr hwritten hsplit hcomma htail h
      subst hsplit
      have hparts := parts_congr hwritten
      rw [parts_gap hlocated.isGap, ← List.append_assoc]
      cases tail with
      | nil =>
          cases h
          refine ⟨[(clause, extra)], by simp, by simpa using hcarries, hsymbols, ?_⟩
          simpa using hparts
      | cons c tail =>
          obtain rfl : c = ',' := hcomma c rfl
          have hspan : 0 < span.length := by
            refine List.length_pos_of_ne_nil fun hnil => ?_
            rw [hnil] at hexpr
            exact hexpr rfl
          have hnext : line.text = before ++ (gap ++ (head ++ span)) ++ ',' :: tail := by
            rw [htext]
            simp
          have hleft : (',' :: tail).length < fuel := by
            simp only [List.length_append, List.length_cons] at hfuel ⊢
            omega
          obtain ⟨entries, -, hentries, hlaterSymbols, hlaterParts⟩ :=
            ih (fun _ => ⟨',', tail, rfl, Or.inr rfl⟩) htail hnext hleft h
          refine ⟨(clause, extra) :: entries, by simp,
            List.forall_mem_cons.2 ⟨hcarries, hentries⟩, ?_, ?_⟩
          · rw [hlaterSymbols, hsymbols]
            rfl
          · rw [parts_append_comma, hparts, List.flatMap_cons, ← hlaterParts, parts_comma]

/-- A line starts with the mark of the form that leads it, if one does. -/
theorem leadingForm_eq_ok {first : Word} (h : line.leadingForm = .ok (leading, first)) :
    ∃ front body, line.text = front ++ body ∧ parts front = (leading.map Form.mark).toList ∧
      (if leading.isSome then first.stop else 0) = Text.width front ∧
      (∀ c ∈ front, isOpening c = false ∧ isClosing c = false) ∧
      (∀ form, leading = some form → form.isLeading = true ∨ form = .constant) ∧
      (leading.isSome = true →
        ∃ sign later, body = sign :: later ∧ (sign = ' ' ∨ sign = ',')) := by
  unfold leadingForm firstWord at h
  obtain ⟨word, hword, h⟩ := bind_eq_ok_iff.1 h
  split at hword
  next found hfound =>
    cases hword
    split at h
    next =>
      cases h
      exact ⟨[], line.text, rfl, rfl, rfl, by simp, nofun, by simp⟩
    next sign hequals hsign =>
      split at h
      next form hform =>
        split at h
        next hleads =>
          cases h
          obtain ⟨gap, later, hsplit, hgap, -, -, -, hends, hdelimiter, hstart⟩ :=
            (@nextWord_eq_some_iff [] line.text first).1 hfound
          obtain ⟨body, rfl⟩ := List.head?_eq_some_iff.1 (hdelimiter.symm.trans hsign)
          have hmark : form.mark = first.text := by simpa using List.find?_some hform
          have hspace : sign = ' ' := by
            rcases hends sign rfl with hspace | rfl
            · exact hspace
            · exact (hequals rfl).elim
          have hkind : form.isLeading = true ∨ form = .constant := by simpa using hleads
          refine ⟨gap ++ first.text, sign :: body, by rw [hsplit]; simp, ?_, ?_, ?_, ?_, ?_⟩
          · rw [parts_gap hgap, ← hmark, Form.parts_mark (List.mem_of_find?_eq_some hform)]
            rfl
          · rw [Option.isSome_some, if_pos rfl, Word.stop, hstart, List.nil_append, width_append]
          · intro c hc
            rcases List.mem_append.1 hc with hc | hc
            · exact hgap.not_bracket hc
            · exact Form.not_bracket_of_mem_mark hkind (hmark ▸ hc)
          · rintro _ ⟨⟩
            exact hkind
          · exact fun _ => ⟨sign, body, rfl, Or.inl hspace⟩
        next => contradiction
      next => contradiction
    next => contradiction
  next => contradiction

/-- A line that is accepted is written back by its definitions, but for blanks, for commas
that separate nothing and for the upper and lower case of options, when the text behind the
lists of its assignments is written with them. Without that text it is the same line just
when no list has any behind it. -/
theorem record_keeps_text (hbalanced : line.checkBrackets = .ok ())
    (h : line.record draft = .ok recorded) :
    ∃ (leading : Option Form) (front body : Text) (entries : List (Clause × Text)),
      line.text = front ++ body ∧ parts front = (leading.map Form.mark).toList ∧
      entries ≠ [] ∧
      recorded.symbols =
        draft.symbols.pushAll (entries.map fun entry => entry.1.entry line.number) ∧
      (∀ entry ∈ entries, entry.1.keptName.map Char.toLower = entry.1.name.map Char.toLower ∧
        (entry.1.form ≠ .setting → entry.1.keptName = entry.1.name)) ∧
      (∀ entry ∈ entries, entry.2 ≠ [] →
        entry.1.form = .special ∨ entry.1.form = .assignments ∨ entry.1.form = .function) ∧
      parts body = parts (joined
        (entries.map fun entry => entry.1.textWith leading.isSome entry.2)) ∧
      (parts body = parts (joined (entries.map fun entry => entry.1.textWith leading.isSome [])) ↔
        ∀ entry ∈ entries, entry.2 = []) := by
  have hchecked : imbalance? [] 0 line.text = none := by
    unfold checkBrackets at hbalanced
    split at hbalanced
    next hnone => exact hnone
    next => contradiction
  unfold record at h
  obtain ⟨⟨leading, first⟩, hleadingForm, h⟩ := bind_eq_ok_iff.1 h
  obtain ⟨front, body, hsplit, hfront, hplace, hplain, hleading, hbody⟩ :=
    leadingForm_eq_ok hleadingForm
  dsimp only at h
  rw [hplace] at h
  have hnested : Nested (fun _ => True) body := by
    refine Nested.of_append ?_ hplain
    rw [← hsplit]
    exact imbalance?_eq_none_iff.1 hchecked
  have hfuel : body.length < line.text.length + 1 := by
    rw [hsplit, List.length_append]
    omega
  obtain ⟨entries, hne, hcarries, hsymbols, hparts⟩ :=
    recordFrom_kept hleading hbody hchecked (fun _ => hnested) hsplit hfuel h
  refine ⟨leading, front, body, entries, hsplit, hfront, hne, hsymbols, ?_, ?_, ?_, ?_⟩
  · exact fun entry _ => entry.1.keptName_spec
  · intro entry hentry hextra
    exact (hcarries entry hentry hextra).2.imp_right (Or.imp_right And.left)
  · rw [hparts, parts_joined, List.flatMap_map]
  · rw [hparts, ← List.flatMap_map, ← parts_joined]
    constructor
    · intro hsame entry hentry
      have hweight := weight_eq_of_parts_eq hsame
      rw [weight_joined, weight_joined, List.map_map, List.map_map] at hweight
      have hsplit : entries.map (weight ∘ fun entry => entry.1.textWith leading.isSome entry.2) =
          entries.map fun entry => (weight ∘ fun entry : Clause × Text =>
            entry.1.textWith leading.isSome []) entry + weight entry.2 :=
        List.map_congr_left fun entry hentry => (hcarries entry hentry).weight_textWith
      rw [hsplit, List.sum_map_add, Nat.add_eq_left, List.sum_eq_zero_iff_forall_eq_nat] at hweight
      by_contra hextra
      have hpos := (hcarries entry hentry hextra).1
      have hzero := hweight _ (List.mem_map_of_mem hentry)
      omega
    · intro hnone
      congr 2
      refine List.map_congr_left fun entry hentry => ?_
      rw [hnone entry hentry]

/-- Repeated commas and an upper case letter do not come back, and nothing else is missing. -/
theorem record_keeps_text_options :
    ∃ (recorded : Draft) (leading : Option Form) (front body : Text)
      (entries : List (Clause × Text)),
      (⟨1, "@ Total=20*(1+2),,dT=.1".toList⟩ : Line).record (Draft.empty { }) = .ok recorded ∧
      recorded.symbols.get .options =
        [⟨1, "TOTAL".toList, "20*(1+2)".toList, []⟩, ⟨1, "DT".toList, ".1".toList, []⟩] ∧
      front ++ body = "@ Total=20*(1+2),,dT=.1".toList ∧
      parts front = (leading.map Form.mark).toList ∧
      recorded.symbols = SymbolTable.empty.pushAll (entries.map fun entry => entry.1.entry 1) ∧
      parts body = parts (joined
        (entries.map fun entry => entry.1.textWith leading.isSome entry.2)) := by
  have hrun : ((⟨1, "@ Total=20*(1+2),,dT=.1".toList⟩ : Line).record (Draft.empty { })).map
      (fun draft => draft.symbols.get .options) =
        .ok [⟨1, "TOTAL".toList, "20*(1+2)".toList, []⟩, ⟨1, "DT".toList, ".1".toList, []⟩] := by
    decide +kernel
  obtain ⟨recorded, hrecord, hoptions⟩ := map_eq_ok_iff.1 hrun
  obtain ⟨leading, front, body, entries, hsplit, hfront, -, hsymbols, -, -, hparts, -⟩ :=
    record_keeps_text (by decide +kernel) hrecord
  exact ⟨recorded, leading, front, body, entries, hrecord, hoptions, hsplit.symm, hfront,
    hsymbols, hparts⟩

/-- Both lines are accepted and make the same definitions, and yet they differ in more than
blanks and commas that separate nothing. -/
def LosesText (line shorter : Line) : Prop :=
  line.checkBrackets = .ok () ∧ shorter.checkBrackets = .ok () ∧
    ((line.record (Draft.empty { })).map Draft.symbols).toOption.isSome = true ∧
    (line.record (Draft.empty { })).map Draft.symbols =
      (shorter.record (Draft.empty { })).map Draft.symbols ∧
    parts line.text ≠ parts shorter.text

instance (line shorter : Line) : Decidable (LosesText line shorter) :=
  inferInstanceAs (Decidable (_ ∧ _ ∧ _ ∧ _ ∧ _))

/-- What stands behind the list of a special definition or of a set, or behind the formal
arguments of a function, is in no definition: the line without it makes the same ones. -/
theorem record_drops_text :
    LosesText ⟨1, "special s=f(x)+1".toList⟩ ⟨1, "special s=f(x)".toList⟩ ∧
      LosesText ⟨1, "set s \x7ba=1\x7d+2".toList⟩ ⟨1, "set s \x7ba=1\x7d".toList⟩ ∧
      LosesText ⟨1, "f(a)(b)=a".toList⟩ ⟨1, "f(a)=a".toList⟩ := by
  decide +kernel

end Line

end OdeModel
