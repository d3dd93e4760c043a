import OdeModel.Proofs.Line.Tidiness
import OdeModel.Proofs.Statement.Nesting
import OdeModel.Proofs.Statement.Refusals
import OdeModel.Proofs.Text.EmptyElements

/-!
# Columns of empty elements

A list with an empty element is refused, and the error tells the column where that element
starts. The list of a special definition is read from an expression without blanks, whose
places are counted on from the column of the expression; so there the column is short by the
number of blanks between the equals sign and the list. All other lists are read off the line.
-/

namespace OdeModel

open Text

/-! ### Lists of a statement -/

namespace Line

/-- The columns where an assignment of the line is looked for. -/
inductive StartsAt (line : Line) (leading : Option Form) : (column : Nat) → Prop
  /-- Behind the word that leads the line, if one does. -/
  | first {word : Word} (h : line.leadingForm = .ok (leading, word)) :
      StartsAt line leading (if leading.isSome then word.stop else 0)
  /-- At the comma behind an assignment. -/
  | next {column next : Nat} {assignment : Assignment} (h : StartsAt line leading column)
      (hlocate : Assignment.locate line column leading = .ok assignment)
      (hnext : (nextExpression line.text assignment.sign).2 = some next) :
      StartsAt line leading next

/-- The statement of the line has a list that opens at the column `start` and is cut at the
delimiter. A column in it is reported too small by `lost`. -/
inductive HasList (line : Line) : (start : Nat) → (delimiter : Char) → (lost : Nat) → Prop
  /-- The first list of an export. -/
  | inputs {start : Nat} (hled : line.leadingWord? = some "export".toList)
      (hstart : line.openCurly 0 = .ok start) : HasList line start ',' 0
  /-- The second list of an export. -/
  | outputs {first close start : Nat} {items : List (Nat × Text)}
      (hled : line.leadingWord? = some "export".toList)
      (hfirst : line.openCurly 0 = .ok first)
      (hitems : line.listAt first (· == ',') = .ok (items, close))
      (hstart : line.openCurly (close + 1) = .ok start) : HasList line start ',' 0
  /-- The resets of a global flag, behind its sign and its condition. -/
  | resets {keyword sign : Word} {start : Nat}
      (hled : line.leadingWord? = some "global".toList)
      (hkeyword : line.firstWord = .ok keyword)
      (hsign : line.wordAfter keyword.stop .expectedNumber = .ok sign)
      (hstart : line.openCurly sign.stop = .ok start) : HasList line start ';' 0
  /-- The formal arguments of a function, in the word before its equals sign. -/
  | formals {column : Nat} {word : Word} {found : Occurrence} (h : line.StartsAt none column)
      (hword : nextWord line.text column = some word) (hequals : word.delimiter = some '=')
      (hfunction : Form.ofWord? word.text = some (.function, found)) :
      HasList line (word.start + found.start) ',' 0
  /-- The assignments of a set, right behind the space that its name ends at. -/
  | assignments {column : Nat} {assignment : Assignment}
      (h : line.StartsAt (some .assignments) column)
      (hlocate : Assignment.locate line column (some .assignments) = .ok assignment) :
      HasList line (assignment.sign + 1) ',' 0
  /-- The arguments in a special definition, at the first parenthesis behind its equals sign.
  The blanks between the two are lost. -/
  | arguments {column start : Nat} {assignment : Assignment}
      (h : line.StartsAt (some .special) column)
      (hlocate : Assignment.locate line column (some .special) = .ok assignment)
      (hstart : Text.find? line.text (assignment.sign + 1) '(' = some start) :
      HasList line start ',' ((slice line.text (assignment.sign + 1) start).countP isBlank)

/-- The place is in the line. It is where an empty element of a list starts, or before it by
what the list loses. -/
def PointsAt (line : Line) (place : Place) : Prop :=
  place.line = line.number ∧ place.text = line.text ∧
    ∃ start delimiter lost, line.HasList start delimiter lost ∧
      EmptyElement delimiter line.text start (place.column + lost)

variable {line : Line} {draft : Draft} {place : Place}

theorem HasList.delimiter_spec {start lost : Nat} {delimiter : Char}
    (h : line.HasList start delimiter lost) :
    isOpening delimiter = false ∧ isClosing delimiter = false := by
  cases h <;> decide

/-- A list that is read off the line is refused at its empty element. -/
theorem pointsAt_of_listAt {front rest : Text} {o delimiter : Char}
    (hlist : line.HasList (Text.width front) delimiter 0) (ho : isOpening o = true)
    (hline : Nested (fun _ => True) line.text) (htext : line.text = front ++ o :: rest)
    (h : line.listAt (Text.width front) (· == delimiter) =
      .error (.located .expectedListArgument place)) : line.PointsAt place := by
  unfold listAt at h
  split at h
  next column hsplit =>
    cases h
    refine ⟨rfl, rfl, _, _, _, hlist, ?_⟩
    rw [htext] at hline hsplit ⊢
    obtain ⟨inside, c, later, rfl, hinside, hc, -⟩ := hline.exists_inside ho
    have hclosed := hinside.untilClosed_eq hc later
    obtain ⟨before, behind, rfl, rfl, hempty⟩ :=
      startsEmpty_of_splitList hlist.delimiter_spec ho hclosed hsplit
    exact hempty.emptyElement ho hclosed
  next => contradiction

theorem recordExport_pointsAt (hled : line.leadingWord? = some "export".toList)
    (hline : Nested (fun _ => True) line.text)
    (h : line.recordExport draft = .error (.located .expectedListArgument place)) :
    line.PointsAt place := by
  unfold recordExport at h
  rcases bind_eq_error_iff.1 h with h | ⟨first, hfirst, h⟩
  · exact absurd h (sparesLists_openCurly line _ place)
  obtain ⟨gap, after, hafter, rfl⟩ := @openCurly_eq_ok line [] line.text first rfl hfirst
  rcases bind_eq_error_iff.1 h with h | ⟨⟨inputs, close⟩, hinputs, h⟩
  · exact pointsAt_of_listAt (.inputs hled hfirst) rfl hline hafter h
  obtain ⟨-, front, later, hfront, hclose⟩ := listAt_nested rfl hline hafter hinputs
  rcases bind_eq_error_iff.1 h with h | ⟨second, hsecond, h⟩
  · exact absurd h (sparesLists_openCurly line _ place)
  have hlist := HasList.outputs hled hfirst hinputs hsecond
  rw [hclose] at hsecond
  obtain ⟨gap', after', rfl, rfl⟩ := openCurly_eq_ok hfront hsecond
  rw [← List.append_assoc] at hfront
  rcases bind_eq_error_iff.1 h with h | ⟨⟨outputs, _⟩, -, h⟩
  · exact pointsAt_of_listAt hlist rfl hline hfront h
  · contradiction

theorem recordGlobal_pointsAt (hled : line.leadingWord? = some "global".toList)
    (hline : Nested (fun _ => True) line.text)
    (h : line.recordGlobal draft = .error (.located .expectedListArgument place)) :
    line.PointsAt place := by
  unfold recordGlobal at h
  rcases bind_eq_error_iff.1 h with h | ⟨keyword, hkeyword, h⟩
  · exact absurd h (sparesLists_firstWord line place)
  rcases bind_eq_error_iff.1 h with h | ⟨sign, hsign, h⟩
  · exact absurd h (sparesLists_wordAfter (by decide) line _ place)
  split at h
  next => exact absurd h (sparesLists_error (by decide) line _ place)
  next =>
    rcases bind_eq_error_iff.1 h with h | ⟨start, hstart, h⟩
    · exact absurd h (sparesLists_openCurly line _ place)
    have hlist := HasList.resets hled hkeyword hsign hstart
    obtain ⟨gap, later, hfirst, -, hstop⟩ :=
      @exists_of_nextWord line.text [] line.text _ rfl (firstWord_eq_ok hkeyword)
    replace hsign := wordAfter_eq_ok hsign
    rw [hstop] at hsign
    obtain ⟨gap', later', htext, -, hstop'⟩ := exists_of_nextWord hfirst hsign
    rw [hstop'] at hstart
    obtain ⟨condition, behind, rfl, rfl⟩ := openCurly_eq_ok htext hstart
    rw [← List.append_assoc] at htext
    dsimp only at h
    split at h
    next => exact absurd h (sparesLists_error (by decide) line _ place)
    next =>
      rcases bind_eq_error_iff.1 h with h | ⟨⟨resets, _⟩, -, h⟩
      · exact pointsAt_of_listAt hlist rfl hline htext h
      · contradiction

end Line

/-! ### Lists of assignments -/

namespace Assignment

open Line

variable {line : Line} {assignment : Assignment} {leading : Option Form} {draft : Draft}
  {before gap head later : Text} {place : Place}

/-- A word before an equals sign is refused at the formal arguments in it, if at a list. -/
theorem ofWord_pointsAt {rest : Text} {word : Word} (hstart : line.StartsAt none (width before))
    (hline : Nested (fun _ => True) line.text) (htext : line.text = before ++ rest)
    (hword : nextWord line.text (width before) = some word) (hequals : word.delimiter = some '=')
    (h : ofWord line word = .error (.located .expectedListArgument place)) :
    line.PointsAt place := by
  unfold ofWord at h
  split at h
  next => contradiction
  next form found hfound =>
    cases form
    case function =>
      rcases bind_eq_error_iff.1 h with h | ⟨⟨formals, _⟩, -, h⟩
      · have hlist := HasList.formals hstart hword hequals hfound
        obtain ⟨name, ⟨-, -, inner, hname⟩, rfl, -⟩ := Form.marks_of_ofWord? hfound
        rw [htext] at hword
        obtain ⟨gap, later, rfl, -, -, -, -, -, -, hplace⟩ := nextWord_eq_some_iff.1 hword
        have hsplit : line.text = before ++ gap ++ name ++ '(' :: (inner ++ ')' :: later) := by
          rw [htext, hname]
          simp
        have hopen : word.start + width name = width (before ++ gap ++ name) := by
          rw [hplace, width_append _ name]
        change line.listAt (word.start + width name) _ = _ at h
        change line.HasList (word.start + width name) _ _ at hlist
        rw [hopen] at h hlist
        exact pointsAt_of_listAt hlist rfl hline hsplit h
      · contradiction
    all_goals contradiction

/-- An assignment that is not found is refused at its formal arguments, if at a list. -/
theorem locate_pointsAt {rest : Text} (hstart : line.StartsAt leading (width before))
    (hline : Nested (fun _ => True) line.text) (htext : line.text = before ++ rest)
    (h : locate line (width before) leading = .error (.located .expectedListArgument place)) :
    line.PointsAt place := by
  unfold locate at h
  split at h
  next => contradiction
  next =>
    split at h
    next => exact absurd h (sparesLists_error (by decide) line _ place)
    next word hword =>
      split at h
      next =>
        split at h
        next => contradiction
        next => exact absurd h (sparesLists_error (by decide) line _ place)
      next =>
        split at h
        next => exact absurd h (sparesLists_error (by decide) line _ place)
        next hequals =>
          split at h
          next => contradiction
          next => exact ofWord_pointsAt hstart hline htext hword (by simpa using hequals) h

/-- A list of an expression is refused before its empty element, by the number of blanks
before the list. -/
theorem pointsAt_of_exprList {front called behind tail : Text} {o : Char}
    (hlist : line.HasList (width (front ++ called)) ',' (called.countP isBlank))
    (ho : isOpening o = true) (hspaced : IsSpaced line.text)
    (htext : line.text = front ++ (called ++ o :: behind ++ tail))
    (hnested : Nested (fun _ => True) (called ++ o :: behind))
    (h : exprList line (width front) (withoutBlanks (called ++ o :: behind))
      (width (withoutBlanks called)) = .error (.located .expectedListArgument place)) :
    line.PointsAt place := by
  obtain ⟨inside, c, later, rfl, hinside, hc, -⟩ := hnested.exists_inside ho
  have hclosed := hinside.untilClosed_eq hc
  have hsplit : line.text = front ++ called ++ o :: (inside ++ c :: (later ++ tail)) := by
    rw [htext]
    simp
  rw [hsplit] at hspaced
  have hink : ∀ d ∈ inside, isBlank d = false := hspaced.not_isBlank_inside ho (hclosed _)
  -- the list holds no blanks, so only those before it move its places
  have hlost : width (withoutBlanks called) + called.countP isBlank = width called := by
    rw [List.append_assoc] at hspaced
    exact hspaced.width_withoutBlanks
  have hexpr : withoutBlanks (called ++ o :: (inside ++ c :: later)) =
      withoutBlanks called ++ o :: (inside ++ c :: withoutBlanks later) := by
    have hkept : ∀ d ∈ [o] ++ inside ++ [c], isBlank d = false := by
      simp only [List.mem_append, List.mem_singleton]
      rintro d ((rfl | hd) | rfl)
      · exact isBlank_of_bracket (.inl ho)
      · exact hink d hd
      · exact isBlank_of_bracket (.inr hc)
    have hlist : called ++ o :: (inside ++ c :: later) =
        called ++ ([o] ++ inside ++ [c] ++ later) := by simp
    rw [hlist, withoutBlanks_append, withoutBlanks_append, withoutBlanks_of_no_blank hkept]
    simp
  unfold exprList at h
  split at h
  next offset herror =>
    cases h
    rw [hexpr] at herror
    obtain ⟨before, after, rfl, rfl, hempty⟩ :=
      startsEmpty_of_splitList (by decide) ho (hclosed _) herror
    refine ⟨rfl, rfl, _, _, _, hlist, ?_⟩
    have hcolumn : width front + width (withoutBlanks called ++ o :: before) +
        called.countP isBlank = width (front ++ called ++ o :: before) := by
      simp only [width_append, width_cons]
      omega
    rw [hsplit]
    exact hcolumn ▸ hempty.emptyElement ho (hclosed _)
  next => contradiction

/-- The expression of an assignment starts right behind the character that its name ends at. -/
theorem Located.exists_sign (h : assignment.Located line leading before gap head later)
    (htext : line.text = before ++ (gap ++ (head ++ later))) :
    ∃ front sign, before ++ (gap ++ head) = front ++ [sign] ∧
      line.text = front ++ [sign] ++ later ∧ assignment.sign + 1 = width (front ++ [sign]) ∧
      assignment.exprColumn line = width (front ++ [sign]) := by
  obtain ⟨front, sign, hfront, hplace, hsign⟩ := h.place
  have hsize : sign.utf8Size = 1 := by
    rcases hsign with rfl | rfl | rfl <;> rfl
  have hbehind : assignment.sign + 1 = width (front ++ [sign]) := by simp [hplace, hsize]
  have hsplit : line.text = front ++ [sign] ++ later := by
    rw [htext, ← hfront]
    simp
  refine ⟨front, sign, hfront, hsplit, hbehind, ?_⟩
  rw [exprColumn, hbehind, Line.width, hsplit, width_append (front ++ [sign])]
  omega

/-- The name of a set ends at a space. -/
theorem Located.sign_eq_space (h : assignment.Located line leading before gap head later)
    (hform : assignment.form = .assignments) {front : Text} {sign : Char}
    (hfront : before ++ (gap ++ head) = front ++ [sign]) : sign = ' ' := by
  have hopening := h.opening (by simp [hform]) [] []
  have hname : head = assignment.name ++ [' '] := by
    rw [h.isLed (.inr hform)] at hopening
    simp [hopening, Clause.opening, hform]
  rw [hname, ← List.append_assoc, ← List.append_assoc] at hfront
  exact (List.singleton_inj.1 (List.append_inj_right' hfront rfl)).symm

/-- The list in a special definition starts at the first parenthesis of the expression. -/
theorem arguments_pointsAt {front span tail : Text} {start : Nat}
    (hlist : ∀ called behind, span = called ++ '(' :: behind → '(' ∉ called →
      line.HasList (width (front ++ called)) ',' (called.countP isBlank))
    (hspaced : IsSpaced line.text) (hsplit : line.text = front ++ (span ++ tail))
    (hnested : Nested (fun _ => True) span)
    (hfind : Text.find? (withoutBlanks span) 0 '(' = some start)
    (h : exprList line (width front) (withoutBlanks span) start =
      .error (.located .expectedListArgument place)) : line.PointsAt place := by
  obtain ⟨shown, rest, hexpr, hshown, rfl⟩ :=
    (@find?_eq_some_iff [] (withoutBlanks span) '(' start).1 hfind
  obtain ⟨called, behind, rfl, hcalled, rfl⟩ :=
    exists_of_withoutBlanks_eq (by decide) hexpr hshown
  exact pointsAt_of_exprList (hlist called behind rfl hcalled) rfl hspaced hsplit hnested h

/-- The list of a set starts with the expression. -/
theorem assignments_pointsAt {front span tail : Text}
    (hlist : line.HasList (width (front ++ [' '])) ',' 0) (hspaced : IsSpaced line.text)
    (hsplit : line.text = front ++ [' '] ++ (span ++ tail))
    (hnested : Nested (fun _ => True) span) (hhead : (withoutBlanks span).head? = some '\x7b')
    (h : exprList line (width (front ++ [' '])) (withoutBlanks span) 0 =
      .error (.located .expectedListArgument place)) : line.PointsAt place := by
  obtain ⟨rest, hexpr⟩ := List.head?_eq_some_iff.1 hhead
  obtain ⟨blanks, behind, rfl, -, hblanks⟩ :=
    @exists_of_withoutBlanks_eq span [] rest _ (by decide) hexpr List.not_mem_nil
  obtain rfl : blanks = [] := by
    have hbehind : line.text = front ++ ' ' :: (blanks ++ ('\x7b' :: behind ++ tail)) := by
      rw [hsplit]
      simp
    rw [hbehind] at hspaced
    exact hspaced.eq_nil_of_blanks rfl hblanks
  rw [← List.append_nil (front ++ [' '])] at hlist
  exact pointsAt_of_exprList hlist rfl hspaced hsplit hnested h

/-- Only the expressions of special definitions and sets have lists. -/
theorem contents_eq_error {expr : Text}
    (h : assignment.contents line expr = .error (.located .expectedListArgument place)) :
    (assignment.form = .special ∧ ∃ start, Text.find? expr 0 '(' = some start ∧
      exprList line (assignment.exprColumn line) expr start =
        .error (.located .expectedListArgument place)) ∨
    (assignment.form = .assignments ∧ expr.head? = some '\x7b' ∧
      exprList line (assignment.exprColumn line) expr 0 =
        .error (.located .expectedListArgument place)) := by
  unfold contents at h
  dsimp only at h
  split at h
  next =>
    split at h
    next => contradiction
    next => exact absurd h (sparesLists_error (by decide) line _ place)
  next =>
    rcases bind_eq_error_iff.1 h with h | ⟨_, -, h⟩
    · exact absurd h (sparesLists_checkFormals line _ _ _ place)
    · contradiction
  next hform =>
    split at h
    next => exact absurd h (sparesLists_error (by decide) line _ place)
    next start hfind =>
      rcases bind_eq_error_iff.1 h with h | ⟨_, -, h⟩
      · exact .inl ⟨hform, start, hfind, h⟩
      · contradiction
  next hform =>
    split at h
    next hhead =>
      rcases bind_eq_error_iff.1 h with h | ⟨_, -, h⟩
      · exact .inr ⟨hform, hhead, h⟩
      · contradiction
    next => exact absurd h (sparesLists_error (by decide) line _ place)
  next => contradiction

/-- An assignment that is found and makes no definition is refused at the list behind its sign,
if at a list. -/
theorem record_pointsAt (hstart : line.StartsAt leading (width before))
    (hlocate : locate line (width before) leading = .ok assignment)
    (hlocated : assignment.Located line leading before gap head later)
    (hspaced : IsSpaced line.text) (htext : line.text = before ++ (gap ++ (head ++ later)))
    (hlisted : leading = some .special ∨ leading = some .assignments →
      Nested (fun _ => True) (gap ++ (head ++ later)))
    (h : assignment.record line (withoutBlanks (spanToComma 0 later).1) draft =
      .error (.located .expectedListArgument place)) : line.PointsAt place := by
  unfold record at h
  split at h
  next => exact absurd h (sparesLists_error (by decide) line _ place)
  next =>
    rcases bind_eq_error_iff.1 h with h | ⟨⟨defined, name⟩, hname, h⟩
    · exact absurd h (sparesLists_defineName line assignment draft place)
    rcases bind_eq_error_iff.1 h with h | ⟨_, -, h⟩
    swap
    · contradiction
    have hleading : ∀ form, assignment.form = form → form = .special ∨ form = .assignments →
        leading = some form := by
      rintro _ rfl hform
      obtain ⟨form, rfl⟩ := Option.isSome_iff_exists.1 (hlocated.isLed hform)
      rw [hlocated.form_eq form rfl]
    -- the name before a list has been defined, so it opens no bracket
    have hnested : assignment.form = .special ∨ assignment.form = .assignments →
        Nested (fun _ => True) (spanToComma 0 later).1 := fun hform =>
      ((hlocated.nested ((defineName_eq_ok hname [] []).2 hform) hform
        hlisted).spanToComma_spec.1).mono fun _ _ => trivial
    obtain ⟨front, sign, hfront, hsplit, hbehind, hcolumn⟩ := hlocated.exists_sign htext
    rw [← spanToComma_append_eq 0 later] at hsplit
    rcases contents_eq_error h with ⟨hform, start, hfind, h⟩ | ⟨hform, hhead, h⟩
    · obtain rfl := hleading _ hform (.inl rfl)
      rw [hcolumn] at h
      refine arguments_pointsAt (fun called behind hcall hcalled => ?_) hspaced hsplit
        (hnested (.inl hform)) hfind h
      rw [hcall, List.append_assoc called] at hsplit
      have hfound : Text.find? line.text (assignment.sign + 1) '(' =
          some (width (front ++ [sign] ++ called)) := by
        rw [hsplit, hbehind]
        exact find?_eq_some_iff.2 ⟨called, _, rfl, hcalled, rfl⟩
      have hlist := HasList.arguments hstart hlocate hfound
      rwa [hbehind, hsplit, slice_width_append] at hlist
    · obtain rfl := hleading _ hform (.inr rfl)
      obtain rfl := hlocated.sign_eq_space hform hfront
      rw [hcolumn] at h
      have hlist := HasList.assignments hstart hlocate
      rw [hbehind] at hlist
      exact assignments_pointsAt hlist hspaced hsplit (hnested (.inr hform)) hhead h

end Assignment

namespace Line

variable {line : Line} {leading : Option Form} {draft : Draft} {place : Place}

theorem recordFrom_pointsAt {fuel : Nat} {before rest : Text}
    (hleading : ∀ form, leading = some form → form.isLeading = true ∨ form = .constant)
    (hrest : leading.isSome = true → ∃ sign later, rest = sign :: later ∧ (sign = ' ' ∨ sign = ','))
    (hline : Nested (fun _ => True) line.text) (hspaced : IsSpaced line.text)
    (hlisted : leading = some .special ∨ leading = some .assignments →
      Nested (fun _ => True) rest)
    (hstart : line.StartsAt leading (Text.width before)) (htext : line.text = before ++ rest)
    (h : line.recordFrom leading fuel (Text.width before) draft =
      .error (.located .expectedListArgument place)) : line.PointsAt place := by
  induction fuel generalizing before rest draft with
  | zero => contradiction
  | succ fuel ih =>
      unfold recordFrom at h
      rcases bind_eq_error_iff.1 h with h | ⟨assignment, hlocate, h⟩
      · exact Assignment.locate_pointsAt hstart hline htext h
      dsimp only at h
      obtain ⟨gap, head, later, rfl, hlocated⟩ :=
        Assignment.locate_eq_ok hleading hrest htext hlocate
      have hnext := hlocated.nextExpression
      rw [hnext] at h
      rcases bind_eq_error_iff.1 h with h | ⟨entered, hentered, h⟩
      · exact Assignment.record_pointsAt hstart hlocate hlocated hspaced htext hlisted h
      have hidentifier := (Assignment.record_eq_ok hentered).2
      have hsplit := spanToComma_append_eq 0 later
      have hcomma := head?_spanToComma 0 later
      have htail := hlocated.nested_tail hidentifier hlisted
      generalize (spanToComma 0 later).1 = span at *
      generalize (spanToComma 0 later).2 = tail at *
      subst hsplit
      cases tail with
      | nil =>
          rw [List.isEmpty_nil, if_pos rfl] at h
          cases h
      | cons c tail =>
          obtain rfl : c = ',' := hcomma c rfl
          have hbehind : line.text = before ++ (gap ++ (head ++ span)) ++ ',' :: tail := by
            rw [htext]
            simp
          exact ih (fun _ => ⟨',', tail, rfl, .inr rfl⟩) htail
            (.next hstart hlocate (by rw [hnext]; rfl)) hbehind h

theorem record_pointsAt (hline : Nested (fun _ => True) line.text) (hspaced : IsSpaced line.text)
    (h : line.record draft = .error (.located .expectedListArgument place)) :
    line.PointsAt place := by
  unfold record at h
  rcases bind_eq_error_iff.1 h with h | ⟨⟨leading, first⟩, hleadingForm, h⟩
  · exact absurd h (sparesLists_leadingForm line place)
  have hstart := StartsAt.first hleadingForm
  obtain ⟨front, body, hsplit, -, hplace, hplain, hleading, hbody⟩ := leadingForm_eq_ok hleadingForm
  dsimp only at h
  rw [hplace] at h hstart
  exact recordFrom_pointsAt hleading hbody hline hspaced
    (fun _ => (hsplit ▸ hline).of_append hplain) hstart hsplit h

end Line

/-! ### Lists of a model -/

namespace Draft

/-- Reading the statements of a kind fails at one of them. -/
theorem readBlocks_eq_error {keyword : Text} {reader : BlockReader} {used : Nat}
    {lines : List Line} {draft : Draft} {e : ModelError}
    (h : readBlocks keyword reader used lines draft = .error e) :
    ∃ line ∈ lines, line.leadingWord? = some keyword ∧
      ∃ following old, reader line following old = .error e := by
  induction lines generalizing used draft with
  | nil =>
      rw [readBlocks] at h
      contradiction
  | cons line later ih =>
      have hlater : ∀ {used draft}, readBlocks keyword reader used later draft = .error e →
          ∃ head ∈ line :: later, head.leadingWord? = some keyword ∧
            ∃ following old, reader head following old = .error e := by
        intro used draft h
        obtain ⟨head, hhead, hfails⟩ := ih h
        exact ⟨head, List.mem_cons_of_mem _ hhead, hfails⟩
      cases used with
      | succ used => exact hlater h
      | zero =>
          rw [readBlocks] at h
          split at h
          next hled =>
            rcases bind_eq_error_iff.1 h with h | ⟨⟨read, used⟩, -, h⟩
            · exact ⟨line, List.mem_cons_self, hled, later, draft, h⟩
            · exact hlater h
          next =>
            rcases bind_eq_error_iff.1 h with h | ⟨⟨read, kept⟩, -, h⟩
            · exact hlater h
            · contradiction

theorem recordAll_eq_error {lines : List Line} {draft : Draft} {e : ModelError}
    (h : recordAll lines draft = .error e) : ∃ line ∈ lines, ∃ old, line.record old = .error e := by
  induction lines generalizing draft with
  | nil => contradiction
  | cons line later ih =>
      rcases bind_eq_error_iff.1 h with h | ⟨read, -, h⟩
      · exact ⟨line, List.mem_cons_self, draft, h⟩
      · obtain ⟨head, hhead, hfails⟩ := ih h
        exact ⟨head, List.mem_cons_of_mem _ hhead, hfails⟩

theorem alone_eq_error {reader : Line → Draft → Except ModelError Draft} {line : Line}
    {following : List Line} {draft : Draft} {e : ModelError}
    (h : alone reader line following draft = .error e) : reader line draft = .error e := by
  rcases bind_eq_error_iff.1 h with h | ⟨_, -, h⟩
  · exact h
  · contradiction

/-- An element of a list that is refused is empty, and the error shows its line. The column is
that where the element starts, less the blanks between the equals sign of a special definition
and its list. -/
theorem ofLines_empty_element {settings : Settings} {files : FileReader} {name input : Text}
    {lines : List Line} {place : Place}
    (hvariable : isIdentifier settings.arrayVariable = true)
    (hlines : Line.prepare name settings.arrayVariable input = .ok lines)
    (h : ofLines settings files lines = .error (.located .expectedListArgument place)) :
    ∃ line ∈ lines, place.line = line.number ∧ place.text = line.text ∧
      ∃ start delimiter lost, line.HasList start delimiter lost ∧
        EmptyElement delimiter line.text start (place.column + lost) := by
  have htidy := Line.prepare_tidy hvariable hlines
  have hnested : ∀ line ∈ lines, Nested (fun _ => True) line.text := fun line hline =>
    Line.checkBrackets_eq_ok_iff.1 (htidy line hline).1
  suffices hpoints : ∃ line ∈ lines, line.PointsAt place from hpoints
  unfold ofLines at h
  rcases bind_eq_error_iff.1 h with h | ⟨⟨_, _⟩, hexports, h⟩
  · obtain ⟨line, hline, hled, _, _, h⟩ := readBlocks_eq_error h
    exact ⟨line, hline, line.recordExport_pointsAt hled (hnested line hline) (alone_eq_error h)⟩
  -- the lines that a reader leaves to the next are lines of the text
  have hkept := (readBlocks_kept hexports).1
  rcases bind_eq_error_iff.1 h with h | ⟨⟨_, _⟩, hmarkovs, h⟩
  · obtain ⟨line, -, -, following, old, h⟩ := readBlocks_eq_error h
    exact absurd h (line.sparesLists_recordMarkov following old place)
  replace hkept := (readBlocks_kept hmarkovs).1.trans hkept
  rcases bind_eq_error_iff.1 h with h | ⟨⟨_, _⟩, htables, h⟩
  · obtain ⟨line, -, -, _, old, h⟩ := readBlocks_eq_error h
    exact absurd (alone_eq_error h) (line.sparesLists_recordTable _ files old place)
  replace hkept := (readBlocks_kept htables).1.trans hkept
  rcases bind_eq_error_iff.1 h with h | ⟨⟨_, _⟩, hwieners, h⟩
  · obtain ⟨line, -, -, _, old, h⟩ := readBlocks_eq_error h
    exact absurd (alone_eq_error h) (line.sparesLists_recordWiener old place)
  replace hkept := (readBlocks_kept hwieners).1.trans hkept
  rcases bind_eq_error_iff.1 h with h | ⟨⟨_, _⟩, hglobals, h⟩
  · obtain ⟨line, hline, hled, _, _, h⟩ := readBlocks_eq_error h
    have hmem := hkept.subset hline
    exact ⟨line, hmem, line.recordGlobal_pointsAt hled (hnested line hmem) (alone_eq_error h)⟩
  replace hkept := (readBlocks_kept hglobals).1.trans hkept
  obtain ⟨line, hline, _, h⟩ := recordAll_eq_error h
  have hmem := hkept.subset hline
  exact ⟨line, hmem, line.record_pointsAt (hnested line hmem) (htidy line hmem).2.2.2 h⟩

/-- Between two resets one is missing. -/
theorem ofLines_empty_element_resets :
    isIdentifier ({ } : Settings).arrayVariable = true ∧
      Line.prepare [] ({ } : Settings).arrayVariable
        "x'=1\nglobal 1 x - 1 \x7b x = 0 ; ; x=1\x7d\ndone".toList =
          .ok [⟨1, "x'=1".toList⟩, ⟨2, "global 1 x - 1 \x7bx=0;;x=1\x7d".toList⟩] ∧
      ofLines { } (fun _ => .error .notFound)
        [⟨1, "x'=1".toList⟩, ⟨2, "global 1 x - 1 \x7bx=0;;x=1\x7d".toList⟩] =
          .error (.located .expectedListArgument
            ⟨2, "global 1 x - 1 \x7bx=0;;x=1\x7d".toList, 20⟩) ∧
      ∃ line ∈ [(⟨1, "x'=1".toList⟩ : Line), ⟨2, "global 1 x - 1 \x7bx=0;;x=1\x7d".toList⟩],
        2 = line.number ∧ "global 1 x - 1 \x7bx=0;;x=1\x7d".toList = line.text ∧
          ∃ start delimiter lost, line.HasList start delimiter lost ∧
            EmptyElement delimiter line.text start (20 + lost) := by
  have hvariable : isIdentifier ({ } : Settings).arrayVariable = true := by decide
  have hlines : Line.prepare [] ({ } : Settings).arrayVariable
      "x'=1\nglobal 1 x - 1 \x7b x = 0 ; ; x=1\x7d\ndone".toList =
        .ok [⟨1, "x'=1".toList⟩, ⟨2, "global 1 x - 1 \x7bx=0;;x=1\x7d".toList⟩] := by
    decide +kernel
  have herror : ofLines { } (fun _ => .error .notFound)
      [⟨1, "x'=1".toList⟩, ⟨2, "global 1 x - 1 \x7bx=0;;x=1\x7d".toList⟩] =
        .error (.located .expectedListArgument
          ⟨2, "global 1 x - 1 \x7bx=0;;x=1\x7d".toList, 20⟩) := by
    rfl
  exact ⟨hvariable, hlines, herror, ofLines_empty_element hvariable hlines herror⟩

/-- The column told for a special definition with a blank before its list stands behind a
letter, so in no list of the line an element starts there. -/
theorem ofLines_misses_element :
    Line.prepare [] ({ } : Settings).arrayVariable "special s=a b(x,,y)\ndone".toList =
        .ok [⟨1, "special s=a b(x,,y)".toList⟩] ∧
      ofLines { } (fun _ => .error .notFound) [⟨1, "special s=a b(x,,y)".toList⟩] =
        .error (.located .expectedListArgument ⟨1, "special s=a b(x,,y)".toList, 15⟩) ∧
      ∀ start delimiter, delimiter = ',' ∨ delimiter = ';' →
        ¬ EmptyElement delimiter "special s=a b(x,,y)".toList start 15 := by
  refine ⟨by decide +kernel, by rfl, ?_⟩
  intro start delimiter hdelimiter hempty
  obtain ⟨c, hlast, hc⟩ := hempty.getLast?_takeBytes
  obtain rfl : 'x' = c := Option.some_inj.1 hlast
  rcases hc with hopening | rfl
  · exact absurd hopening (by decide)
  · exact absurd hdelimiter (by decide)

end Draft

end OdeModel
