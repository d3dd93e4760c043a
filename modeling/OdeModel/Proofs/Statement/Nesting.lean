import OdeModel.Proofs.Line.Brackets
import OdeModel.Proofs.Statement.Lossless
import OdeModel.Proofs.Statement.Origins

/-!
# Brackets of recorded texts

The brackets of prepared lines are nested. Lists are cut out of a line from a bracket to the
one that closes it and at separators outside of brackets, so their elements are balanced.
Words end at the first space or equals sign, and calls and conditions are looked for by
their first bracket, wherever that stands: an expression is balanced when no such cut falls
inside of brackets.
-/

namespace OdeModel

open Text

/-! ### Cuts -/

/-- The places where an assignment is cut without a look at the brackets: the character
behind which its expression starts, and in a call the first parenthesis. -/
def Assignment.cuts (line : Line) (assignment : Assignment) : List Nat :=
  assignment.sign ::
    if assignment.form = .special then (Text.find? line.text assignment.sign '(').toList else []

namespace Line

/-- The places where the assignments from a column on are cut so. -/
def cutsFrom (line : Line) (leading : Option Form) : (fuel column : Nat) → List Nat
  | 0, _ => []
  | fuel + 1, column =>
      match Assignment.locate line column leading with
      | .error _ => []
      | .ok assignment =>
          assignment.cuts line ++
            match (Text.nextExpression line.text assignment.sign).2 with
            | some next => line.cutsFrom leading fuel next
            | none => []

/-- The place where the name of the file of a table ends. -/
def sourceEnd? (line : Line) : Option Nat := do
  let keyword ← Text.nextWord line.text 0
  let name ← Text.nextWord line.text keyword.stop
  let source ← Text.nextWord line.text name.stop
  return source.stop

/-- The place where the condition of a global flag ends. -/
def conditionEnd? (line : Line) : Option Nat := do
  let keyword ← Text.nextWord line.text 0
  let sign ← Text.nextWord line.text keyword.stop
  Text.find? line.text sign.stop '\x7b'

/-- The places where the statement that starts with the line is cut without a look at the
brackets. -/
def cuts (line : Line) : List Nat :=
  if line.isLedBy "table".toList then line.sourceEnd?.toList
  else if line.isLedBy "global".toList then line.conditionEnd?.toList
  else if Vocabulary.blocks.any fun keyword => line.isLedBy keyword then []
  else
    match line.leadingForm with
    | .error _ => []
    | .ok (leading, first) =>
        line.cutsFrom leading (line.text.length + 1) (if leading.isSome then first.stop else 0)

/-- No bracket is open at the place. -/
def IsOutside (line : Line) (place : Nat) : Prop :=
  imbalance? [] 0 (takeBytes place line.text) = none

/-- The statement is cut outside of brackets only. -/
def CutsOutside (line : Line) : Prop := ∀ place ∈ line.cuts, line.IsOutside place

instance (line : Line) (place : Nat) : Decidable (line.IsOutside place) :=
  inferInstanceAs (Decidable (_ = _))

instance (line : Line) : Decidable line.CutsOutside :=
  inferInstanceAs (Decidable (∀ place ∈ line.cuts, line.IsOutside place))

end Line

/-- The definition is read from the line. Its arguments are balanced, and so is its
expression if the line is cut outside of brackets only. -/
structure Definition.IsCutFrom (definition : Definition) (line : Line) : Prop where
  numbered : definition.line = line.number
  arguments : ∀ arg ∈ definition.args, Nested (fun _ => True) arg
  expression : line.CutsOutside → Nested (fun _ => True) definition.expr

theorem Line.IsOutside.nested {line : Line} {before : Text}
    (h : line.IsOutside (Text.width before)) (rest : Text) (htext : line.text = before ++ rest) :
    Nested (fun _ => True) before := by
  rw [IsOutside, htext, takeBytes_width_append] at h
  exact imbalance?_eq_none_iff.1 h

/-! ### Texts without brackets -/

namespace Text

theorem nested_of_brackets_eq_nil {s : Text} (h : brackets s = []) : Nested (fun _ => True) s :=
  Nested.nil.congr h.symm

theorem Nested.trim {s : Text} (h : Nested (fun _ => True) s) : Nested (fun _ => True) (trim s) :=
  h.congr (brackets_trim s).symm

theorem brackets_of_isGap {gap : Text} (h : IsGap gap) : brackets gap = [] :=
  brackets_eq_nil fun _ hc => h.not_bracket hc

theorem brackets_of_isIdentifier {s : Text} (h : isIdentifier s = true) : brackets s = [] :=
  brackets_of_isNameText (isNameText_of_isIdentifier h).2.2

theorem brackets_positionalText (digits : Nat) (place : Int) :
    brackets (positionalText digits place) = [] := by
  have hplain : ∀ c, c = '0' ∨ c ∈ natText digits → isOpening c = false ∧ isClosing c = false := by
    rintro c (rfl | hc)
    · decide
    · exact not_bracket (Or.inl (by simp [Nat.isDigit_of_mem_toDigits (by decide) (by decide) hc]))
  refine brackets_eq_nil fun c hc => ?_
  unfold positionalText at hc
  dsimp only at hc
  split at hc
  next =>
    rcases List.mem_append.1 hc with hc | hc
    · exact hplain c (Or.inr hc)
    · exact hplain c (Or.inl (List.eq_of_mem_replicate hc))
  next =>
    have hpadded : ∀ {n}, c ∈ List.replicate n '0' ++ natText digits →
        isOpening c = false ∧ isClosing c = false := by
      intro n hc
      rcases List.mem_append.1 hc with hc | hc
      · exact hplain c (Or.inl (List.eq_of_mem_replicate hc))
      · exact hplain c (Or.inr hc)
    rcases List.mem_append.1 hc with hc | hc
    · exact hpadded (List.mem_of_mem_take hc)
    · rcases List.mem_cons.1 hc with rfl | hc
      · decide
      · exact hpadded (List.mem_of_mem_drop hc)

/-- A double is written without brackets. -/
theorem brackets_floatText (x : Float) : brackets (floatText x) = [] := by
  have hsize : ∀ (negative : Bool) (size : Text), brackets size = [] →
      brackets (if negative then '-' :: size else size) = [] := by
    intro negative size hsize
    cases negative with
    | false => exact hsize
    | true => exact (brackets_append ['-'] size).trans hsize
  unfold floatText
  split
  next => decide
  next =>
    refine hsize _ _ ?_
    split
    next => decide
    next =>
      split
      next => decide
      next => exact brackets_positionalText _ _

/-- A number is written without brackets. -/
theorem brackets_of_readInt? {s : Text} {n : Int} (h : readInt? s = some n) : brackets s = [] := by
  unfold readInt? at h
  obtain ⟨digits, hdigits, -⟩ := Option.bind_eq_some_iff.1 h
  unfold readDigits? at hdigits
  split at hdigits
  next hall =>
    rw [Bool.and_eq_true, List.all_eq_true] at hall
    rw [← spanSign_append s, brackets_append, brackets_eq_nil (s := (spanSign s).2) fun c hc =>
      not_bracket (Or.inl (by rw [hall.2 c hc, Bool.true_or])), List.append_nil]
    refine brackets_eq_nil fun c hc => ?_
    unfold spanSign at hc
    split at hc
    next => contradiction
    next d rest =>
      split at hc
      next hsign =>
        rw [List.mem_singleton] at hc
        subst hc
        simp only [Bool.or_eq_true, beq_iff_eq] at hsign
        rcases hsign with rfl | rfl <;> decide
      next => contradiction
  next => contradiction

/-- Up to the end of the next word no brackets come but its own. -/
theorem exists_of_nextWord {s before rest : Text} {word : Word} (hs : s = before ++ rest)
    (h : nextWord s (width before) = some word) :
    ∃ gap later, s = before ++ (gap ++ word.text) ++ later ∧ brackets gap = [] ∧
      word.stop = width (before ++ (gap ++ word.text)) := by
  subst hs
  obtain ⟨gap, later, rfl, hgap, -, -, -, -, -, hstart⟩ := nextWord_eq_some_iff.1 h
  refine ⟨gap, later, by simp, brackets_of_isGap hgap, ?_⟩
  rw [Word.stop, hstart]
  simp [Nat.add_assoc]

end Text

/-! ### Lists and rows -/

namespace Text

/-- What a bracket of a nested text holds is nested, and it closes where its kind says. -/
theorem Nested.of_untilClosed {before rest inside later : Text} {o : Char}
    (ho : isOpening o = true) (hs : Nested (fun _ => True) (before ++ o :: rest))
    (h : untilClosed 1 rest = some (inside, later)) :
    Nested (fun _ => True) inside ∧ ∃ c, rest = inside ++ c :: later := by
  obtain ⟨nested, c, behind, rfl, hnested, hc, -⟩ := hs.exists_inside ho
  rw [hnested.untilClosed_eq hc] at h
  cases h
  exact ⟨hnested, c, rfl⟩

theorem nested_of_isRow {s : Text} {entries : List Text} (h : IsRow s entries) (before : Text)
    (hs : Nested (fun _ => True) (before ++ s)) :
    ∀ entry ∈ entries, Nested (fun _ => True) entry := by
  induction h generalizing before with
  | nil => exact List.forall_mem_nil _
  | @cons gap rest inside later entries _ hclosed _ ih =>
      rw [← List.append_assoc] at hs
      obtain ⟨hinside, c, rfl⟩ := hs.of_untilClosed rfl hclosed
      refine List.forall_mem_cons.2 ⟨hinside.withoutBlanks, ?_⟩
      exact ih (before ++ gap ++ '\x7b' :: (inside ++ [c])) (by simpa using hs)

end Text

namespace Line

variable {line : Line} {draft recorded : Draft}

theorem openCurly_eq_ok {before rest : Text} {start : Nat} (htext : line.text = before ++ rest)
    (h : line.openCurly (Text.width before) = .ok start) :
    ∃ gap after, rest = gap ++ '\x7b' :: after ∧ start = Text.width (before ++ gap) := by
  unfold openCurly at h
  rw [htext] at h
  split at h
  next found hfound =>
    cases h
    obtain ⟨gap, after, rfl, -, rfl⟩ := find?_eq_some_iff.1 hfound
    exact ⟨gap, after, rfl, rfl⟩
  next => contradiction

/-- The elements of a list of the line are nested, and the list ends in the line. -/
theorem listAt_nested {before rest : Text} {o : Char} (ho : isOpening o = true)
    (hline : Nested (fun _ => True) line.text) (htext : line.text = before ++ o :: rest)
    {isCut : Char → Bool} {items : List (Nat × Text)} {close : Nat}
    (h : line.listAt (Text.width before) isCut = .ok (items, close)) :
    (∀ item ∈ items.map Prod.snd, Nested (fun _ => True) item) ∧
      ∃ front later, line.text = front ++ later ∧ close + 1 = Text.width front := by
  unfold listAt at h
  split at h
  next => contradiction
  next found place hfound =>
    cases h
    rw [htext] at hline hfound
    obtain ⟨inside, c, later, rfl, hinside, hc, -, rfl, hitems⟩ :=
      hline.splitList_spec ho hfound
    constructor
    · rw [List.map_map]
      have hmap : found.map (Prod.snd ∘ fun item => (item.1, withoutBlanks item.2)) =
          (found.map Prod.snd).map withoutBlanks := by
        rw [List.map_map]
        rfl
      rw [hmap, hitems, List.map_map, List.forall_mem_map]
      exact fun piece hpiece => (hinside.of_mem_topFields piece hpiece).trim.withoutBlanks
    · refine ⟨before ++ o :: (inside ++ [c]), later, by simp [htext], ?_⟩
      simp [(isClosing_spec hc).1, Nat.add_assoc]

/-- All texts of an exported list are balanced. -/
theorem recordExport_nested (hline : Nested (fun _ => True) line.text)
    (h : line.recordExport draft = .ok recorded) :
    draft.AddsOnly (fun _ definition => definition.IsCutFrom line) recorded := by
  unfold recordExport at h
  obtain ⟨inputsStart, hinputsStart, h⟩ := bind_eq_ok_iff.1 h
  obtain ⟨⟨inputs, close⟩, hinputs, h⟩ := bind_eq_ok_iff.1 h
  obtain ⟨outputsStart, houtputsStart, h⟩ := bind_eq_ok_iff.1 h
  obtain ⟨⟨outputs, _⟩, houtputs, h⟩ := bind_eq_ok_iff.1 h
  cases h
  obtain ⟨gap, after, hafter, rfl⟩ :=
    @openCurly_eq_ok line [] line.text inputsStart rfl hinputsStart
  obtain ⟨hfirst, front, later, hfront, hclose⟩ := listAt_nested rfl hline hafter hinputs
  rw [hclose] at houtputsStart
  obtain ⟨gap', after', rfl, rfl⟩ := openCurly_eq_ok hfront houtputsStart
  rw [← List.append_assoc] at hfront
  obtain ⟨hsecond, -⟩ := listAt_nested rfl hline hfront houtputs
  refine Draft.AddsOnly.push rfl ⟨rfl, ?_, fun _ =>
    nested_of_brackets_eq_nil (brackets_natText _)⟩
  rw [List.map_append]
  exact List.forall_mem_append.2 ⟨hfirst, hsecond⟩

theorem recordMarkov_nested {following : List Line} {used : Nat}
    (hrows : ∀ row ∈ following.take used, Nested (fun _ => True) row.text)
    (h : line.recordMarkov following draft = .ok (recorded, used)) :
    draft.AddsOnly (fun _ definition => definition.IsCutFrom line) recorded := by
  obtain ⟨-, definition, hnumber, ⟨-, hexpr, grid, hargs, hgrid⟩, hsymbols⟩ :=
    recordMarkov_spec h
  refine Draft.AddsOnly.push hsymbols ⟨hnumber, fun arg harg => ?_, fun _ => ?_⟩
  · rw [hargs] at harg
    obtain ⟨entries, hentries, harg⟩ := List.mem_flatten.1 harg
    obtain ⟨row, hrow, -, -, hisRow⟩ := exists_of_forall₂_mem hgrid hentries
    exact nested_of_isRow hisRow [] (hrows row hrow) arg harg
  · rw [hexpr]
    exact nested_of_brackets_eq_nil (brackets_natText _)

end Line

/-! ### Tables and global flags -/

/-- The samples of a table are written without brackets. One of them at least is the value
of the expression, which is nested then. -/
theorem LookupTable.sample_nested {expr : Text} {low step : Float} {count index : Nat}
    {values : List Text} (h : sample expr low step count index = .ok values) :
    (∀ value ∈ values, Nested (fun _ => True) value) ∧
      (0 < count → Nested (fun _ => True) expr) := by
  induction count generalizing index values with
  | zero =>
      cases h
      simp
  | succ count ih =>
      unfold sample at h
      obtain ⟨value, hvalue, h⟩ := bind_eq_ok_iff.1 h
      obtain ⟨later, hlater, h⟩ := bind_eq_ok_iff.1 h
      cases h
      refine ⟨List.forall_mem_cons.2 ⟨?_, (ih hlater).1⟩, fun _ => nested_of_evalText hvalue⟩
      exact nested_of_brackets_eq_nil (brackets_floatText _)

namespace Line

variable {line : Line} {draft recorded : Draft}

theorem firstWord_eq_ok {word : Word} (h : line.firstWord = .ok word) :
    Text.nextWord line.text 0 = some word := by
  unfold firstWord at h
  split at h
  next hword =>
    cases h
    exact hword
  next => contradiction

theorem wordAfter_eq_ok {column : Nat} {fault : Fault} {word : Word}
    (h : line.wordAfter column fault = .ok word) :
    Text.nextWord line.text column = some word := by
  unfold wordAfter at h
  split at h
  next hword =>
    cases h
    exact hword
  next => contradiction

theorem text_of_isLedBy {keyword : Text} {word : Word} (hled : line.isLedBy keyword = true)
    (hword : Text.nextWord line.text 0 = some word) : word.text = keyword := by
  simp only [isLedBy, leadingWord?, hword] at hled
  split at hled
  next => simpa using hled
  next => contradiction

theorem tableByExpression_nested {percent : Word} {expr : Text} {values : List Text}
    (h : line.tableByExpression percent = .ok (expr, values)) :
    (∀ value ∈ values, Nested (fun _ => True) value) ∧ Nested (fun _ => True) expr := by
  unfold tableByExpression at h
  obtain ⟨countWord, -, h⟩ := bind_eq_ok_iff.1 h
  obtain ⟨lowWord, -, h⟩ := bind_eq_ok_iff.1 h
  obtain ⟨highWord, -, h⟩ := bind_eq_ok_iff.1 h
  obtain ⟨count, hcount, h⟩ := bind_eq_ok_iff.1 h
  obtain ⟨low, -, h⟩ := bind_eq_ok_iff.1 h
  obtain ⟨high, -, h⟩ := bind_eq_ok_iff.1 h
  have hpos : 0 < count := by
    unfold countAt at hcount
    split at hcount
    next hread =>
      cases hcount
      simpa using (Option.filter_eq_some_iff.1 hread).2
    next => contradiction
  dsimp only at h
  split at h
  next => contradiction
  next =>
    split at h
    next hvalues =>
      cases h
      obtain ⟨hall, hexpr⟩ := LookupTable.sample_nested hvalues
      exact ⟨hall, hexpr hpos⟩
    next => contradiction

theorem tableByFile_nested {directory name expr : Text} {files : FileReader} {values : List Text}
    (h : line.tableByFile directory files name = .ok (expr, values)) :
    (∀ value ∈ values, Nested (fun _ => True) value) ∧ expr = name := by
  unfold tableByFile at h
  dsimp only at h
  split at h
  next => contradiction
  next contents _ =>
    obtain ⟨found, hfound, h⟩ := bind_eq_ok_iff.1 h
    cases h
    refine ⟨fun value hvalue => ?_, rfl⟩
    unfold LookupTable.ofContents at hfound
    split at hfound
    next => contradiction
    next =>
      split at hfound
      next => contradiction
      next =>
        obtain ⟨⟨bounds, later⟩, -, hfound⟩ := bind_eq_ok_iff.1 hfound
        obtain ⟨⟨numbers, rest⟩, -, hfound⟩ := bind_eq_ok_iff.1 hfound
        cases hfound
        obtain ⟨number, -, rfl⟩ := List.mem_map.1 hvalue
        exact nested_of_brackets_eq_nil (brackets_floatText _)

/-- The values of a table are balanced. So is its expression, which has values, and the name
of its file if the word does not end inside of brackets. -/
theorem recordTable_nested (hled : line.isLedBy "table".toList = true) {directory : Text}
    {files : FileReader} (h : line.recordTable directory files draft = .ok recorded) :
    draft.AddsOnly (fun _ definition => definition.IsCutFrom line) recorded := by
  unfold recordTable at h
  obtain ⟨keyword, hkeyword, h⟩ := bind_eq_ok_iff.1 h
  obtain ⟨name, hname, h⟩ := bind_eq_ok_iff.1 h
  obtain ⟨source, hsource, h⟩ := bind_eq_ok_iff.1 h
  obtain ⟨defined, hdefine, h⟩ := bind_eq_ok_iff.1 h
  have hsymbols := Draft.define_symbols hdefine
  have hfile : line.CutsOutside → Nested (fun _ => True) source.text := by
    intro hcuts
    replace hkeyword := firstWord_eq_ok hkeyword
    replace hname := wordAfter_eq_ok hname
    replace hsource := wordAfter_eq_ok hsource
    have hplace : source.stop ∈ line.cuts := by
      rw [cuts, if_pos hled]
      simp [sourceEnd?, hkeyword, hname, hsource]
    have hfirst := text_of_isLedBy hled hkeyword
    obtain ⟨scope, hscope, -⟩ := Draft.define_eq_ok_iff.1 hdefine
    have hidentifier := (Scope.objection?_eq_none_iff.1 (Scope.define_eq_ok_iff.1 hscope).1).1
    obtain ⟨gap, later, htext, hgap, hstop⟩ :=
      @exists_of_nextWord line.text [] line.text _ rfl hkeyword
    rw [hstop] at hname
    obtain ⟨gap', later', htext', hgap', hstop'⟩ := exists_of_nextWord htext hname
    rw [hstop'] at hsource
    obtain ⟨gap'', later'', htext'', hgap'', hstop''⟩ := exists_of_nextWord htext' hsource
    have hfront := hcuts _ hplace
    rw [hstop''] at hfront
    have hnested := hfront.nested later'' htext''
    rw [← List.append_assoc] at hnested
    refine hnested.right (nested_of_brackets_eq_nil ?_)
    simp only [brackets_append, hgap, hgap', hgap'', hfirst, brackets_of_isIdentifier hidentifier]
    decide
  dsimp only at h
  split at h
  next =>
    obtain ⟨⟨expr, values⟩, hvalues, h⟩ := bind_eq_ok_iff.1 h
    cases h
    obtain ⟨hall, hexpr⟩ := tableByExpression_nested hvalues
    exact Draft.AddsOnly.push (by rw [Draft.push, hsymbols]) ⟨rfl, hall, fun _ => hexpr⟩
  next =>
    obtain ⟨⟨expr, values⟩, hvalues, h⟩ := bind_eq_ok_iff.1 h
    cases h
    obtain ⟨hall, rfl⟩ := tableByFile_nested hvalues
    exact Draft.AddsOnly.push (by rw [Draft.push, hsymbols]) ⟨rfl, hall, hfile⟩

/-- The resets of a global flag are balanced, and so is its condition if the bracket behind
it does not stand inside of others. -/
theorem recordGlobal_nested (hline : Nested (fun _ => True) line.text)
    (hled : line.isLedBy "global".toList = true) (h : line.recordGlobal draft = .ok recorded) :
    draft.AddsOnly (fun _ definition => definition.IsCutFrom line) recorded := by
  unfold recordGlobal at h
  obtain ⟨keyword, hkeyword, h⟩ := bind_eq_ok_iff.1 h
  obtain ⟨sign, hsign, h⟩ := bind_eq_ok_iff.1 h
  replace hkeyword := firstWord_eq_ok hkeyword
  replace hsign := wordAfter_eq_ok hsign
  split at h
  next => contradiction
  next direction hdirection =>
    obtain ⟨start, hstart, h⟩ := bind_eq_ok_iff.1 h
    have hcut : line.CutsOutside → line.IsOutside start := by
      intro hcuts
      refine hcuts start ?_
      have hother : line.isLedBy "table".toList = false := by
        have hword : line.leadingWord? = some "global".toList := by simpa [isLedBy] using hled
        rw [isLedBy, hword]
        decide
      have hfound : Text.find? line.text sign.stop '\x7b' = some start := by
        unfold openCurly at hstart
        split at hstart
        next hfound =>
          cases hstart
          exact hfound
        next => contradiction
      rw [cuts, hother, if_neg (by decide), if_pos hled]
      simp [conditionEnd?, hkeyword, hsign, hfound]
    have hfirst := text_of_isLedBy hled hkeyword
    obtain ⟨gap, later, hkeywordText, hgap, hstop⟩ :=
      @exists_of_nextWord line.text [] line.text _ rfl hkeyword
    rw [hstop] at hsign
    obtain ⟨gap', later', htext, hgap', hstop'⟩ := exists_of_nextWord hkeywordText hsign
    rw [hstop'] at hstart h
    obtain ⟨condition, behind, rfl, rfl⟩ := openCurly_eq_ok htext hstart
    rw [htext, slice_width_append] at h
    dsimp only at h
    split at h
    next => contradiction
    next =>
      obtain ⟨⟨resets, close⟩, hresets, h⟩ := bind_eq_ok_iff.1 h
      cases h
      rw [← List.append_assoc] at htext
      obtain ⟨hall, -⟩ := listAt_nested rfl hline htext hresets
      refine Draft.AddsOnly.push rfl ⟨rfl, hall, fun hcuts => ?_⟩
      refine (((hcut hcuts).nested _ htext).right (nested_of_brackets_eq_nil ?_)).withoutBlanks
      have hdigits := brackets_of_readInt? (Option.filter_eq_some_iff.1 hdirection).1
      simp only [brackets_append, hgap, hgap', hfirst, hdigits]
      decide

end Line

/-! ### Assignments -/

/-- The first character of a kind is the same one with and without blanks. -/
theorem Text.exists_of_withoutBlanks_eq {s front rest : Text} {c : Char} (hc : isBlank c = false)
    (h : withoutBlanks s = front ++ c :: rest) (hfront : c ∉ front) :
    ∃ before after, s = before ++ c :: after ∧ c ∉ before ∧ withoutBlanks before = front := by
  obtain ⟨first, second, rfl, hfirst, hsecond⟩ := List.filter_eq_append_iff.1 h
  obtain ⟨blanks, after, rfl, hblanks, -, -⟩ := List.filter_eq_cons_iff.1 hsecond
  refine ⟨first ++ blanks, after, by simp, fun hmem => ?_, ?_⟩
  · rcases List.mem_append.1 hmem with hmem | hmem
    · exact hfront (hfirst ▸ List.mem_filter.2 ⟨hmem, by simp [hc]⟩)
    · exact hblanks c hmem (by simp [hc])
  · rw [withoutBlanks_append, ← hfirst]
    have hnone : withoutBlanks blanks = [] := List.filter_eq_nil_iff.2 hblanks
    rw [hnone, List.append_nil]
    rfl

namespace Assignment

variable {line : Line} {assignment : Assignment}

theorem exprList_nested {before rest expr : Text} {column : Nat} {o : Char} {args : List Text}
    (ho : isOpening o = true) (hsplit : expr = before ++ o :: rest)
    (hexpr : Nested (fun _ => True) expr)
    (h : exprList line column expr (width before) = .ok args) :
    ∀ arg ∈ args, Nested (fun _ => True) arg := by
  subst hsplit
  unfold exprList at h
  split at h
  next => contradiction
  next items close hitems =>
    cases h
    obtain ⟨inside, -, -, -, hinside, -, -, -, hargs⟩ := hexpr.splitList_spec ho hitems
    rw [hargs, List.forall_mem_map]
    exact fun piece hpiece => (hinside.of_mem_topFields piece hpiece).trim

/-- Out of a nested expression come balanced arguments, and a balanced expression if no
bracket is open before the first parenthesis of a call. Formal arguments are names. -/
theorem contents_nested {cond : Prop} {expr kept : Text} {args : List Text}
    (h : assignment.contents line expr = .ok (kept, args))
    (hexpr : cond ∨ assignment.form = .special ∨ assignment.form = .assignments →
      Nested (fun _ => True) expr)
    (hcall : cond → assignment.form = .special → ∀ front rest, expr = front ++ '(' :: rest →
      '(' ∉ front → Nested (fun _ => True) front) :
    (∀ arg ∈ args, Nested (fun _ => True) arg) ∧ (cond → Nested (fun _ => True) kept) := by
  have hformals := fun hcategory => contents_formals h hcategory
  unfold contents at h
  dsimp only at h
  split at h
  next =>
    split at h
    next =>
      cases h
      exact ⟨List.forall_mem_nil _, fun hcond => hexpr (Or.inl hcond)⟩
    next => contradiction
  next hform =>
    obtain ⟨⟨⟩, -, h⟩ := bind_eq_ok_iff.1 h
    cases h
    refine ⟨fun arg harg => ?_, fun hcond => hexpr (Or.inl hcond)⟩
    exact nested_of_brackets_eq_nil
      (brackets_of_isNameText (hformals (by rw [hform]; rfl) arg harg).2)
  next hform =>
    split at h
    next => contradiction
    next start hstart =>
      obtain ⟨items, hitems, h⟩ := bind_eq_ok_iff.1 h
      cases h
      obtain ⟨front, rest, hsplit, hfront, hplace⟩ :=
        (@find?_eq_some_iff [] expr '(' start).1 hstart
      rw [List.nil_append] at hplace
      subst hplace
      refine ⟨exprList_nested rfl hsplit (hexpr (Or.inr (Or.inl hform))) hitems, fun hcond => ?_⟩
      have hkept : takeBytes (width front) expr = front := by
        rw [hsplit, takeBytes_width_append]
      rw [hkept]
      exact hcall hcond hform front rest hsplit hfront
  next hform =>
    split at h
    next hhead =>
      obtain ⟨items, hitems, h⟩ := bind_eq_ok_iff.1 h
      cases h
      obtain ⟨rest, hsplit⟩ := List.head?_eq_some_iff.1 hhead
      refine ⟨?_, fun _ => .nil⟩
      have hnested := hexpr (Or.inr (Or.inr hform))
      exact @exprList_nested line [] rest expr _ _ _ rfl hsplit hnested hitems
    next => contradiction
  next =>
    cases h
    exact ⟨List.forall_mem_nil _, fun hcond => hexpr (Or.inl hcond)⟩

end Assignment

namespace Line

variable {line : Line} {leading : Option Form} {draft recorded : Draft}

/-- The texts of the assignments of a line are balanced as far as its cuts allow. -/
theorem recordFrom_nested {fuel : Nat} {before rest : Text}
    (hleading : ∀ form, leading = some form → form.isLeading = true ∨ form = .constant)
    (hrest : leading.isSome = true → ∃ sign later, rest = sign :: later ∧ (sign = ' ' ∨ sign = ','))
    (hline : Nested (fun _ => True) line.text)
    (hlisted : leading = some .special ∨ leading = some .assignments →
      Nested (fun _ => True) rest)
    (hcuts : line.CutsOutside →
      ∀ place ∈ line.cutsFrom leading fuel (Text.width before), line.IsOutside place)
    (htext : line.text = before ++ rest)
    (h : line.recordFrom leading fuel (Text.width before) draft = .ok recorded) :
    draft.AddsOnly (fun _ definition => definition.IsCutFrom line) recorded := by
  induction fuel generalizing before rest draft with
  | zero =>
      cases h
      exact Draft.AddsOnly.of_symbols_eq rfl
  | succ fuel ih =>
      unfold recordFrom at h
      obtain ⟨assignment, hlocate, h⟩ := bind_eq_ok_iff.1 h
      dsimp only at h
      obtain ⟨entered, hentered, h⟩ := bind_eq_ok_iff.1 h
      obtain ⟨gap, head, later, rfl, hlocated⟩ :=
        Assignment.locate_eq_ok hleading hrest htext hlocate
      simp only [cutsFrom, hlocate, hlocated.nextExpression] at hcuts
      rw [hlocated.nextExpression] at hentered h
      obtain ⟨hexpr, hidentifier⟩ := Assignment.record_eq_ok hentered
      obtain ⟨front, sign, hfront, hplace, hsign⟩ := hlocated.place
      have hsplit : line.text = front ++ [sign] ++ later := by
        rw [htext, ← hfront]
        simp
      have hbracket : isOpening sign = false ∧ isClosing sign = false ∧ '(' ≠ sign := by
        rcases hsign with rfl | rfl | rfl <;> decide
      have hopened : line.CutsOutside → Nested (fun _ => True) (front ++ [sign]) := by
        intro houtside
        have hcut := hcuts houtside assignment.sign (by simp [Assignment.cuts])
        rw [hplace] at hcut
        refine (hcut.nested (sign :: later) (by simp [hsplit])).append ?_
        exact .cons hbracket.1 hbracket.2.1 trivial .nil
      have hlater : line.CutsOutside ∨ assignment.form = .special ∨
          assignment.form = .assignments → Nested (fun _ => True) later := by
        rintro (houtside | hform)
        · exact (hsplit ▸ hline).right (hopened houtside)
        · exact hlocated.nested (hidentifier hform) hform hlisted
      obtain ⟨span, tail, hspan⟩ : ∃ span tail, spanToComma 0 later = (span, tail) := ⟨_, _, rfl⟩
      have hlist := spanToComma_append_eq 0 later
      have hcomma := head?_spanToComma 0 later
      have hcut := fun hany => (hlater hany).spanToComma_spec.1
      have htail := hlocated.nested_tail hidentifier hlisted
      rw [hspan] at hcuts hentered h hlist hcomma hcut htail
      subst hlist
      have hcontents : ∀ name expr args,
          assignment.contents line (withoutBlanks span) = .ok (expr, args) →
            Definition.IsCutFrom ⟨line.number, name, expr, args⟩ line := by
        intro name expr args hcontents
        have hspan := fun hany => ((hcut hany).mono fun _ _ => trivial).withoutBlanks
        obtain ⟨hargs, hkept⟩ := Assignment.contents_nested hcontents hspan
          fun houtside hform callee arguments hcall hcallee => by
            -- the first parenthesis behind the sign is that of the call
            obtain ⟨called, behind, rfl, hcalled, rfl⟩ :=
              exists_of_withoutBlanks_eq (by decide) hcall hcallee
            have hfound : Text.find? line.text assignment.sign '(' =
                some (Text.width (front ++ sign :: called)) := by
              rw [hsplit, hplace, List.append_assoc]
              refine find?_eq_some_iff.2 ⟨sign :: called, behind ++ tail, by simp, ?_, rfl⟩
              simp [hbracket.2.2, hcalled]
            have hcallee := hcuts houtside (Text.width (front ++ sign :: called))
              (by simp [Assignment.cuts, hform, hfound])
            have hname := hcallee.nested ('(' :: (behind ++ tail)) (by simp [hsplit])
            rw [← List.singleton_append, ← List.append_assoc] at hname
            exact (hname.right (hopened houtside)).withoutBlanks
        exact ⟨rfl, hargs, hkept⟩
      have hfirst : draft.AddsOnly (fun _ definition => definition.IsCutFrom line) entered :=
        Assignment.record_addsOnly hcontents hentered
      cases tail with
      | nil =>
          cases h
          exact hfirst
      | cons c tail =>
          obtain rfl : c = ',' := hcomma c rfl
          have hnext : line.text = before ++ (gap ++ (head ++ span)) ++ ',' :: tail := by
            rw [htext]
            simp
          refine hfirst.trans (ih (fun _ => ⟨',', tail, rfl, Or.inr rfl⟩) htail ?_ hnext h)
          exact fun houtside place hplace => hcuts houtside place (List.mem_append_right _ hplace)

theorem record_nested (hline : Nested (fun _ => True) line.text)
    (hblock : ∀ keyword ∈ Vocabulary.blocks, line.isLedBy keyword = false)
    (h : line.record draft = .ok recorded) :
    draft.AddsOnly (fun _ definition => definition.IsCutFrom line) recorded := by
  unfold record at h
  obtain ⟨⟨leading, first⟩, hleadingForm, h⟩ := bind_eq_ok_iff.1 h
  obtain ⟨front, body, hsplit, -, hplace, hplain, hleading, hbody⟩ := leadingForm_eq_ok hleadingForm
  have hcuts : line.cuts = line.cutsFrom leading (line.text.length + 1) (Text.width front) := by
    have hother : Vocabulary.blocks.any (fun keyword => line.isLedBy keyword) = false := by
      simpa using hblock
    rw [cuts, hblock _ (by decide), hblock _ (by decide), hother, hleadingForm, ← hplace]
    rfl
  dsimp only at h
  rw [hplace] at h
  refine recordFrom_nested hleading hbody hline (fun _ => ?_) (fun houtside => ?_) hsplit h
  · exact (hsplit ▸ hline).of_append hplain
  · rw [← hcuts]
    exact houtside

end Line

namespace Draft

/-- In every definition of a model that has been read the arguments are balanced. The
expression is, too, when the lines of its number are cut outside of brackets only. -/
theorem ofInput_balanced {settings : Settings} {files : FileReader} {name input : Text}
    {draft : Draft} (hvariable : isIdentifier settings.arrayVariable = true)
    (h : Draft.ofInput settings files name input = .ok draft) (category : Category) :
    ∀ definition ∈ draft.symbols.get category,
      (∀ arg ∈ definition.args, imbalance? [] 0 arg = none) ∧
      ((∀ lines, Line.prepare name settings.arrayVariable input = .ok lines →
        ∀ line ∈ lines, line.number = definition.line → line.CutsOutside) →
          imbalance? [] 0 definition.expr = none) := by
  intro definition hmem
  unfold ofInput at h
  obtain ⟨lines, hlines, h⟩ := bind_eq_ok_iff.1 h
  have hnested := Line.nested_prepare (isNameText_of_isIdentifier hvariable).2.2 hlines
  have hreaders : ReadersAdd
      (fun _ definition => ∃ line ∈ lines, definition.IsCutFrom line) settings files lines := by
    constructor
    case exports =>
      exact fun line hline _ _ _ h =>
        (Line.recordExport_nested (hnested line hline) h).mono fun _ _ hcut => ⟨line, hline, hcut⟩
    case markovs =>
      exact fun line hline _ _ _ _ _ h hrows =>
        (Line.recordMarkov_nested (fun row hrow => hnested row (hrows row hrow)) h).mono
          fun _ _ hcut => ⟨line, hline, hcut⟩
    case tables =>
      exact fun line hline hled _ _ h =>
        (Line.recordTable_nested hled h).mono fun _ _ hcut => ⟨line, hline, hcut⟩
    case wieners =>
      exact fun line hline _ _ _ h => Line.recordWiener_addsOnly
        (fun _ => ⟨line, hline, rfl, List.forall_mem_nil _, fun _ => .nil⟩) h
    case globals =>
      exact fun line hline hled _ _ h =>
        (Line.recordGlobal_nested (hnested line hline) hled h).mono
          fun _ _ hcut => ⟨line, hline, hcut⟩
    case singles =>
      exact fun line hline hblock _ _ h =>
        (Line.record_nested (hnested line hline) hblock h).mono fun _ _ hcut => ⟨line, hline, hcut⟩
  obtain ⟨line, hline, hcut⟩ := hreaders.forall_mem h category definition hmem
  exact ⟨fun arg harg => imbalance?_eq_none_iff.2 (hcut.arguments arg harg), fun houtside =>
    imbalance?_eq_none_iff.2
      (hcut.expression (houtside lines hlines line hline hcut.numbered.symm))⟩

/-- A model with lists, calls, a condition and an array, all of whose cuts are outside of
brackets. -/
theorem ofInput_balanced_array :
    ∃ draft : Draft,
      Draft.ofInput { } (fun _ => .error .notFound) "m".toList
        "f(u)=(u)\nx[1..2]'=f(x[j])\nspecial s=g((x1),2)\nglobal 1 x1 \x7bx1=0\x7d".toList =
          .ok draft ∧
      draft.symbols.get .special = [⟨3, ['s'], ['g'], ["(x1)".toList, ['2']]⟩] ∧
      ∀ category, ∀ definition ∈ draft.symbols.get category,
        (∀ arg ∈ definition.args, imbalance? [] 0 arg = none) ∧
          imbalance? [] 0 definition.expr = none := by
  have hrun : (Draft.ofInput { } (fun _ => .error .notFound) "m".toList
      "f(u)=(u)\nx[1..2]'=f(x[j])\nspecial s=g((x1),2)\nglobal 1 x1 \x7bx1=0\x7d".toList).map
        (fun draft => draft.symbols.get .special) =
          .ok [⟨3, ['s'], ['g'], ["(x1)".toList, ['2']]⟩] := by
    decide +kernel
  obtain ⟨draft, hdraft, hspecial⟩ := map_eq_ok_iff.1 hrun
  refine ⟨draft, hdraft, hspecial, fun category definition hmem => ?_⟩
  obtain ⟨hargs, hexpr⟩ := ofInput_balanced rfl hdraft category definition hmem
  refine ⟨hargs, hexpr fun lines hlines line hline _ => ?_⟩
  have hall : (Line.prepare "m".toList ['j']
      "f(u)=(u)\nx[1..2]'=f(x[j])\nspecial s=g((x1),2)\nglobal 1 x1 \x7bx1=0\x7d".toList).map
        (fun lines => decide (∀ line ∈ lines, line.CutsOutside)) = .ok true := by
    decide +kernel
  obtain ⟨found, hfound, houtside⟩ := map_eq_ok_iff.1 hall
  cases Except.ok.inj (hfound.symm.trans hlines)
  exact of_decide_eq_true houtside line hline

/-- A function head, a call and a condition that are cut inside of brackets leave texts that
are not balanced, although every line is. -/
theorem ofInput_unbalanced :
    ∃ draft : Draft,
      Draft.ofInput { } (fun _ => .error .notFound) "m".toList
        "f(a)((b)=a)\nspecial s=\x7bg(x)\x7d\nglobal 1 max(x,\x7by=0\x7d)".toList = .ok draft ∧
      draft.symbols.get .functions = [⟨1, ['f'], "a)".toList, [['a']]⟩] ∧
      draft.symbols.get .special = [⟨2, ['s'], "\x7bg".toList, [['x']]⟩] ∧
      draft.symbols.get .globals = [⟨3, ['1'], "max(x,".toList, ["y=0".toList]⟩] ∧
      imbalance? [] 0 "a)".toList = some (.missingOpeningBracket, 1) ∧
      imbalance? [] 0 "\x7bg".toList = some (.missingClosingBracket, 0) ∧
      imbalance? [] 0 "max(x,".toList = some (.missingClosingBracket, 3) := by
  have hrun : (Draft.ofInput { } (fun _ => .error .notFound) "m".toList
      "f(a)((b)=a)\nspecial s=\x7bg(x)\x7d\nglobal 1 max(x,\x7by=0\x7d)".toList).map (fun draft =>
        (draft.symbols.get .functions, draft.symbols.get .special, draft.symbols.get .globals)) =
      .ok ([⟨1, ['f'], "a)".toList, [['a']]⟩], [⟨2, ['s'], "\x7bg".toList, [['x']]⟩],
        [⟨3, ['1'], "max(x,".toList, ["y=0".toList]⟩]) := by
    decide +kernel
  obtain ⟨draft, hdraft, hall⟩ := map_eq_ok_iff.1 hrun
  obtain ⟨hfunctions, hothers⟩ := Prod.mk.inj hall
  obtain ⟨hspecial, hglobals⟩ := Prod.mk.inj hothers
  exact ⟨draft, hdraft, hfunctions, hspecial, hglobals, by decide⟩

end Draft

end OdeModel
