import OdeModel.Line.Comment
import OdeModel.Proofs.Text.Items
import Mathlib.Data.List.DropRight
import Mathlib.Data.List.Forall2

/-!
# What is left without comments

Lines without comments begin as the lines of the file do: only a comment and the blanks and
dividers at the end go. No comment, no blank at an end and no empty line is left. One run of
dividers goes and no second one, so a divider stays at the end when blanks part it from
others behind it, and it would go if comments were removed once more.
-/

namespace OdeModel

namespace Text

variable {s t : Text}

/-! ### Curly brackets -/

/-- Every curly bracket that is opened in the text is closed in it. One that closes without
an open one has no part in this. -/
def ClosesCurly (s : Text) : Prop :=
  ∀ back, back <:+ s → back.count '\x7b' ≤ back.count '\x7d'

/-- Number of open curly brackets behind a character. -/
def nestCurly (depth : Nat) (c : Char) : Nat :=
  if c = '\x7b' then depth + 1 else if c = '\x7d' then depth - 1 else depth

/-- The open brackets of a text are those of the ending that opens the most. -/
theorem foldl_nestCurly_le_iff {bound : Nat} :
    s.foldl nestCurly 0 ≤ bound ↔
      ∀ back, back <:+ s → back.count '\x7b' ≤ bound + back.count '\x7d' := by
  induction s using List.reverseRecOn generalizing bound with
  | nil => simp
  | append_singleton s c ih =>
      have hsuffix : (∀ back, back <:+ s ++ [c] →
            back.count '\x7b' ≤ bound + back.count '\x7d') ↔
          ∀ back, back <:+ s →
            (back ++ [c]).count '\x7b' ≤ bound + (back ++ [c]).count '\x7d' := by
        simp only [List.suffix_concat_iff]
        constructor
        · exact fun h back hback => h _ (.inr ⟨back, rfl, hback⟩)
        · rintro h back (rfl | ⟨front, rfl, hfront⟩)
          · exact Nat.zero_le _
          · exact h front hfront
      rw [List.foldl_append, hsuffix]
      simp only [List.foldl_cons, List.foldl_nil, List.count_append, nestCurly]
      by_cases hopen : c = '\x7b'
      · subst hopen
        cases bound with
        | zero => simpa using ⟨[], List.nil_suffix, by simp⟩
        | succ bound => simp [ih, Nat.add_right_comm]
      · by_cases hclose : c = '\x7d'
        · subst hclose
          have hbound : s.foldl nestCurly 0 - 1 ≤ bound ↔ s.foldl nestCurly 0 ≤ bound + 1 := by
            omega
          simp [hbound, ih, Nat.add_assoc, Nat.add_comm 1]
        · simp [hopen, hclose, ih]

theorem foldl_nestCurly_eq_zero_iff : s.foldl nestCurly 0 = 0 ↔ ClosesCurly s := by
  rw [← Nat.le_zero, foldl_nestCurly_le_iff]
  simp [ClosesCurly]

/-! ### Comments -/

/-- A number sign stands outside of curly brackets. -/
def HasComment (s : Text) : Prop :=
  ∃ before after, s = before ++ '#' :: after ∧ ClosesCurly before

theorem HasComment.mono (h : HasComment t) (hbegins : t <+: s) : HasComment s := by
  obtain ⟨before, after, rfl, hcloses⟩ := h
  obtain ⟨behind, rfl⟩ := hbegins
  exact ⟨before, after ++ behind, by simp, hcloses⟩

theorem beforeComment_cons_eq (depth : Nat) (c : Char) (rest : Text) :
    beforeComment depth (c :: rest) =
      if c = '#' ∧ depth = 0 then [] else c :: beforeComment (nestCurly depth c) rest := by
  by_cases hc : c = '#'
  · subst hc
    rfl
  · simp only [beforeComment, nestCurly, hc, false_and, if_false]

/-- What goes with a comment starts with its number sign. -/
theorem exists_comment (depth : Nat) (s : Text) :
    ∃ comment, s = beforeComment depth s ++ comment ∧
      (comment = [] ∨
        comment.head? = some '#' ∧ (beforeComment depth s).foldl nestCurly depth = 0) := by
  induction s generalizing depth with
  | nil => exact ⟨[], rfl, .inl rfl⟩
  | cons c rest ih =>
      rw [beforeComment_cons_eq]
      split
      next h => exact ⟨c :: rest, rfl, .inr ⟨by rw [h.1]; rfl, h.2⟩⟩
      next =>
        obtain ⟨comment, hrest, hstart⟩ := ih (nestCurly depth c)
        exact ⟨comment, by rw [List.cons_append, ← hrest], hstart⟩

/-- Curly brackets are open at every number sign before the comment. -/
theorem foldl_nestCurly_beforeComment {depth : Nat} {before after : Text}
    (h : beforeComment depth s = before ++ '#' :: after) : before.foldl nestCurly depth ≠ 0 := by
  induction s generalizing depth before with
  | nil => simp [beforeComment] at h
  | cons c rest ih =>
      rw [beforeComment_cons_eq] at h
      split at h
      next => simp at h
      next hstay =>
        cases before with
        | nil =>
            obtain ⟨rfl, -⟩ := List.cons.inj h
            exact fun hdepth => hstay ⟨rfl, hdepth⟩
        | cons e before =>
            obtain ⟨rfl, hrest⟩ := List.cons.inj h
            rw [List.foldl_cons]
            exact ih hrest

theorem not_hasComment_beforeComment (s : Text) : ¬ HasComment (beforeComment 0 s) := by
  rintro ⟨before, after, h, hcloses⟩
  exact foldl_nestCurly_beforeComment h (foldl_nestCurly_eq_zero_iff.2 hcloses)

/-- Nothing goes from a text without a comment. -/
theorem beforeComment_eq_self (h : ¬ HasComment s) : beforeComment 0 s = s := by
  obtain ⟨comment, hs, rfl | ⟨hstart, hdepth⟩⟩ := exists_comment 0 s
  · rw [List.append_nil] at hs
    exact hs.symm
  · obtain ⟨after, rfl⟩ := List.head?_eq_some_iff.1 hstart
    exact absurd ⟨_, after, hs, foldl_nestCurly_eq_zero_iff.1 hdepth⟩ h

/-! ### Dividers -/

/-- Commas and semicolons divide statements. -/
def isDivider (c : Char) : Bool := c == ',' || c == ';'

/-- Blanks stand between a divider and others that end the text before its comment. -/
def HasPartedDividers (s : Text) : Prop :=
  ∃ front c blanks dividers behind,
    beforeComment 0 s = front ++ c :: (blanks ++ (dividers ++ behind)) ∧
    isDivider c = true ∧ (blanks ≠ [] ∧ ∀ b ∈ blanks, isBlank b = true) ∧
    (dividers ≠ [] ∧ ∀ d ∈ dividers, isDivider d = true) ∧ ∀ b ∈ behind, isBlank b = true

theorem isBlank_of_isDivider {c : Char} (h : isDivider c = true) : isBlank c = false := by
  simp only [isDivider, Bool.or_eq_true, beq_iff_eq] at h
  rcases h with rfl | rfl <;> rfl

theorem any_isBlank_of_any_isDivider (h : s.getLast?.any isDivider = true) :
    s.getLast?.any isBlank = false := by
  obtain ⟨c, hlast, hc⟩ := (Option.any_eq_true _ _).1 h
  rw [hlast]
  exact isBlank_of_isDivider hc

theorem any_isDivider_of_any_isBlank (h : s.getLast?.any isBlank = true) :
    s.getLast?.any isDivider = false := by
  rw [← Bool.not_eq_true]
  intro hdivider
  rw [any_isBlank_of_any_isDivider hdivider] at h
  contradiction

/-- What the text ends with goes, and the last character of the rest stays. -/
theorem dropEndWhile_append {p : Char → Bool} {front behind : Text}
    (hfront : front.getLast?.any p = false) (hbehind : ∀ c ∈ behind, p c = true) :
    dropEndWhile p (front ++ behind) = front := by
  have hself : List.rdropWhile p front = front :=
    List.rdropWhile_eq_self_iff.2 fun hne => by
      rw [List.getLast?_eq_some_getLast hne] at hfront
      simpa using hfront
  rw [dropEndWhile, List.reverse_append,
    List.dropWhile_append_of_pos fun c hc => hbehind c (List.mem_reverse.1 hc)]
  exact hself

theorem exists_dropEndWhile (p : Char → Bool) (s : Text) :
    ∃ behind, s = dropEndWhile p s ++ behind ∧ (∀ c ∈ behind, p c = true) ∧
      (dropEndWhile p s).getLast?.any p = false := by
  refine ⟨s.rtakeWhile p, List.rdropWhile_append_rtakeWhile.symm,
    fun c hc => List.mem_rtakeWhile_imp hc, ?_⟩
  change (s.rdropWhile p).getLast?.any p = false
  by_cases hne : s.rdropWhile p = []
  · rw [hne]
    rfl
  · rw [List.getLast?_eq_some_getLast hne]
    simpa using List.rdropWhile_last_not p s hne

theorem statement_eq (s : Text) :
    statement s = trimEnd (dropEndWhile isDivider (trimEnd (beforeComment 0 s))) := rfl

/-- Where a text ends with characters of one kind, so does a longer one. -/
theorem any_getLast?_append {p : Char → Bool} (front : Text) {behind : Text}
    (hne : behind ≠ []) (hbehind : ∀ c ∈ behind, p c = true) :
    (front ++ behind).getLast?.any p = true := by
  rw [List.getLast?_append_of_ne_nil _ hne, List.getLast?_eq_some_getLast hne]
  exact hbehind _ (List.getLast_mem hne)

/-- Behind a statement stand blanks, dividers and blanks again, each of them as many as
there are. -/
theorem exists_statement (s : Text) :
    ∃ blanks dividers behind,
      beforeComment 0 s = statement s ++ blanks ++ dividers ++ behind ∧
      ((∀ b ∈ blanks, isBlank b = true) ∧ (statement s).getLast?.any isBlank = false) ∧
      ((∀ d ∈ dividers, isDivider d = true) ∧
        (statement s ++ blanks).getLast?.any isDivider = false) ∧
      (∀ b ∈ behind, isBlank b = true) ∧
        (statement s ++ blanks ++ dividers).getLast?.any isBlank = false := by
  obtain ⟨behind, htext, hbehind⟩ := exists_dropEndWhile isBlank (beforeComment 0 s)
  obtain ⟨dividers, hkept, hdividers⟩ :=
    exists_dropEndWhile isDivider (trimEnd (beforeComment 0 s))
  obtain ⟨blanks, hstatement, hblanks⟩ :=
    exists_dropEndWhile isBlank (dropEndWhile isDivider (trimEnd (beforeComment 0 s)))
  have hblanks' : dropEndWhile isDivider (trimEnd (beforeComment 0 s)) = statement s ++ blanks :=
    hstatement
  have hdividers' : trimEnd (beforeComment 0 s) = statement s ++ blanks ++ dividers := by
    rw [← hblanks', ← hkept]
  refine ⟨blanks, dividers, behind, ?_, hblanks, ?_, ?_⟩
  · rw [← hdividers']
    exact htext
  · rwa [← hblanks']
  · rwa [← hdividers']

theorem statement_begins (s : Text) : statement s <+: beforeComment 0 s := by
  obtain ⟨blanks, dividers, behind, h, -⟩ := exists_statement s
  exact ⟨blanks ++ (dividers ++ behind), by rw [h]; simp⟩

theorem not_hasComment_statement (s : Text) : ¬ HasComment (statement s) :=
  fun h => not_hasComment_beforeComment s (h.mono (statement_begins s))

/-- A divider is left at the end just when blanks part it from others. -/
theorem any_getLast?_statement_iff :
    (statement s).getLast?.any isDivider = true ↔ HasPartedDividers s := by
  constructor
  · intro hlast
    obtain ⟨blanks, dividers, behind, htext, ⟨hblanks, -⟩, ⟨hdividers, hstop⟩, hbehind,
      htrimmed⟩ := exists_statement s
    have hblanks_ne : blanks ≠ [] := by
      rintro rfl
      rw [List.append_nil, hlast] at hstop
      exact Bool.noConfusion hstop
    have hdividers_ne : dividers ≠ [] := by
      rintro rfl
      rw [List.append_nil, any_getLast?_append _ hblanks_ne hblanks] at htrimmed
      exact Bool.noConfusion htrimmed
    obtain ⟨c, hsome, hc⟩ := (Option.any_eq_true _ _).1 hlast
    obtain ⟨front, hfront⟩ := List.getLast?_eq_some_iff.1 hsome
    refine ⟨front, c, blanks, dividers, behind, ?_, hc, ⟨hblanks_ne, hblanks⟩,
      ⟨hdividers_ne, hdividers⟩, hbehind⟩
    rw [htext, hfront]
    simp
  · rintro ⟨front, c, blanks, dividers, behind, htext, hc, ⟨hblanks_ne, hblanks⟩,
      ⟨hdividers_ne, hdividers⟩, hbehind⟩
    have htrimmed : trimEnd (beforeComment 0 s) = front ++ [c] ++ blanks ++ dividers := by
      have hlast := any_getLast?_append (front ++ [c] ++ blanks) hdividers_ne hdividers
      rw [htext, trimEnd, ← dropEndWhile_append (any_isBlank_of_any_isDivider hlast) hbehind]
      simp
    have hdropped : dropEndWhile isDivider (front ++ [c] ++ blanks ++ dividers) =
        front ++ [c] ++ blanks := by
      have hlast := any_getLast?_append (front ++ [c]) hblanks_ne hblanks
      exact dropEndWhile_append (any_isDivider_of_any_isBlank hlast) hdividers
    have hlast : (front ++ [c]).getLast?.any isDivider = true := by simpa using hc
    rw [statement_eq, htrimmed, hdropped, trimEnd,
      dropEndWhile_append (any_isBlank_of_any_isDivider hlast) hblanks]
    exact hlast

/-- A statement is its own one unless it ends with a divider. -/
theorem statement_statement_iff :
    statement (statement s) = statement s ↔ (statement s).getLast?.any isDivider = false := by
  have hself : ∀ {p : Char → Bool}, (statement s).getLast?.any p = false →
      dropEndWhile p (statement s) = statement s := fun h => by
    simpa using dropEndWhile_append h (fun c hc => absurd hc (List.not_mem_nil (a := c)))
  have htrimmed : trimEnd (statement s) = statement s := hself (trimEnd_getLast? _)
  have hagain : statement (statement s) = trimEnd (dropEndWhile isDivider (statement s)) := by
    rw [statement_eq (statement s), beforeComment_eq_self (not_hasComment_statement s), htrimmed]
  rw [hagain]
  constructor
  · intro h
    have hbegins : dropEndWhile isDivider (statement s) <+: statement s :=
      List.rdropWhile_prefix _ _
    have hback : statement s <+: dropEndWhile isDivider (statement s) := by
      nth_rewrite 1 [← h]
      exact List.rdropWhile_prefix _ _
    obtain ⟨-, -, -, hstop⟩ := exists_dropEndWhile isDivider (statement s)
    rwa [hbegins.eq_of_length_le hback.length_le] at hstop
  · intro h
    rw [hself h, htrimmed]

/-- The text is what a statement begins with: a comment goes, and so do blanks and dividers
in front of it. -/
def IsStatementOf (kept s : Text) : Prop :=
  ∃ behind comment, s = kept ++ (behind ++ comment) ∧
    (∀ c ∈ behind, isBlank c = true ∨ isDivider c = true) ∧
    (comment = [] ∨ comment.head? = some '#' ∧ ClosesCurly (kept ++ behind))

theorem isStatementOf_statement (s : Text) : IsStatementOf (statement s) s := by
  obtain ⟨blanks, dividers, behind, htext, ⟨hblanks, -⟩, ⟨hdividers, -⟩, hbehind, -⟩ :=
    exists_statement s
  obtain ⟨comment, hs, hcomment⟩ := exists_comment 0 s
  have htext' : beforeComment 0 s = statement s ++ (blanks ++ dividers ++ behind) := by
    rw [htext]
    simp
  refine ⟨blanks ++ dividers ++ behind, comment, ?_, ?_, ?_⟩
  · rw [← List.append_assoc, ← htext']
    exact hs
  · intro c hc
    rcases List.mem_append.1 hc with hc | hc
    · rcases List.mem_append.1 hc with hc | hc
      · exact .inl (hblanks c hc)
      · exact .inr (hdividers c hc)
    · exact .inl (hbehind c hc)
  · rw [← htext', ← foldl_nestCurly_eq_zero_iff]
    exact hcomment

end Text

open Text

namespace Line

variable {lines : List Line}

theorem mem_withoutComments_iff {line : Line} :
    line ∈ withoutComments lines ↔
      line.text ≠ [] ∧ ∃ source ∈ lines, line = { source with text := statement source.text } := by
  simp only [withoutComments, List.mem_filter, List.mem_map, Bool.not_eq_true',
    List.isEmpty_eq_false_iff, eq_comm (a := line), and_comm]

/-- Removing the comments a second time changes nothing just when every line is its own
statement. -/
theorem withoutComments_eq_self_iff (hne : ∀ line ∈ lines, line.text ≠ []) :
    withoutComments lines = lines ↔ ∀ line ∈ lines, statement line.text = line.text := by
  have hmap : (lines.map fun line => { line with text := statement line.text }) = lines ↔
      ∀ line ∈ lines, statement line.text = line.text := by
    nth_rewrite 2 [← List.map_id lines]
    rw [List.map_inj_left]
    exact forall₂_congr fun line _ => ⟨congrArg Line.text, fun h => by rw [h]; rfl⟩
  rw [← hmap]
  constructor
  · intro h
    have hsublist : List.Sublist (withoutComments lines)
        (lines.map fun line => { line with text := statement line.text }) := List.filter_sublist
    rw [← hsublist.eq_of_length (by rw [h, List.length_map]), h]
  · intro h
    rw [withoutComments, h]
    exact List.filter_eq_self.2 fun line hmem => by simpa using hne line hmem

/-- A divider is left at the end of some line just when blanks part dividers in a line
that is given. -/
theorem forall_isDivider_iff :
    (∀ line ∈ withoutComments lines, line.text.getLast?.any isDivider = false) ↔
      ∀ line ∈ lines, ¬ HasPartedDividers line.text := by
  simp only [← any_getLast?_statement_iff, Bool.not_eq_true]
  constructor
  · intro h line hmem
    by_cases hnil : statement line.text = []
    · rw [hnil]
      rfl
    · exact h { line with text := statement line.text }
        (mem_withoutComments_iff.2 ⟨hnil, line, hmem, rfl⟩)
  · intro h line hmem
    obtain ⟨-, source, hsource, rfl⟩ := mem_withoutComments_iff.1 hmem
    exact h source hsource

/-- Without comments no line is empty, has a number sign outside of curly brackets or ends
with a blank. Every line begins as the one it comes from, and only a comment and blanks and
dividers before it are gone. One run of dividers goes from the end: a line ends with a
divider, and removing the comments once more changes something, just when blanks part a
divider from others that end a line. -/
theorem withoutComments_complete (lines : List Line) :
    (∃ cut, List.Forall₂ (fun line rest =>
        rest.number = line.number ∧ IsStatementOf rest.text line.text) lines cut ∧
      withoutComments lines = cut.filter fun line => !line.text.isEmpty) ∧
    (∀ line ∈ withoutComments lines, line.text ≠ [] ∧ ¬ HasComment line.text ∧
      line.text.getLast?.any isBlank = false) ∧
    ((∀ line ∈ withoutComments lines, line.text.getLast?.any isDivider = false) ↔
      ∀ line ∈ lines, ¬ HasPartedDividers line.text) ∧
    (withoutComments (withoutComments lines) = withoutComments lines ↔
      ∀ line ∈ lines, ¬ HasPartedDividers line.text) := by
  refine ⟨?cut, ?kept, forall_isDivider_iff, ?again⟩
  case cut =>
    refine ⟨lines.map fun line => { line with text := statement line.text }, ?_, rfl⟩
    rw [List.forall₂_map_right_iff, List.forall₂_same]
    exact fun line _ => ⟨rfl, isStatementOf_statement line.text⟩
  case kept =>
    intro line hmem
    obtain ⟨hne, source, -, rfl⟩ := mem_withoutComments_iff.1 hmem
    exact ⟨hne, not_hasComment_statement source.text, trimEnd_getLast? _⟩
  case again =>
    rw [withoutComments_eq_self_iff fun line hmem => (mem_withoutComments_iff.1 hmem).1,
      ← forall_isDivider_iff]
    refine forall₂_congr fun line hmem => ?_
    obtain ⟨-, source, -, rfl⟩ := mem_withoutComments_iff.1 hmem
    exact statement_statement_iff

/-- The semicolon goes and the comma stays. It goes the next time. -/
theorem withoutComments_leaves_divider :
    withoutComments [⟨1, "par a=1, ; # one".toList⟩] = [⟨1, "par a=1,".toList⟩] ∧
    withoutComments [⟨1, "par a=1,".toList⟩] = [⟨1, "par a=1".toList⟩] := by
  decide

end Line

end OdeModel
