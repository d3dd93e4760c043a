import OdeModel.Inlining.Atomic
import OdeModel.Proofs.Text.Commas
import OdeModel.Proofs.Text.Places

/-!
# Settled texts

The functions that count brackets do not look at their kind, and a closing bracket without
an open one counts nothing. A text is settled when no bracket is left open in this count.
Any end of a settled text is settled too, so this is what stays of the balance of a line in
the texts that are cut out of it; and it is enough for every parenthesis to be closed.
-/

namespace OdeModel

theorem nest_mono {low high : Nat} (h : low ≤ high) (c : Char) : nest low c ≤ nest high c := by
  unfold nest
  split
  · omega
  · split <;> omega

theorem nest_add_le (low depth : Nat) (c : Char) : nest (low + depth) c ≤ low + nest depth c := by
  unfold nest
  split
  · omega
  · split <;> omega

namespace Text

variable {s t : Text}

/-- Number of open brackets after reading the text. -/
def level (depth : Nat) (s : Text) : Nat := s.foldl nest depth

@[simp] theorem level_nil (depth : Nat) : level depth [] = depth := rfl

@[simp] theorem level_cons (depth : Nat) (c : Char) (s : Text) :
    level depth (c :: s) = level (nest depth c) s := rfl

theorem level_append (depth : Nat) (s t : Text) :
    level depth (s ++ t) = level (level depth s) t := List.foldl_append

theorem level_mono {low high : Nat} (h : low ≤ high) (s : Text) : level low s ≤ level high s := by
  induction s generalizing low high with
  | nil => exact h
  | cons c s ih => exact ih (nest_mono h c)

theorem level_add_le (low depth : Nat) (s : Text) :
    level (low + depth) s ≤ low + level depth s := by
  induction s generalizing depth with
  | nil => exact Nat.le_refl _
  | cons c s ih => exact (level_mono (nest_add_le low depth c) s).trans (ih _)

/-- No bracket is left open. -/
def Settled (s : Text) : Prop := level 0 s = 0

instance (s : Text) : Decidable (Settled s) := inferInstanceAs (Decidable (_ = _))

/-! ### Brackets alone -/

/-- The brackets of a text. -/
def brackets (s : Text) : Text := s.filter fun c => isOpening c || isClosing c

@[simp] theorem brackets_append (s t : Text) : brackets (s ++ t) = brackets s ++ brackets t :=
  List.filter_append _ _

theorem brackets_eq_nil (h : ∀ c ∈ s, isOpening c = false ∧ isClosing c = false) :
    brackets s = [] := by
  rw [brackets, List.filter_eq_nil_iff]
  intro c hc
  simp [h c hc]

theorem brackets_of_isNameText (h : IsNameText s) : brackets s = [] :=
  brackets_eq_nil fun c hc => not_bracket (Or.inr (h c hc))

theorem brackets_filter {p : Char → Bool}
    (hp : ∀ c, isOpening c = true ∨ isClosing c = true → p c = true) (s : Text) :
    brackets (s.filter p) = brackets s := by
  rw [brackets, brackets, List.filter_filter]
  refine List.filter_congr fun c _ => ?_
  cases hc : isOpening c || isClosing c with
  | false => rfl
  | true => simpa using hp c (by simpa using hc)

@[simp] theorem brackets_withoutBlanks (s : Text) : brackets (withoutBlanks s) = brackets s :=
  brackets_filter (fun _ hc => by simpa using isBlank_of_bracket hc) s

@[simp] theorem brackets_trim (s : Text) : brackets (trim s) = brackets s := by
  rw [← brackets_withoutBlanks, withoutBlanks_trim, brackets_withoutBlanks]

/-- Only brackets count. -/
@[simp] theorem level_brackets (depth : Nat) (s : Text) :
    level depth (brackets s) = level depth s := by
  induction s generalizing depth with
  | nil => rfl
  | cons c s ih =>
      cases hc : isOpening c || isClosing c with
      | true =>
          have hfirst : brackets (c :: s) = c :: brackets s := List.filter_cons_of_pos hc
          rw [hfirst, level_cons, level_cons, ih]
      | false =>
          obtain ⟨hopening, hclosing⟩ := Bool.or_eq_false_iff.1 hc
          have hfirst : brackets (c :: s) = brackets s := List.filter_cons_of_neg (by simp [hc])
          rw [hfirst, level_cons, nest_other hopening hclosing, ih]

theorem level_congr (h : brackets s = brackets t) (depth : Nat) :
    level depth s = level depth t := by
  rw [← level_brackets, h, level_brackets]

theorem Settled.congr (hs : Settled s) (h : brackets s = brackets t) : Settled t :=
  (level_congr h 0).symm.trans hs

theorem settled_of_isNameText (h : IsNameText s) : Settled s := by
  rw [Settled, ← level_brackets, brackets_of_isNameText h, level_nil]

namespace Settled

/-- A settled text opens nothing for what follows it. -/
theorem level_le (h : Settled s) (depth : Nat) : level depth s ≤ depth := by
  have hle := level_add_le depth 0 s
  rwa [h] at hle

/-- Any end of a settled text is settled. -/
theorem of_append (h : Settled (s ++ t)) : Settled t := by
  rw [Settled, level_append] at h
  exact Nat.le_zero.1 (h ▸ level_mono (Nat.zero_le _) t)

theorem parenthesized (h : Settled s) : Settled (parenthesized s) := by
  have hle := h.level_le 1
  rw [Settled, Text.parenthesized, List.cons_append, level_cons, nest_open rfl, level_append]
  exact Nat.le_zero.1 (level_mono hle [')'])

theorem wrap (h : Settled s) (parenthesize whole : Bool) : Settled (wrap parenthesize whole s) := by
  unfold Text.wrap
  split
  · exact h.parenthesized
  · exact h

end Settled

/-- Nested brackets close all that they open, and nothing else. -/
theorem Nested.level_eq {outside : Char → Prop} (h : Nested outside s) (depth : Nat) :
    level depth s = depth := by
  induction h generalizing depth with
  | nil => rfl
  | cons hopening hclosing _ _ ih => rw [level_cons, nest_other hopening hclosing, ih]
  | @enclosed _ o c inside s ho hc _ _ _ ihinside ih =>
      rw [level_cons, nest_open ho, level_append, ihinside, level_cons, nest_close hc, ih]

theorem Nested.settled {outside : Char → Prop} (h : Nested outside s) : Settled s := h.level_eq 0

/-! ### Cuts outside of brackets -/

/-- The text up to a comma outside of brackets is settled, when the whole text is. -/
theorem level_spanToComma {depth : Nat} (h : level depth s = 0) :
    level depth (spanToComma depth s).1 = 0 := by
  induction s generalizing depth with
  | nil => exact h
  | cons c s ih =>
      rw [spanToComma]
      split
      next hcomma => exact hcomma.1
      next => exact ih h

/-- The pieces of a text that is cut outside of brackets are settled, when the whole text is. -/
theorem level_topFields (isCut : Char → Bool) {depth : Nat} (h : level depth s = 0)
    (offset : Nat) : ∃ first later, topFields isCut depth offset s = (offset, first) :: later ∧
      level depth first = 0 ∧ ∀ piece ∈ later, Settled piece.2 := by
  induction s generalizing depth offset with
  | nil => exact ⟨[], [], rfl, h, by simp⟩
  | cons c s ih =>
      obtain ⟨first, later, hfields, hfirst, hlater⟩ := ih h (offset + c.utf8Size)
      by_cases hcut : depth = 0 ∧ isCut c = true ∧ isOpening c = false ∧ isClosing c = false
      · obtain ⟨rfl, hc, hopening, hclosing⟩ := hcut
        rw [nest_other hopening hclosing] at hfields hfirst
        refine ⟨[], _, by rw [topFields, if_pos (by simp [hc, hopening, hclosing])], rfl, ?_⟩
        rw [hfields, List.forall_mem_cons]
        exact ⟨hfirst, hlater⟩
      · refine ⟨c :: first, later, ?_, hfirst, hlater⟩
        rw [topFields_cons hcut, hfields]
        rfl

theorem Settled.of_mem_topFields {isCut : Char → Bool} (h : Settled s) {offset : Nat} :
    ∀ piece ∈ topFields isCut 0 offset s, Settled piece.2 := by
  obtain ⟨first, later, hfields, hfirst, hlater⟩ := level_topFields isCut h offset
  rw [hfields, List.forall_mem_cons]
  exact ⟨hfirst, hlater⟩

/-- What stands between a bracket and the one that closes it closes nothing but itself. -/
theorem level_of_untilClosed {depth : Nat} {inside later : Text}
    (h : untilClosed (depth + 1) s = some (inside, later)) (low : Nat) :
    level (low + depth) inside = low := by
  refine untilClosed_induction (motive := fun depth _ inside => level (low + depth) inside = low)
    ?last ?opening ?closing ?other h
  case last => exact fun _ _ => rfl
  case opening =>
    intro depth c s inside hopening ih
    rw [level_cons, nest_open hopening]
    exact ih
  case closing =>
    intro depth c s inside hclosing ih
    rw [level_cons, ← Nat.add_assoc, nest_close hclosing]
    exact ih
  case other =>
    intro depth c s inside hopening hclosing ih
    rw [level_cons, nest_other hopening hclosing]
    exact ih

/-- A bracket and all up to the one that closes it count nothing together. -/
theorem level_enclosed {o : Char} (ho : isOpening o = true) {inside later : Text}
    (h : untilClosed 1 s = some (inside, later)) (depth : Nat) :
    level depth (o :: s) = level depth later := by
  obtain ⟨c, hc, rfl⟩ := exists_of_untilClosed h
  have hinside := level_of_untilClosed h (depth + 1)
  rw [Nat.add_zero] at hinside
  rw [level_cons, nest_open ho, level_append, hinside, level_cons, nest_close hc]

/-- What a bracket holds is settled. -/
theorem settled_of_untilClosed {inside later : Text}
    (h : untilClosed 1 s = some (inside, later)) : Settled inside :=
  level_of_untilClosed h 0

/-! ### Brackets that are closed -/

/-- With that many open brackets the last of them is closed in the text. -/
def Closes (depth : Nat) (s : Text) : Prop := (untilClosed depth s).isSome = true

theorem closes_open {c : Char} (hopening : isOpening c = true) {depth : Nat} :
    Closes depth (c :: s) ↔ Closes (depth + 1) s := by
  rw [Closes, untilClosed_open hopening, Option.isSome_map, Closes]

theorem closes_close {c : Char} (hclosing : isClosing c = true) {depth : Nat} :
    Closes (depth + 1) (c :: s) ↔ depth = 0 ∨ Closes depth s := by
  rw [Closes, untilClosed_close (isOpening_of_isClosing hclosing) hclosing]
  split
  next hdepth => simp [hdepth]
  next hdepth => rw [Option.isSome_map, Closes, or_iff_right hdepth]

theorem closes_other {c : Char} (hopening : isOpening c = false) (hclosing : isClosing c = false)
    {depth : Nat} : Closes depth (c :: s) ↔ Closes depth s := by
  rw [Closes, untilClosed_of_not_bracket hopening hclosing, Option.isSome_map, Closes]

/-- Reading a text either closes the last open bracket or comes out at the level of the
text, with brackets still open. -/
theorem closes_append_iff {depth : Nat} (hdepth : 0 < depth) :
    (Closes depth s ∧ ∀ t, Closes depth (s ++ t)) ∨
      (0 < level depth s ∧ ∀ t, Closes depth (s ++ t) ↔ Closes (level depth s) t) := by
  induction s generalizing depth with
  | nil => exact Or.inr ⟨hdepth, fun _ => Iff.rfl⟩
  | cons c s ih =>
      cases hopening : isOpening c with
      | true =>
          simp only [List.cons_append, closes_open hopening, level_cons, nest_open hopening]
          exact ih (Nat.succ_pos _)
      | false =>
          cases hclosing : isClosing c with
          | true =>
              obtain ⟨outer, rfl⟩ := Nat.exists_eq_succ_of_ne_zero hdepth.ne'
              simp only [Nat.succ_eq_add_one, List.cons_append, closes_close hclosing, level_cons,
                nest_close hclosing]
              rcases Nat.eq_zero_or_pos outer with rfl | houter
              · exact Or.inl ⟨Or.inl rfl, fun _ => Or.inl rfl⟩
              · simp only [houter.ne', false_or]
                exact ih houter
          | false =>
              simp only [List.cons_append, closes_other hopening hclosing, level_cons,
                nest_other hopening hclosing]
              exact ih hdepth

/-- Brackets that were open before are closed behind the one that is closed first. -/
theorem closes_of_untilClosed {depth extra : Nat} (hextra : 0 < extra) {inside later : Text}
    (h : untilClosed (depth + 1) s = some (inside, later)) :
    Closes (depth + extra + 1) s ↔ Closes extra later := by
  refine untilClosed_induction (motive := fun depth s _ =>
    Closes (depth + extra + 1) s ↔ Closes extra later) ?last ?opening ?closing ?other h
  case last =>
    intro c hclosing
    rw [closes_close hclosing, or_iff_right (by omega), Nat.zero_add]
  case opening =>
    intro depth c s _ hopening ih
    rw [closes_open hopening, ← ih, Nat.add_right_comm depth 1 extra]
  case closing =>
    intro depth c s _ hclosing ih
    rw [closes_close hclosing, or_iff_right (by omega), ← ih, Nat.add_right_comm depth 1 extra]
  case other =>
    intro depth c s _ hopening hclosing ih
    rw [closes_other hopening hclosing, ih]

namespace Closes

variable {depth low : Nat}

theorem append (hdepth : 0 < depth) (h : Closes depth s) (t : Text) : Closes depth (s ++ t) := by
  rcases closes_append_iff (s := s) hdepth with ⟨-, hall⟩ | ⟨-, hiff⟩
  · exact hall t
  · have hnil := (hiff []).1 (by rwa [List.append_nil])
    contradiction

/-- Fewer brackets are closed sooner. -/
theorem mono (hlow : 0 < low) (hle : low ≤ depth) (h : Closes depth s) : Closes low s := by
  induction s generalizing low depth with
  | nil => contradiction
  | cons c s ih =>
      cases hopening : isOpening c with
      | true =>
          rw [closes_open hopening] at h ⊢
          exact ih (Nat.succ_pos _) (Nat.succ_le_succ hle) h
      | false =>
          cases hclosing : isClosing c with
          | true =>
              obtain ⟨inner, rfl⟩ := Nat.exists_eq_succ_of_ne_zero hlow.ne'
              obtain ⟨outer, rfl⟩ := Nat.exists_eq_succ_of_ne_zero (hlow.trans_le hle).ne'
              rw [Nat.succ_eq_add_one, closes_close hclosing] at h ⊢
              have hinner := Nat.le_of_succ_le_succ hle
              rcases Nat.eq_zero_or_pos inner with hzero | hpos
              · exact Or.inl hzero
              · rcases h with hzero | hlater
                · omega
                · exact Or.inr (ih hpos hinner hlater)
          | false =>
              rw [closes_other hopening hclosing] at h ⊢
              exact ih hlow hle h

/-- A settled text may be put in front of the closing bracket. -/
theorem settled_append (hdepth : 0 < depth) (hs : Settled s) (h : Closes depth t) :
    Closes depth (s ++ t) := by
  rcases closes_append_iff (s := s) hdepth with ⟨-, hall⟩ | ⟨hpos, hiff⟩
  · exact hall t
  · exact (hiff t).2 (h.mono hpos (hs.level_le depth))

end Closes

theorem closes_of_level {depth : Nat} (hdepth : 0 < depth) (h : level depth s = 0) :
    Closes depth s := by
  rcases closes_append_iff (s := s) hdepth with ⟨hcloses, -⟩ | ⟨hpos, -⟩
  · exact hcloses
  · omega

/-- Every parenthesis that opens in the text is closed in it. -/
def ParensClosed (s : Text) : Prop := ∀ before rest, s = before ++ '(' :: rest → Closes 1 rest

namespace ParensClosed

theorem of_not_mem (h : '(' ∉ s) : ParensClosed s := by
  rintro before rest rfl
  exact absurd (by simp) h

theorem of_settled (h : Settled s) : ParensClosed s := by
  rintro before rest rfl
  rw [Settled, level_append, level_cons, nest_open rfl] at h
  exact (closes_of_level (Nat.succ_pos _) h).mono Nat.one_pos (Nat.le_add_left 1 _)

theorem of_append (h : ParensClosed (s ++ t)) : ParensClosed t := by
  rintro before rest rfl
  exact h (s ++ before) rest (by simp)

theorem cons_iff {c : Char} :
    ParensClosed (c :: s) ↔ (c = '(' → Closes 1 s) ∧ ParensClosed s := by
  constructor
  · intro h
    exact ⟨fun hc => h [] s (by rw [hc]; rfl), h.of_append (s := [c])⟩
  · rintro ⟨hfirst, hlater⟩ before rest hsplit
    cases before with
    | nil =>
        cases hsplit
        exact hfirst rfl
    | cons d before =>
        cases hsplit
        exact hlater before rest rfl

/-- A settled text may be put in front. -/
theorem settled_append (hs : Settled s) (h : ParensClosed t) : ParensClosed (s ++ t) := by
  have hclosed := of_settled hs
  clear hs
  induction s with
  | nil => exact h
  | cons c s ih =>
      obtain ⟨hfirst, hlater⟩ := cons_iff.1 hclosed
      exact cons_iff.2 ⟨fun hc => (hfirst hc).append Nat.one_pos t, ih hlater⟩

end ParensClosed

/-! ### Changed runs -/

section Runs

variable {f : Text → Text}

/-- Runs may give way to settled texts: the text then opens no more than before. -/
theorem level_mapRuns_le (hf : ∀ run ∈ runs s, Settled (f run)) (depth : Nat) :
    level depth (mapRuns f s) ≤ level depth s := by
  induction s using split_induction generalizing depth with
  | nil => exact Nat.le_refl _
  | run run hrun hne =>
      rw [mapRuns_of_isNameText f hrun hne]
      have hsettled := hf run (by simp [runs_of_isNameText hrun hne])
      rw [← level_brackets depth run, brackets_of_isNameText hrun]
      exact hsettled.level_le depth
  | split s c t hc ihs iht =>
      rw [runs_append_cons hc, List.forall_mem_append] at hf
      rw [mapRuns_append_cons f hc, level_append, level_append, level_cons, level_cons]
      exact (iht hf.2 _).trans (level_mono (nest_mono (ihs hf.1 depth) c) t)

theorem Settled.mapRuns (h : Settled s) (hf : ∀ run ∈ runs s, Settled (f run)) :
    Settled (mapRuns f s) := by
  have hle := level_mapRuns_le hf 0
  rw [h] at hle
  exact Nat.le_zero.1 hle

theorem closes_run_append {depth : Nat} {run : Text} (hrun : IsNameText run) :
    Closes depth (run ++ t) ↔ Closes depth t := by
  induction run with
  | nil => rfl
  | cons c run ih =>
      obtain ⟨hc, hlater⟩ := List.forall_mem_cons.1 hrun
      obtain ⟨hopening, hclosing⟩ := not_bracket (Or.inr hc)
      rw [List.cons_append, closes_other hopening hclosing, ih hlater]

theorem settled_changeRun {run : Text} (hrun : IsNameText run)
    (hf : ∀ word ∈ runs run, Settled (f word)) : Settled (mapRuns f run) :=
  (settled_of_isNameText hrun).mapRuns hf

theorem Closes.mapRuns {depth : Nat} (hdepth : 0 < depth) (h : Closes depth s)
    (hf : ∀ run ∈ runs s, Settled (f run)) : Closes depth (mapRuns f s) := by
  induction s using run_induction generalizing depth with
  | name run hrun =>
      have hnil := (closes_run_append (t := []) hrun).1 (by rwa [List.append_nil])
      contradiction
  | cons run c rest hrun hc ih =>
      rw [runs_append_cons hc, List.forall_mem_append] at hf
      rw [closes_run_append hrun] at h
      rw [mapRuns_append_cons f hc]
      refine settled_append hdepth (settled_changeRun hrun hf.1) ?_
      cases hopening : isOpening c with
      | true =>
          rw [closes_open hopening] at h ⊢
          exact ih (Nat.succ_pos _) h hf.2
      | false =>
          cases hclosing : isClosing c with
          | true =>
              obtain ⟨outer, rfl⟩ := Nat.exists_eq_succ_of_ne_zero hdepth.ne'
              rw [Nat.succ_eq_add_one, closes_close hclosing] at h ⊢
              rcases Nat.eq_zero_or_pos outer with hzero | hpos
              · exact Or.inl hzero
              · exact Or.inr (ih hpos (h.resolve_left hpos.ne') hf.2)
          | false =>
              rw [closes_other hopening hclosing] at h ⊢
              exact ih hdepth h hf.2

theorem ParensClosed.mapRuns (h : ParensClosed s) (hf : ∀ run ∈ runs s, Settled (f run)) :
    ParensClosed (mapRuns f s) := by
  induction s using run_induction with
  | name run hrun => exact of_settled (settled_changeRun hrun hf)
  | cons run c rest hrun hc ih =>
      obtain ⟨hfirst, hlater⟩ := cons_iff.1 h.of_append
      rw [runs_append_cons hc, List.forall_mem_append] at hf
      rw [mapRuns_append_cons f hc]
      exact settled_append (settled_changeRun hrun hf.1)
        (cons_iff.2 ⟨fun hopen => (hfirst hopen).mapRuns Nat.one_pos hf.2, ih hlater hf.2⟩)

end Runs

end Text

end OdeModel
