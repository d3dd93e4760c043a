import OdeModel.Line.Spacing
import OdeModel.Proofs.Text.Settling

/-!
# Normal spacing

A text is in normal spacing when every blank in it is one space outside of all brackets,
with a character on either side that is neither a blank nor an equals sign. Bringing a text
into normal spacing gives such a text and leaves such a text alone. A part of it may give
way to letters and digits when the brackets around it stay as they are.
-/

namespace OdeModel

namespace Text

variable {s t : Text}

/-- A blank may stand beside the character. -/
def takesBlank (c : Char) : Bool := !isBlank c && c != '='

/-- Every blank is one space outside of all brackets, and neither an end of the text nor a
blank nor an equals sign is beside it. -/
def IsSpaced (s : Text) : Prop :=
  ∀ before c after, s = before ++ c :: after → isBlank c = true →
    c = ' ' ∧ level 0 before = 0 ∧ before.getLast?.any takesBlank = true ∧
      after.head?.any takesBlank = true

theorem takesBlank_eq_true_iff {c : Char} :
    takesBlank c = true ↔ isBlank c = false ∧ c ≠ '=' := by
  simp [takesBlank]

/-- A character of two texts in a row is one of the first or one of the second. -/
theorem append_eq_append_cons_iff {before after : Text} {c : Char} :
    s ++ t = before ++ c :: after ↔
      (∃ more, s = before ++ c :: more ∧ after = more ++ t) ∨
        ∃ more, before = s ++ more ∧ t = more ++ c :: after := by
  rw [List.append_eq_append_iff]
  constructor
  · rintro (⟨more, hbefore, ht⟩ | ⟨more, hs, hafter⟩)
    · exact .inr ⟨more, hbefore, ht⟩
    · cases more with
      | nil => exact .inr ⟨[], by simpa using hs.symm, hafter.symm⟩
      | cons d more =>
          obtain ⟨rfl, rfl⟩ := List.cons.inj hafter
          exact .inl ⟨more, hs, rfl⟩
  · rintro (⟨more, hs, rfl⟩ | ⟨more, hbefore, ht⟩)
    · exact .inr ⟨c :: more, hs, rfl⟩
    · exact .inl ⟨more, hbefore, ht⟩

namespace IsSpaced

theorem nil : IsSpaced [] := by
  intro before c after hsplit
  simp at hsplit

theorem concat (h : IsSpaced s) {d : Char} (hd : isBlank d = false) : IsSpaced (s ++ [d]) := by
  intro before c after hsplit hblank
  rcases append_eq_append_cons_iff.1 hsplit with ⟨more, rfl, rfl⟩ | ⟨more, rfl, hmore⟩
  · obtain ⟨hspace, hlevel, hbefore, hafter⟩ := h before c more rfl hblank
    refine ⟨hspace, hlevel, hbefore, ?_⟩
    cases more with
    | nil => contradiction
    | cons e more => exact hafter
  · obtain rfl : d = c := by
      cases more with
      | nil => exact (List.cons.inj hmore).1
      | cons e more => simp at hmore
    rw [hblank] at hd
    contradiction

theorem space (h : IsSpaced s) (hlevel : level 0 s = 0) (hlast : s.getLast?.any takesBlank = true)
    {d : Char} (hd : takesBlank d = true) : IsSpaced (s ++ [' ', d]) := by
  intro before c after hsplit hblank
  rcases append_eq_append_cons_iff.1 hsplit with ⟨more, rfl, rfl⟩ | ⟨more, rfl, hmore⟩
  · obtain ⟨hspace, hlevel, hbefore, hafter⟩ := h before c more rfl hblank
    refine ⟨hspace, hlevel, hbefore, ?_⟩
    cases more with
    | nil => contradiction
    | cons e more => exact hafter
  · rcases more with _ | ⟨e, _ | ⟨f, more⟩⟩
    · obtain ⟨rfl, rfl⟩ := List.cons.inj hmore
      rw [List.append_nil]
      exact ⟨rfl, hlevel, hlast, hd⟩
    · obtain ⟨-, hmore⟩ := List.cons.inj hmore
      obtain ⟨rfl, -⟩ := List.cons.inj hmore
      rw [(takesBlank_eq_true_iff.1 hd).1] at hblank
      contradiction
    · simp at hmore

/-- A part of the text may give way to characters that a blank may stand beside. -/
theorem exchange {before middle after new : Text} (h : IsSpaced (before ++ (middle ++ after)))
    (hlevel : level (level 0 before) new = level (level 0 before) middle) (hne : new ≠ [])
    (hnew : ∀ c ∈ new, takesBlank c = true) : IsSpaced (before ++ (new ++ after)) := by
  have hmem : ∀ {c : Char}, c ∈ new → (some c).any takesBlank = true := fun hc => hnew _ hc
  intro left c right hsplit hblank
  rcases append_eq_append_cons_iff.1 hsplit with ⟨more, rfl, rfl⟩ | ⟨more, rfl, hmore⟩
  · obtain ⟨hspace, hlevel, hleft, hright⟩ :=
      h left c (more ++ (middle ++ after)) (by simp) hblank
    refine ⟨hspace, hlevel, hleft, ?_⟩
    cases more with
    | nil =>
        obtain ⟨d, new, rfl⟩ := List.exists_cons_of_ne_nil hne
        exact hmem List.mem_cons_self
    | cons d more => exact hright
  · rcases append_eq_append_cons_iff.1 hmore with ⟨inner, rfl, -⟩ | ⟨inner, rfl, rfl⟩
    · rw [(takesBlank_eq_true_iff.1 (hnew c (by simp))).1] at hblank
      contradiction
    · obtain ⟨hspace, hlevel', hleft, hright⟩ :=
        h (before ++ (middle ++ inner)) c right (by simp) hblank
      refine ⟨hspace, ?_, ?_, hright⟩
      · rw [level_append, level_append] at hlevel' ⊢
        rwa [hlevel]
      · cases hinner : inner.getLast? with
        | none =>
            rw [List.getLast?_eq_none_iff.1 hinner, List.append_nil,
              List.getLast?_append_of_ne_nil _ hne, List.getLast?_eq_some_getLast hne]
            exact hmem (List.getLast_mem hne)
        | some d =>
            simp only [List.getLast?_append, hinner, Option.some_or] at hleft ⊢
            exact hleft

end IsSpaced

/-! ### Bringing a text into normal spacing -/

@[simp] theorem nest_space (depth : Nat) : nest depth ' ' = depth := rfl

/-- What is written of a text continues what is in normal spacing before it. -/
theorem IsSpaced.append_respace {before : Text} (h : IsSpaced before)
    (hlast : before.getLast?.any isBlank = false) (pending : Bool)
    (hpending : pending = true → level 0 before = 0) (s : Text) :
    IsSpaced (before ++ respace (level 0 before) pending before.getLast? s) := by
  induction s generalizing before pending with
  | nil =>
      rw [respace, List.append_nil]
      exact h
  | cons c s ih =>
      rw [respace]
      split
      next hblank => exact ih h hlast _ fun hzero => by simpa using hzero
      next hc =>
        rw [Bool.not_eq_true] at hc
        dsimp only
        split
        next hgap =>
          simp only [Bool.and_eq_true, bne_iff_ne] at hgap
          obtain ⟨⟨hopen, hequals⟩, hbefore⟩ := hgap
          have htakes : before.getLast?.any takesBlank = true := by
            cases hfinal : before.getLast? with
            | none =>
                rw [hfinal] at hbefore
                contradiction
            | some d =>
                rw [hfinal] at hbefore hlast
                exact takesBlank_eq_true_iff.2 ⟨hlast, by simpa using hbefore⟩
          have hnext := h.space (hpending hopen) htakes (takesBlank_eq_true_iff.2 ⟨hc, hequals⟩)
          have hrest := ih hnext (by simpa using hc) false (by simp)
          simpa [level_append] using hrest
        next =>
          have hrest := ih (h.concat hc) (by simpa using hc) false (by simp)
          simpa [level_append] using hrest

/-- A text brought into normal spacing is in normal spacing. -/
theorem isSpaced_normalSpacing (s : Text) : IsSpaced (normalSpacing s) :=
  IsSpaced.nil.append_respace rfl false (by simp) s

/-- A text in normal spacing stays as it is. -/
theorem IsSpaced.respace_eq {before : Text} (h : IsSpaced (before ++ s))
    (hlast : before.getLast?.any isBlank = false) :
    respace (level 0 before) false before.getLast? s = s := by
  obtain ⟨size, hsize⟩ : ∃ size, s.length = size := ⟨_, rfl⟩
  -- a blank is written only with the character behind it
  induction size using Nat.strong_induction_on generalizing before s with
  | _ size ih =>
    cases s with
    | nil => rfl
    | cons c s =>
        rw [respace]
        split
        next hblank =>
          obtain ⟨rfl, hlevel, hbefore, hafter⟩ := h before c s rfl hblank
          cases s with
          | nil => contradiction
          | cons d s =>
              obtain ⟨hd, hequals⟩ := takesBlank_eq_true_iff.1 hafter
              have hprevious : before.getLast?.any (· != '=') = true := by
                cases hfinal : before.getLast? with
                | none =>
                    rw [hfinal] at hbefore
                    contradiction
                | some e =>
                    rw [hfinal] at hbefore
                    simpa using (takesBlank_eq_true_iff.1 hbefore).2
              have hrest := @ih s.length (by simp at hsize; omega) s (before ++ [' ', d])
                (by simpa using h) (by simpa using hd) rfl
              rw [respace, if_neg (by simp [hd])]
              simpa [hlevel, hequals, hprevious, level_append] using hrest
        next hc =>
          rw [Bool.not_eq_true] at hc
          have hrest := @ih s.length (by simp at hsize; omega) s (before ++ [c]) (by simpa using h)
            (by simpa using hc) rfl
          simpa [level_append] using hrest

/-- The texts that stay as they are are those in normal spacing. -/
theorem normalSpacing_eq_self_iff : normalSpacing s = s ↔ IsSpaced s :=
  ⟨fun h => h ▸ isSpaced_normalSpacing s, fun h => @IsSpaced.respace_eq s [] h rfl⟩

theorem withoutBlanks_respace (depth : Nat) (pending : Bool) (last : Option Char) (s : Text) :
    withoutBlanks (respace depth pending last s) = withoutBlanks s := by
  induction s generalizing depth pending last with
  | nil => rfl
  | cons c s ih =>
      have hlater := ih (nest depth c) false (some c)
      rw [respace]
      split
      next hblank =>
        rw [ih, withoutBlanks, withoutBlanks, List.filter_cons_of_neg (by simp [hblank])]
      next hc =>
        unfold withoutBlanks at hlater ⊢
        dsimp only
        split
        · rw [List.filter_cons_of_neg (by decide), List.filter_cons_of_pos (by simpa using hc),
            List.filter_cons_of_pos (by simpa using hc), hlater]
        · rw [List.filter_cons_of_pos (by simpa using hc),
            List.filter_cons_of_pos (by simpa using hc), hlater]

/-- Only blanks come and go with the spacing. -/
theorem withoutBlanks_normalSpacing (s : Text) :
    withoutBlanks (normalSpacing s) = withoutBlanks s :=
  withoutBlanks_respace 0 false none s

end Text

end OdeModel
