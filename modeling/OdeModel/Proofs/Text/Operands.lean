import OdeModel.Text.Operand
import OdeModel.Proofs.Text.Runs
import Mathlib.Data.List.Pairwise
import Mathlib.Data.List.TakeWhile

/-!
# The operands of a text

Operands stand in a text one behind the other. A name among them reaches to the end
of its run, and no letter and no digit of the text is left out.
-/

namespace OdeModel

namespace Operand

/-- Position after the last character. -/
def stop (operand : Operand) : Nat := operand.offset + Text.width operand.text

/-- The operand reaches over a byte position. -/
def Covers (operand : Operand) (position : Nat) : Prop :=
  operand.offset ≤ position ∧ position < operand.stop

/-- One of the operands ends before the other one starts. -/
def Separate (operand other : Operand) : Prop :=
  operand.stop ≤ other.offset ∨ other.stop ≤ operand.offset

instance : Std.Symm Separate where
  symm _ _ := Or.symm

/-- What an operand is when the text goes on with `after`: a number is all that a
literal takes, and a name starts like one and ends where its run does. -/
structure Fits (operand : Operand) (after : Text) : Prop where
  ne_nil : operand.text ≠ []
  number : operand.isNumber = true →
    Text.startsNumber (operand.text ++ after) = true ∧
      Text.spanNumber (operand.text ++ after) = (operand.text, after)
  name : operand.isNumber = false → operand.text.head?.any isNameStart = true ∧
    Text.IsNameText operand.text ∧ after.head?.any isNameChar = false

namespace Fits

variable {operand : Operand} {after : Text}

/-- A name is its first character and all name characters behind it. -/
theorem name_eq (h : operand.Fits after) (hname : operand.isNumber = false) :
    ∃ c run, operand.text = c :: run ∧ isNameStart c = true ∧
      run = (run ++ after).takeWhile isNameChar := by
  obtain ⟨hstart, hrun, hafter⟩ := h.name hname
  obtain ⟨c, run, htext⟩ := List.exists_cons_of_ne_nil h.ne_nil
  rw [htext] at hstart hrun
  refine ⟨c, run, htext, hstart, ?_⟩
  have hstop : after.takeWhile isNameChar = [] := by
    cases after with
    | nil => rfl
    | cons d after => exact List.takeWhile_cons_of_neg (by simpa using hafter)
  rw [List.takeWhile_append_of_pos (List.forall_mem_cons.1 hrun).2, hstop, List.append_nil]

end Fits

end Operand

namespace Text

/-- Two ways to cut a text in two: the one that cuts later has the more in front. -/
theorem exists_append_of_width_le {before before' s s' : Text}
    (h : before ++ s = before' ++ s') (hle : width before ≤ width before') :
    ∃ between, before' = before ++ between ∧ s = between ++ s' := by
  rcases List.append_eq_append_iff.1 h with ⟨between, hbefore, hs⟩ | ⟨between, hbefore, hs⟩
  · exact ⟨between, hbefore, hs⟩
  · cases between with
    | nil => exact ⟨[], by simpa using hbefore.symm, by simpa using hs.symm⟩
    | cons c between =>
        have := c.utf8Size_pos
        rw [hbefore, width_append, width_cons] at hle
        omega

theorem isNameStart_of_isDigit {c : Char} (h : c.isDigit = true) : isNameStart c = false := by
  have hascii : c.toNat < 128 := toNat_lt_of_ascii (by simp [h])
  have halpha : c.isAlpha = false := by
    unfold Char.isDigit at h
    unfold Char.isAlpha Char.isUpper Char.isLower
    simp only [Bool.and_eq_true, decide_eq_true_eq, Bool.or_eq_false_iff, Bool.and_eq_false_iff,
      decide_eq_false_iff_not] at h ⊢
    grind
  have hunderscore : (c == '_') = false := by
    rw [beq_eq_false_iff_ne]
    rintro rfl
    exact absurd h (by decide)
  rw [isNameStart, isLetter, if_pos hascii, halpha, hunderscore, Bool.or_self]

/-- A number starts with no letter. -/
theorem isNameStart_of_startsNumber {c : Char} {rest : Text}
    (h : startsNumber (c :: rest) = true) : isNameStart c = false := by
  cases rest with
  | nil => exact isNameStart_of_isDigit h
  | cons d rest =>
      simp only [startsNumber, Bool.or_eq_true, Bool.and_eq_true, beq_iff_eq] at h
      rcases h with hdigit | ⟨rfl, -⟩
      · exact isNameStart_of_isDigit hdigit
      · decide

/-- The only letter of an exponent is the `e` or `E` that it starts with. -/
theorem spanExponent_fst (s : Text) :
    (spanExponent s).1 = [] ∨ ∃ e rest, (spanExponent s).1 = e :: rest ∧ (e = 'e' ∨ e = 'E') ∧
      ∀ c ∈ rest, isNameStart c = false := by
  cases s with
  | nil => exact Or.inl rfl
  | cons e s =>
      rw [spanExponent]
      split
      next h =>
        rw [Bool.and_eq_true, Bool.or_eq_true, beq_iff_eq, beq_iff_eq] at h
        refine Or.inr ⟨e, _, rfl, h.1, fun c hc => ?_⟩
        rcases List.mem_append.1 hc with hc | hc
        · cases s with
          | nil => simp [spanSign] at hc
          | cons d s =>
              rw [spanSign] at hc
              split at hc
              next hsign =>
                rw [List.mem_singleton] at hc
                subst hc
                rw [Bool.or_eq_true, beq_iff_eq, beq_iff_eq] at hsign
                rcases hsign with rfl | rfl <;> decide
              next => simp at hc
        · exact isNameStart_of_isDigit (List.mem_takeWhile_imp hc)
      next => exact Or.inl rfl

/-- The only letter of a number literal is the `e` or `E` of its exponent, which
stands behind a digit or a point. -/
theorem spanNumber_letter {s before after : Text} {c : Char} (hs : startsNumber s = true)
    (hsplit : (spanNumber s).1 = before ++ c :: after) (hc : isNameStart c = true) :
    (c = 'e' ∨ c = 'E') ∧ ∃ d, before.getLast? = some d ∧ (d.isDigit = true ∨ d = '.') := by
  have hmantissa : ∀ d ∈ s.takeWhile (fun c => c.isDigit || c == '.'),
      d.isDigit = true ∨ d = '.' := by
    intro d hd
    simpa using List.mem_takeWhile_imp hd
  have hne : s.takeWhile (fun c => c.isDigit || c == '.') ≠ [] := by
    match s, hs with
    | [d], hs => simp_all [startsNumber]
    | d :: e :: s, hs =>
        simp only [startsNumber, Bool.or_eq_true, Bool.and_eq_true] at hs
        have : (d.isDigit || d == '.') = true := by
          rw [Bool.or_eq_true]
          exact hs.imp id And.left
        simp [this]
  have hnot : ¬ (c.isDigit = true ∨ c = '.') := by
    rintro (h | rfl)
    · rw [isNameStart_of_isDigit h] at hc
      contradiction
    · exact absurd hc (by decide)
  -- the letter stands behind the digits and points that the literal starts with
  obtain ⟨inner, hbefore, hexponent⟩ : ∃ inner,
      before = s.takeWhile (fun c => c.isDigit || c == '.') ++ inner ∧
        (spanExponent (s.dropWhile fun c => c.isDigit || c == '.')).1 = inner ++ c :: after := by
    rw [spanNumber] at hsplit
    rcases List.append_eq_append_iff.1 hsplit with h | ⟨inner, hfirst, hlater⟩
    · exact h
    · cases inner with
      | nil => exact ⟨[], by simpa using hfirst.symm, by simpa using hlater.symm⟩
      | cons d inner =>
          rw [List.cons_append, List.cons.injEq] at hlater
          exact absurd (hmantissa c (by simp [hfirst, hlater.1])) hnot
  obtain hnil | ⟨e, rest, hspan, he, hrest⟩ :=
    spanExponent_fst (s.dropWhile fun c => c.isDigit || c == '.')
  · simp [hnil] at hexponent
  · rw [hspan] at hexponent
    cases inner with
    | nil =>
        rw [List.nil_append, List.cons.injEq] at hexponent
        refine ⟨hexponent.1 ▸ he, _, ?_, hmantissa _ (List.getLast_mem hne)⟩
        rw [hbefore, List.append_nil, List.getLast?_eq_some_getLast hne]
    | cons d inner =>
        rw [List.cons_append, List.cons.injEq] at hexponent
        rw [hrest c (by simp [hexponent.2])] at hc
        contradiction

theorem isDigit_of_not_startsNumber {c : Char} {rest : Text}
    (h : ¬ startsNumber (c :: rest) = true) : c.isDigit = false := by
  rw [Bool.not_eq_true] at h
  cases rest with
  | nil => exact h
  | cons d rest => exact (Bool.or_eq_false_iff.1 h).1

/-- A text is read operand by operand, and the characters in between are no letters and
no digits. -/
theorem operandsFrom_induction {motive : Nat → Text → Prop} (nil : ∀ offset, motive offset [])
    (skip : ∀ offset c rest, isNameStart c = false → c.isDigit = false →
      operandsFrom offset (c :: rest) = operandsFrom (offset + c.utf8Size) rest →
      motive (offset + c.utf8Size) rest → motive offset (c :: rest))
    (operand : ∀ (operand : Operand) rest, operand.Fits rest →
      operandsFrom operand.offset (operand.text ++ rest) =
        operand :: operandsFrom operand.stop rest →
      motive operand.stop rest → motive operand.offset (operand.text ++ rest))
    (offset : Nat) (s : Text) : motive offset s := by
  induction offset, s using operandsFrom.induct with
  | case1 offset => exact nil offset
  | case2 offset c rest hstart name ih =>
      have hne : name ≠ [] := by
        simp [name, isNameChar_of_isNameStart hstart]
      have hfits : Operand.Fits ⟨offset, name, false⟩ ((c :: rest).dropWhile isNameChar) := by
        refine ⟨hne, by simp, fun _ => ⟨?_, fun d hd => List.mem_takeWhile_imp hd, ?_⟩⟩
        · simp [name, isNameChar_of_isNameStart hstart, hstart]
        · have hstop := List.head?_dropWhile_not isNameChar (c :: rest)
          cases hhead : ((c :: rest).dropWhile isNameChar).head? with
          | none => rfl
          | some d => simpa [hhead] using hstop
      have hstep := operand _ _ hfits
      rw [List.takeWhile_append_dropWhile] at hstep
      exact hstep (by rw [operandsFrom, if_pos hstart]; rfl) ih
  | case3 offset c rest hstart hnumber number ih =>
      have hfits : Operand.Fits ⟨offset, number, true⟩ (spanNumber (c :: rest)).2 := by
        refine ⟨spanNumber_fst_ne_nil hnumber, fun _ => ?_, by simp⟩
        dsimp only [number]
        rw [spanNumber_append]
        exact ⟨hnumber, rfl⟩
      have hstep := operand _ _ hfits
      rw [spanNumber_append] at hstep
      exact hstep (by rw [operandsFrom, if_neg hstart, if_pos hnumber]; rfl) ih
  | case4 offset c rest hstart hnumber ih =>
      refine skip offset c rest (by simpa using hstart) (isDigit_of_not_startsNumber hnumber) ?_ ih
      rw [operandsFrom, if_neg hstart, if_neg hnumber]

/-- The operands of a text are read one by one, and the characters in between are no
letters and no digits. -/
theorem operands_induction {motive : Nat → Text → List Operand → Prop}
    (nil : ∀ offset, motive offset [] [])
    (skip : ∀ offset c rest operands, isNameStart c = false → c.isDigit = false →
      motive (offset + c.utf8Size) rest operands → motive offset (c :: rest) operands)
    (operand : ∀ (operand : Operand) rest operands, operand.Fits rest →
      motive operand.stop rest operands →
        motive operand.offset (operand.text ++ rest) (operand :: operands))
    (offset : Nat) (s : Text) : motive offset s (operandsFrom offset s) := by
  induction offset, s using operandsFrom_induction with
  | nil offset => simpa [operandsFrom] using nil offset
  | skip offset c rest hstart hdigit heq ih =>
      rw [heq]
      exact skip offset c rest _ hstart hdigit ih
  | operand first rest hfits heq ih =>
      rw [heq]
      exact operand first rest _ hfits ih

/-- Every operand stands in the text at its offset. -/
theorem exists_of_mem_operandsFrom (offset : Nat) (s : Text) :
    ∀ operand ∈ operandsFrom offset s, ∃ before after, s = before ++ operand.text ++ after ∧
      operand.offset = offset + width before ∧ operand.Fits after := by
  induction offset, s using operands_induction with
  | nil => simp
  | skip offset c rest operands _ _ ih =>
      intro operand hmem
      obtain ⟨before, after, rfl, hoffset, hfits⟩ := ih operand hmem
      exact ⟨c :: before, after, rfl, by rw [hoffset, width_cons, Nat.add_assoc], hfits⟩
  | operand first rest operands hfirst ih =>
      rw [List.forall_mem_cons]
      refine ⟨⟨[], rest, rfl, rfl, hfirst⟩, fun operand hmem => ?_⟩
      obtain ⟨before, after, rfl, hoffset, hfits⟩ := ih operand hmem
      refine ⟨first.text ++ before, after, by simp, ?_, hfits⟩
      rw [hoffset, Operand.stop, width_append, Nat.add_assoc]

theorem offset_lt_stop_of_mem_operandsFrom {offset : Nat} {s : Text} {operand : Operand}
    (hmem : operand ∈ operandsFrom offset s) : operand.offset < operand.stop := by
  obtain ⟨_, _, -, -, hfits⟩ := exists_of_mem_operandsFrom offset s operand hmem
  obtain ⟨c, rest, htext⟩ := List.exists_cons_of_ne_nil hfits.ne_nil
  have := c.utf8Size_pos
  rw [Operand.stop, htext, width_cons]
  omega

/-- Operands stand one behind the other. -/
theorem pairwise_operandsFrom (offset : Nat) (s : Text) :
    (∀ operand ∈ operandsFrom offset s, offset ≤ operand.offset) ∧
      (operandsFrom offset s).Pairwise fun first second => first.stop ≤ second.offset := by
  induction offset, s using operands_induction with
  | nil => simp
  | skip offset c rest operands _ _ ih =>
      refine ⟨fun operand hmem => ?_, ih.2⟩
      have := ih.1 operand hmem
      omega
  | operand first rest operands _ ih =>
      rw [List.forall_mem_cons, List.pairwise_cons]
      refine ⟨⟨Nat.le_refl _, fun operand hmem => ?_⟩, ih⟩
      have := ih.1 operand hmem
      unfold Operand.stop at this
      omega

theorem pairwise_offset_operandsFrom (offset : Nat) (s : Text) :
    (operandsFrom offset s).Pairwise fun first second => first.offset < second.offset :=
  (pairwise_operandsFrom offset s).2.imp_of_mem fun hmem _ hle =>
    Nat.lt_of_lt_of_le (offset_lt_stop_of_mem_operandsFrom hmem) hle

/-- Different operands do not overlap. -/
theorem disjoint_operandsFrom (offset : Nat) (s : Text) :
    ∀ operand ∈ operandsFrom offset s, ∀ other ∈ operandsFrom offset s,
      operand = other ∨ operand.stop ≤ other.offset ∨ other.stop ≤ operand.offset := by
  have hseparate : (operandsFrom offset s).Pairwise Operand.Separate :=
    (pairwise_operandsFrom offset s).2.imp Or.inl
  intro operand hmem other hother
  by_cases hsame : operand = other
  · exact Or.inl hsame
  · exact Or.inr (hseparate.forall hmem hother hsame)

/-- Every digit and every character that a name may start with is one of an operand. -/
theorem exists_mem_text_operandsFrom (offset : Nat) (s : Text) :
    ∀ before c after, s = before ++ c :: after → (c.isDigit = true ∨ isNameStart c = true) →
      ∃ operand ∈ operandsFrom offset s, ∃ left right, operand.text = left ++ c :: right ∧
        offset + width before = operand.offset + width left := by
  induction offset, s using operands_induction with
  | nil => simp
  | skip offset d rest operands hstart hdigit ih =>
      intro before c after hsplit hc
      cases before with
      | nil =>
          rw [List.nil_append, List.cons.injEq] at hsplit
          rw [← hsplit.1, hstart, hdigit] at hc
          simp at hc
      | cons e before =>
          rw [List.cons_append, List.cons.injEq] at hsplit
          obtain ⟨operand, hmem, left, right, htext, hplace⟩ := ih before c after hsplit.2 hc
          refine ⟨operand, hmem, left, right, htext, ?_⟩
          rw [← hplace, width_cons, ← Nat.add_assoc, hsplit.1]
  | operand first rest operands _ ih =>
      -- the character is one of the first operand's, or of what stands behind it
      have hlater : ∀ before c after, rest = before ++ c :: after →
          (c.isDigit = true ∨ isNameStart c = true) →
          ∃ operand ∈ first :: operands, ∃ left right, operand.text = left ++ c :: right ∧
            first.offset + width (first.text ++ before) = operand.offset + width left := by
        intro before c after hrest hc
        obtain ⟨operand, hmem, left, right, htext, hplace⟩ := ih before c after hrest hc
        refine ⟨operand, List.mem_cons_of_mem _ hmem, left, right, htext, ?_⟩
        rw [← hplace, width_append, ← Nat.add_assoc]
        rfl
      intro before c after hsplit hc
      rw [List.append_eq_append_iff] at hsplit
      rcases hsplit with ⟨inner, rfl, hrest⟩ | ⟨inner, hfirst, hrest⟩
      · exact hlater inner c after hrest hc
      · cases inner with
        | nil =>
            rw [List.append_nil] at hfirst
            simpa [hfirst] using hlater [] c after hrest.symm hc
        | cons d inner =>
            rw [List.cons_append, List.cons.injEq] at hrest
            rw [← hrest.1] at hfirst
            exact ⟨first, List.mem_cons_self, before, inner, hfirst, rfl⟩

/-- Every character that a name may start with belongs to an operand. -/
theorem exists_covers_of_isNameStart (offset : Nat) (s : Text) :
    ∀ before c after, s = before ++ c :: after → isNameStart c = true →
      ∃ operand ∈ operandsFrom offset s, operand.Covers (offset + width before) := by
  intro before c after hsplit hc
  obtain ⟨operand, hmem, left, right, htext, hplace⟩ :=
    exists_mem_text_operandsFrom offset s before c after hsplit (Or.inr hc)
  have hpos := c.utf8Size_pos
  refine ⟨operand, hmem, ?_, ?_⟩
  · omega
  · rw [Operand.stop, htext, hplace, width_append, width_cons]
    omega

/-- At most one operand holds the bytes of a character. -/
theorem eq_of_mem_operandsFrom {offset : Nat} {s : Text} {first second : Operand} {place size : Nat}
    (hfirst : first ∈ operandsFrom offset s) (hsecond : second ∈ operandsFrom offset s)
    (hsize : 0 < size) (hin : first.offset ≤ place ∧ place + size ≤ first.stop)
    (hin' : second.offset ≤ place ∧ place + size ≤ second.stop) : first = second := by
  rcases disjoint_operandsFrom offset s first hfirst second hsecond with h | h | h
  · exact h
  · omega
  · omega

/-- The operands of a text stand in it at their offsets, one behind the other. A name among
them is a letter or an underscore and all name characters behind it. Every digit, letter and
underscore of the text is in one operand and in no other. -/
theorem operands_exhaustive (s : Text) :
    ((operands s).Pairwise fun first second =>
      first.offset < second.offset ∧ first.stop ≤ second.offset) ∧
    (∀ operand ∈ operands s, ∃ before after, s = before ++ operand.text ++ after ∧
      operand.offset = width before ∧ operand.text ≠ [] ∧
      (operand.isNumber = false → ∃ c run, operand.text = c :: run ∧ isNameStart c = true ∧
        run = (run ++ after).takeWhile isNameChar)) ∧
    ∀ before c after, s = before ++ c :: after → (c.isDigit = true ∨ isNameStart c = true) →
      ∃! operand, operand ∈ operands s ∧ operand.offset ≤ width before ∧
        width (before ++ [c]) ≤ operand.stop := by
  refine ⟨?_, fun operand hmem => ?_, fun before c after hsplit hc => ?_⟩
  · exact (pairwise_offset_operandsFrom 0 s).and (pairwise_operandsFrom 0 s).2
  · obtain ⟨before, after, hsplit, hoffset, hfits⟩ := exists_of_mem_operandsFrom 0 s operand hmem
    rw [Nat.zero_add] at hoffset
    exact ⟨before, after, hsplit, hoffset, hfits.ne_nil, fun hname => hfits.name_eq hname⟩
  · obtain ⟨operand, hmem, left, right, htext, hplace⟩ :=
      exists_mem_text_operandsFrom 0 s before c after hsplit hc
    have hholds : operand.offset ≤ width before ∧ width (before ++ [c]) ≤ operand.stop := by
      rw [Operand.stop, htext]
      simp only [width_append, width_cons, width_nil]
      omega
    refine ⟨operand, ⟨hmem, hholds⟩, fun other hother => ?_⟩
    have hsize : width (before ++ [c]) = width before + c.utf8Size := by simp
    rw [hsize] at hholds hother
    exact eq_of_mem_operandsFrom hother.1 hmem c.utf8Size_pos hother.2 hholds

/-- In `2é_1+1.5e3k` the letter behind the number is a name of its own, and the one of the
exponent is part of the number. -/
theorem operands_exhaustive_glued :
    "2é_1+1.5e3k".toList = "2é_1+1.5e3".toList ++ 'k' :: [] ∧ isNameStart 'k' = true ∧
      (∃! operand, operand ∈ operands "2é_1+1.5e3k".toList ∧
        operand.offset ≤ width "2é_1+1.5e3".toList ∧
        width ("2é_1+1.5e3".toList ++ ['k']) ≤ operand.stop) ∧
      ⟨11, ['k'], false⟩ ∈ operands "2é_1+1.5e3k".toList :=
  ⟨by decide, by decide, (operands_exhaustive _).2.2 _ 'k' [] (by decide) (Or.inr (by decide)),
    by decide +kernel⟩

end Text

end OdeModel
