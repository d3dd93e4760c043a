import OdeModel.Line.Array
import OdeModel.Proofs.Text.Operands

/-!
# The index in place of the variable

Replacing goes through a text from left to right: a name that is the variable gives way to
the index, and every other operand and every character in between stays.
-/

namespace OdeModel

namespace Text

variable {variableName index : Text} {s : Text}

/-- A text that stands at position `offset`, with the index in place of the variable. -/
def replaceFrom (variableName index : Text) (offset : Nat) (s : Text) : Text :=
  replaceOperands variableName index offset (operandsFrom offset s) s

/-- What stands in place of an operand. -/
def replacement (variableName index : Text) (operand : Operand) : Text :=
  if !operand.isNumber && operand.text == variableName then index else operand.text

theorem replaceFrom_nil (offset : Nat) : replaceFrom variableName index offset [] = [] := by
  rw [replaceFrom, operandsFrom, replaceOperands]

/-- A character before the operands stays. -/
theorem replaceOperands_cons {offset : Nat} {c : Char} {operands : List Operand}
    (hbehind : ∀ operand ∈ operands, offset + c.utf8Size ≤ operand.offset) (s : Text) :
    replaceOperands variableName index offset operands (c :: s) =
      c :: replaceOperands variableName index (offset + c.utf8Size) operands s := by
  cases operands with
  | nil => rfl
  | cons operand later =>
      have hle := hbehind operand List.mem_cons_self
      have hpos := c.utf8Size_pos
      have htake : takeBytes (operand.offset - offset) (c :: s) =
          c :: takeBytes (operand.offset - (offset + c.utf8Size)) s := by
        rw [takeBytes, if_neg (by omega), Nat.sub_sub]
      have hdrop : dropBytes (operand.offset + width operand.text - offset) (c :: s) =
          dropBytes (operand.offset + width operand.text - (offset + c.utf8Size)) s := by
        rw [dropBytes, if_neg (by omega), Nat.sub_sub]
      rw [replaceOperands, replaceOperands, htake, hdrop]
      rfl

theorem replaceFrom_skip {offset : Nat} {c : Char}
    (h : operandsFrom offset (c :: s) = operandsFrom (offset + c.utf8Size) s) :
    replaceFrom variableName index offset (c :: s) =
      c :: replaceFrom variableName index (offset + c.utf8Size) s := by
  rw [replaceFrom, h, replaceFrom]
  exact replaceOperands_cons (pairwise_operandsFrom (offset + c.utf8Size) s).1 s

theorem replaceFrom_operand {operand : Operand}
    (h : operandsFrom operand.offset (operand.text ++ s) =
      operand :: operandsFrom operand.stop s) :
    replaceFrom variableName index operand.offset (operand.text ++ s) =
      replacement variableName index operand ++
        replaceFrom variableName index operand.stop s := by
  rw [replaceFrom, h, replaceOperands, Nat.sub_self, takeBytes_zero, Nat.add_sub_cancel_left,
    dropBytes_width_append]
  rfl

variable (offset : Nat)

theorem replaceFrom_cons {c : Char} (hstart : isNameStart c = false)
    (hnumber : startsNumber (c :: s) = false) :
    replaceFrom variableName index offset (c :: s) =
      c :: replaceFrom variableName index (offset + c.utf8Size) s :=
  replaceFrom_skip (by rw [operandsFrom, if_neg (by simp [hstart]), if_neg (by simp [hnumber])])

theorem replaceFrom_name {c : Char} {letters : Text} (hc : isNameStart c = true)
    (hletters : ∀ d ∈ letters, isNameChar d = true)
    (hstop : ∀ d ∈ s.head?, isNameChar d = false) :
    replaceFrom variableName index offset (c :: (letters ++ s)) =
      (if c :: letters = variableName then index else c :: letters) ++
        replaceFrom variableName index (offset + width (c :: letters)) s := by
  have hall : ∀ d ∈ c :: letters, isNameChar d = true :=
    List.forall_mem_cons.2 ⟨isNameChar_of_isNameStart hc, hletters⟩
  obtain ⟨htake, hdrop⟩ := takeWhile_dropWhile_append hall hstop
  have hoperands : operandsFrom offset (c :: (letters ++ s)) =
      ⟨offset, c :: letters, false⟩ :: operandsFrom (offset + width (c :: letters)) s := by
    rw [operandsFrom, if_pos hc, ← List.cons_append, htake, hdrop]
  have hreplaced :=
    @replaceFrom_operand variableName index s ⟨offset, c :: letters, false⟩ hoperands
  simpa [replacement, Operand.stop] using hreplaced

theorem replaceFrom_number {c : Char} {figures : Text} (hc : isNameStart c = false)
    (hnumber : startsNumber (c :: (figures ++ s)) = true)
    (hspan : spanNumber (c :: (figures ++ s)) = (c :: figures, s)) :
    replaceFrom variableName index offset (c :: (figures ++ s)) =
      c :: (figures ++ replaceFrom variableName index (offset + width (c :: figures)) s) := by
  have hoperands : operandsFrom offset (c :: (figures ++ s)) =
      ⟨offset, c :: figures, true⟩ :: operandsFrom (offset + width (c :: figures)) s := by
    rw [operandsFrom, if_neg (by simp [hc]), if_pos hnumber, hspan]
  exact @replaceFrom_operand variableName index s ⟨offset, c :: figures, true⟩ hoperands

/-- A replaced text starts as before, or with an index in place of a name. -/
theorem head?_replaceFrom (s : Text) :
    (replaceFrom variableName index offset s).head? = s.head? ∨
      (s.head?.any isNameStart = true ∧ index <+: replaceFrom variableName index offset s) := by
  induction offset, s using operandsFrom_induction with
  | nil offset => exact .inl (by rw [replaceFrom_nil])
  | skip offset c rest _ _ heq _ => exact .inl (by rw [replaceFrom_skip heq]; rfl)
  | operand operand rest hfits heq _ =>
      rw [replaceFrom_operand heq, List.head?_append_of_ne_nil _ hfits.ne_nil]
      unfold replacement
      split
      next hreplaced =>
        rw [Bool.and_eq_true, Bool.not_eq_true'] at hreplaced
        exact .inr ⟨(hfits.name hreplaced.1).1, List.prefix_append _ _⟩
      next => exact .inl (List.head?_append_of_ne_nil _ hfits.ne_nil)

/-! ### Equals signs -/

theorem not_mem_spanExponent (s : Text) : '=' ∉ (spanExponent s).1 := by
  have hsign : ∀ s : Text, '=' ∉ (spanSign s).1 := by
    intro s
    unfold spanSign
    split
    next => exact List.not_mem_nil
    next c rest =>
      split
      next hc =>
        rw [List.mem_singleton]
        rintro rfl
        contradiction
      next => exact List.not_mem_nil
  unfold spanExponent
  split
  next => exact List.not_mem_nil
  next e rest =>
    split
    next he =>
      rw [List.cons_append, List.mem_cons, List.mem_append]
      rintro (rfl | hmem | hmem)
      · rw [Bool.and_eq_true] at he
        exact absurd he.1 (by decide)
      · exact hsign rest hmem
      · exact absurd (List.mem_takeWhile_imp hmem) (by decide)
    next => exact List.not_mem_nil

/-- No operand has an equals sign in it. -/
theorem not_mem_of_fits {operand : Operand} {after : Text} (h : operand.Fits after) :
    '=' ∉ operand.text := by
  intro hmem
  cases hnumber : operand.isNumber with
  | true =>
      have hspan : (spanNumber (operand.text ++ after)).1 = operand.text := by
        rw [(h.number hnumber).2]
      rw [← hspan, spanNumber, List.mem_append] at hmem
      rcases hmem with hmem | hmem
      · exact absurd (List.mem_takeWhile_imp hmem) (by decide)
      · exact not_mem_spanExponent _ hmem
  | false => exact absurd ((h.name hnumber).2.1 '=' hmem) (by decide)

theorem not_mem_replacement (hindex : '=' ∉ index) {operand : Operand} {after : Text}
    (h : operand.Fits after) : '=' ∉ replacement variableName index operand := by
  unfold replacement
  split
  next => exact hindex
  next => exact not_mem_of_fits h

theorem not_mem_replaceFrom (hindex : '=' ∉ index) (hs : '=' ∉ s) :
    '=' ∉ replaceFrom variableName index offset s := by
  induction offset, s using operandsFrom_induction with
  | nil offset =>
      rw [replaceFrom_nil]
      exact List.not_mem_nil
  | skip offset c rest _ _ heq ih =>
      rw [List.mem_cons, not_or] at hs
      rw [replaceFrom_skip heq, List.mem_cons, not_or]
      exact ⟨hs.1, ih hs.2⟩
  | operand operand rest hfits heq ih =>
      rw [List.mem_append, not_or] at hs
      rw [replaceFrom_operand heq, List.mem_append, not_or]
      exact ⟨not_mem_replacement hindex hfits, ih hs.2⟩

/-- Replacing does not reach over an equals sign. -/
theorem exists_replaceFrom_append (variableName : Text) (hindex : '=' ∉ index) {before : Text}
    (hbefore : '=' ∉ before) (after : Text) :
    ∃ left position, replaceFrom variableName index offset (before ++ '=' :: after) =
      left ++ '=' :: replaceFrom variableName index position after ∧ '=' ∉ left := by
  generalize hs : before ++ '=' :: after = s
  induction offset, s using operandsFrom_induction generalizing before with
  | nil offset => simp at hs
  | skip offset c rest _ _ heq ih =>
      rw [replaceFrom_skip heq]
      cases before with
      | nil =>
          rw [List.nil_append, List.cons.injEq] at hs
          obtain ⟨rfl, rfl⟩ := hs
          exact ⟨[], _, rfl, List.not_mem_nil⟩
      | cons d before =>
          rw [List.cons_append, List.cons.injEq] at hs
          obtain ⟨rfl, hrest⟩ := hs
          obtain ⟨hd, hbefore⟩ := not_or.1 (List.mem_cons.not.1 hbefore)
          obtain ⟨left, position, heq', hleft⟩ := ih hbefore hrest
          exact ⟨d :: left, position, by rw [heq']; rfl,
            fun hmem => (List.mem_cons.1 hmem).elim hd hleft⟩
  | operand operand rest hfits heq ih =>
      rw [replaceFrom_operand heq]
      obtain ⟨between, rfl, hrest⟩ : ∃ between, before = operand.text ++ between ∧
          between ++ '=' :: after = rest := by
        rcases List.append_eq_append_iff.1 hs with ⟨between, hbetween, hrest⟩ | ⟨between, h, hrest⟩
        · cases between with
          | nil => exact ⟨[], by simpa using hbetween.symm, by simpa using hrest⟩
          | cons d between =>
              rw [List.cons_append, List.cons.injEq] at hrest
              obtain ⟨rfl, -⟩ := hrest
              exact absurd (by simp [hbetween]) (not_mem_of_fits hfits)
        · exact ⟨between, h, hrest.symm⟩
      obtain ⟨left, position, heq', hleft⟩ :=
        ih (fun hmem => hbefore (List.mem_append_right _ hmem)) hrest
      refine ⟨replacement variableName index operand ++ left, position, ?_, ?_⟩
      · rw [heq', List.append_assoc]
      · rw [List.mem_append, not_or]
        exact ⟨not_mem_replacement hindex hfits, hleft⟩

end Text

end OdeModel
