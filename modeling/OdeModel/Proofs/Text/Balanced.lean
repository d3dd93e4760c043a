import OdeModel.Inlining.Atomic
import OdeModel.Proofs.Text.Runs

/-!
# Balanced texts

A text in which every bracket is closed is passed over when the end of a bracket
around it is looked for.
-/

namespace OdeModel

/-- Brackets belong to neither a number nor a name. -/
theorem not_bracket {c : Char} (h : (c.isDigit || c == '.') = true ∨ isNameChar c = true) :
    isOpening c = false ∧ isClosing c = false := by
  constructor
  · rw [Bool.eq_false_iff]
    intro hopening
    simp only [isOpening, Bool.or_eq_true, beq_iff_eq] at hopening
    rcases hopening with (rfl | rfl) | rfl <;> revert h <;> decide
  · rw [Bool.eq_false_iff]
    intro hclosing
    simp only [isClosing, Bool.or_eq_true, beq_iff_eq] at hclosing
    rcases hclosing with (rfl | rfl) | rfl <;> revert h <;> decide

theorem isOpening_of_isClosing {c : Char} (h : isClosing c = true) : isOpening c = false := by
  simp only [isClosing, Bool.or_eq_true, beq_iff_eq] at h
  rcases h with (rfl | rfl) | rfl <;> decide

theorem isClosing_of_isOpening {c : Char} (h : isOpening c = true) : isClosing c = false := by
  simp only [isOpening, Bool.or_eq_true, beq_iff_eq] at h
  rcases h with (rfl | rfl) | rfl <;> decide

/-- Closing brackets of one kind are the same. -/
theorem eq_of_openingOf_eq {c d : Char} (hc : isClosing c = true) (hd : isClosing d = true)
    (h : openingOf c = openingOf d) : c = d := by
  simp only [isClosing, Bool.or_eq_true, beq_iff_eq] at hc hd
  rcases hc with (rfl | rfl) | rfl <;> rcases hd with (rfl | rfl) | rfl <;>
    first | rfl | exact absurd h (by decide)

theorem utf8Size_of_isOpening {c : Char} (h : isOpening c = true) : c.utf8Size = 1 := by
  simp only [isOpening, Bool.or_eq_true, beq_iff_eq] at h
  rcases h with (rfl | rfl) | rfl <;> decide

theorem nest_open {c : Char} (h : isOpening c = true) (depth : Nat) :
    nest depth c = depth + 1 := by
  simp [nest, h]

theorem nest_close {c : Char} (h : isClosing c = true) (depth : Nat) :
    nest (depth + 1) c = depth := by
  simp [nest, h, isOpening_of_isClosing h]

theorem nest_other {c : Char} (hopening : isOpening c = false) (hclosing : isClosing c = false)
    (depth : Nat) : nest depth c = depth := by
  simp [nest, hopening, hclosing]

namespace Text

theorem untilClosed_of_not_bracket {c : Char} (hopening : isOpening c = false)
    (hclosing : isClosing c = false) (depth : Nat) (rest : Text) :
    untilClosed depth (c :: rest) =
      (untilClosed depth rest).map fun found => (c :: found.1, found.2) := by
  rw [untilClosed.eq_def]
  simp [hopening, hclosing]

theorem untilClosed_open {c : Char} (hopening : isOpening c = true) (depth : Nat)
    (rest : Text) :
    untilClosed depth (c :: rest) =
      (untilClosed (depth + 1) rest).map fun found => (c :: found.1, found.2) := by
  rw [untilClosed.eq_def]
  simp [hopening]

theorem untilClosed_close {c : Char} (hopening : isOpening c = false)
    (hclosing : isClosing c = true) (depth : Nat) (rest : Text) :
    untilClosed (depth + 1) (c :: rest) =
      if depth = 0 then some ([], rest)
      else (untilClosed depth rest).map fun found => (c :: found.1, found.2) := by
  rw [untilClosed.eq_def]
  cases depth <;> simp [hopening, hclosing]

/-- A text is read up to the bracket that closes it: the last open one is closed, or a
bracket or another character is passed and the reading goes on behind it. -/
theorem untilClosed_induction {later : Text} {motive : (depth : Nat) → (s inside : Text) → Prop}
    (last : ∀ c, isClosing c = true → motive 0 (c :: later) [])
    (opening : ∀ depth c s inside, isOpening c = true → motive (depth + 1) s inside →
      motive depth (c :: s) (c :: inside))
    (closing : ∀ depth c s inside, isClosing c = true → motive depth s inside →
      motive (depth + 1) (c :: s) (c :: inside))
    (other : ∀ depth c s inside, isOpening c = false → isClosing c = false →
      motive depth s inside → motive depth (c :: s) (c :: inside))
    {depth : Nat} {s inside : Text} (h : untilClosed (depth + 1) s = some (inside, later)) :
    motive depth s inside := by
  induction s generalizing depth inside with
  | nil => contradiction
  | cons c s ih =>
      cases hopening : isOpening c with
      | true =>
          rw [untilClosed_open hopening, Option.map_eq_some_iff] at h
          obtain ⟨⟨inner, _⟩, hinner, h⟩ := h
          cases h
          exact opening depth c s inner hopening (ih hinner)
      | false =>
          cases hclosing : isClosing c with
          | true =>
              rw [untilClosed_close hopening hclosing] at h
              split at h
              next hdepth =>
                cases h
                rw [hdepth]
                exact last c hclosing
              next hdepth =>
                obtain ⟨outer, rfl⟩ := Nat.exists_eq_succ_of_ne_zero hdepth
                rw [Option.map_eq_some_iff] at h
                obtain ⟨⟨inner, _⟩, hinner, h⟩ := h
                cases h
                exact closing outer c s inner hclosing (ih hinner)
          | false =>
              rw [untilClosed_of_not_bracket hopening hclosing, Option.map_eq_some_iff] at h
              obtain ⟨⟨inner, _⟩, hinner, h⟩ := h
              cases h
              exact other depth c s inner hopening hclosing (ih hinner)

/-- Within brackets, looking for the end goes on behind the text. -/
def Balanced (s : Text) : Prop :=
  ∀ depth, 0 < depth → ∀ rest, untilClosed depth (s ++ rest) =
    (untilClosed depth rest).map fun found => (s ++ found.1, found.2)

theorem balanced_nil : Balanced [] := by
  intro depth _ rest
  simp

namespace Balanced

variable {s t : Text}

theorem append (hs : Balanced s) (ht : Balanced t) : Balanced (s ++ t) := by
  intro depth hdepth rest
  rw [List.append_assoc, hs depth hdepth, ht depth hdepth, Option.map_map]
  congr 1
  funext found
  simp

theorem cons {c : Char} (hopening : isOpening c = false) (hclosing : isClosing c = false)
    (hs : Balanced s) : Balanced (c :: s) := by
  intro depth hdepth rest
  rw [List.cons_append, untilClosed_of_not_bracket hopening hclosing, hs depth hdepth,
    Option.map_map]
  rfl

theorem of_forall (h : ∀ c ∈ s, isOpening c = false ∧ isClosing c = false) : Balanced s := by
  induction s with
  | nil => exact balanced_nil
  | cons c s ih =>
      obtain ⟨hc, hlater⟩ := List.forall_mem_cons.1 h
      exact (ih hlater).cons hc.1 hc.2

/-- Brackets around a balanced text are closed by the closing one. -/
theorem untilClosed_bracketed {o c : Char} (hopening : isOpening o = true)
    (hclosing : isClosing c = true) (hc : isOpening c = false) (hs : Balanced s) (depth : Nat)
    (rest : Text) :
    untilClosed depth (o :: s ++ c :: rest) =
      if depth = 0 then some (o :: s, rest)
      else (untilClosed depth rest).map fun found => (o :: s ++ c :: found.1, found.2) := by
  rw [List.cons_append, untilClosed_open hopening, hs (depth + 1) (by omega),
    untilClosed_close hc hclosing]
  cases depth with
  | zero => simp
  | succ depth =>
      rw [if_neg (by omega), if_neg (by omega), Option.map_map, Option.map_map]
      rfl

theorem bracketed {o c : Char} (hopening : isOpening o = true) (hclosing : isClosing c = true)
    (hc : isOpening c = false) (hs : Balanced s) : Balanced (o :: s ++ [c]) := by
  intro depth hdepth rest
  rw [List.append_assoc, List.singleton_append,
    hs.untilClosed_bracketed hopening hclosing hc, if_neg (by omega)]
  simp

/-- The bracket around a balanced text is closed right behind it. -/
theorem matchingBracket_enclosed {o c : Char} (ho : isOpening o = true) (hc : isClosing c = true)
    (hs : Balanced s) (before rest : Text) :
    matchingBracket (before ++ o :: s ++ c :: rest) (width before) =
      some (width before + 1 + width s) := by
  have hone := utf8Size_of_isOpening ho
  rw [matchingBracket, List.append_assoc, dropBytes_width_append,
    hs.untilClosed_bracketed ho hc (isOpening_of_isClosing hc), if_pos rfl]
  simp [hone, Nat.add_assoc]

theorem matchingBracket_eq (hs : Balanced s) (before rest : Text) :
    matchingBracket (before ++ '(' :: s ++ ')' :: rest) (width before) =
      some (width before + 1 + width s) :=
  hs.matchingBracket_enclosed rfl rfl before rest

end Balanced

/-! ### Calls -/

/-- A text that looks like a call is a name with a parenthesis behind it that the last
character closes. -/
theorem exists_of_isCall {expr : Text} (h : isCall expr = true) :
    ∃ name rest, expr = name ++ '(' :: rest ∧ IsNameText name ∧
      matchingBracket expr (width name) = some (width expr - 1) := by
  unfold isCall find? at h
  simp only [dropBytes_zero, Nat.zero_add] at h
  have hsplit := List.takeWhile_append_dropWhile (p := fun c => decide (c ≠ '(')) (l := expr)
  generalize hname : expr.takeWhile (fun c => decide (c ≠ '(')) = name at h hsplit
  generalize hrest : expr.dropWhile (fun c => decide (c ≠ '(')) = rest at hsplit
  subst hsplit
  cases rest with
  | nil => simp at h
  | cons c rest =>
      have hc : c = '(' := by
        have hstop := List.head?_dropWhile_not (fun c => decide (c ≠ '(')) (name ++ c :: rest)
        rw [hrest] at hstop
        simpa using hstop
      subst hc
      simp only [List.length_append, List.length_cons, Nat.lt_add_right_iff_pos,
        Nat.zero_lt_succ, if_true, takeBytes_width_append, Bool.and_eq_true,
        List.all_eq_true, beq_iff_eq] at h
      exact ⟨name, rest, rfl, h.1, h.2⟩

/-- A name is followed by its own parenthesis only. -/
theorem eq_of_append_open_eq {name name' rest rest' : Text} (hname : IsNameText name)
    (hname' : IsNameText name') (h : name ++ '(' :: rest = name' ++ '(' :: rest') :
    name = name' := by
  have hparen : isNameChar '(' = false := by decide
  have hcut := congrArg (fun s => (cut s).1) h
  simpa only [cut_append_cons hparen, cut_of_isNameText hname, cut_of_isNameText hname'] using hcut

/-- What starts with a call or a group and goes on is no call. -/
theorem Balanced.isCall_append {name inner : Text} (hname : IsNameText name)
    (hinner : Balanced inner) (c : Char) (rest : Text) :
    isCall (name ++ '(' :: inner ++ ')' :: c :: rest) = false := by
  rw [Bool.eq_false_iff]
  intro hcall
  obtain ⟨name', rest', hexpr, hname', hmatching⟩ := exists_of_isCall hcall
  rw [List.append_assoc] at hexpr
  obtain rfl := eq_of_append_open_eq hname hname' hexpr
  rw [hinner.matchingBracket_eq] at hmatching
  have hopen : ('(').utf8Size = 1 := rfl
  have hclose : (')').utf8Size = 1 := rfl
  have hpos := c.utf8Size_pos
  simp only [width_append, width_cons, hopen, hclose, Option.some.injEq] at hmatching
  omega

end Text

end OdeModel
