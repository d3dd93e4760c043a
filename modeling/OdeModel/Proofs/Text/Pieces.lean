import OdeModel.Proofs.Arithmetic.Lexing
import OdeModel.Proofs.Steps
import OdeModel.Proofs.Text.Items
import OdeModel.Proofs.Text.Sites
import Mathlib.Data.List.TakeWhile

/-!
# Pieces of a text

The elements of a list are pieces of the text that they are cut out of: no name is cut
in two at their ends. So their names are names of the text. A list that is never closed
ends with the text.
-/

namespace OdeModel

namespace Text

theorem any_or_eq_false {p : Char → Bool} {first second : Option Char}
    (h : first.any p = false) (h' : second.any p = false) : (first.or second).any p = false := by
  cases first with
  | none => exact h'
  | some c => exact h

/-- The text is cut out of another one where no name is cut in two. -/
def IsPieceOf (piece s : Text) : Prop :=
  ∃ before after, s = before ++ piece ++ after ∧ before.getLast?.any isNameChar = false ∧
    after.head?.any isNameChar = false

namespace IsPieceOf

variable {piece middle s : Text}

theorem trans (h : IsPieceOf piece middle) (h' : IsPieceOf middle s) : IsPieceOf piece s := by
  obtain ⟨before, after, rfl, hbefore, hafter⟩ := h
  obtain ⟨first, last, rfl, hfirst, hlast⟩ := h'
  refine ⟨first ++ before, after ++ last, by simp, ?_, ?_⟩
  · rw [List.getLast?_append]
    exact any_or_eq_false hbefore hfirst
  · rw [List.head?_append]
    exact any_or_eq_false hafter hlast

theorem isInfix (h : IsPieceOf piece s) : piece <:+: s := by
  obtain ⟨before, after, rfl, -, -⟩ := h
  exact List.infix_append before piece after

/-- The runs of a piece are runs of the whole text, where more may be around them. -/
theorem exists_within_mem (h : IsPieceOf piece s) :
    ∃ previous next, ∀ site ∈ sites piece, site.within previous next ∈ sites s := by
  obtain ⟨before, after, rfl, hbefore, hafter⟩ := h
  refine ⟨before.getLast?, after.head?, fun site hmem => ?_⟩
  obtain ⟨first, last, rfl, hprevious, hnext, hrun⟩ := mem_sites_iff.1 hmem
  refine mem_sites_iff.2 ⟨before ++ first, last ++ after, by simp, ?_, ?_, hrun.ne_nil,
    hrun.isNameText, ?_, ?_⟩
  · rw [List.getLast?_append, hprevious]
    rfl
  · rw [List.head?_append, hnext]
    rfl
  · rw [List.getLast?_append]
    exact any_or_eq_false hrun.before hbefore
  · rw [List.head?_append]
    exact any_or_eq_false hrun.after hafter

end IsPieceOf

theorem isPieceOf_of_mem_sites {s : Text} {site : Site} (h : site ∈ sites s) :
    IsPieceOf site.run s := by
  obtain ⟨before, after, hsplit, -, -, hrun⟩ := mem_sites_iff.1 h
  exact ⟨before, after, hsplit, hrun.before, hrun.after⟩

/-! ### Blanks -/

theorem IsPieceOf.dropWhile {p : Char → Bool} (hp : ∀ c, p c = true → isNameChar c = false)
    (s : Text) : IsPieceOf (s.dropWhile p) s := by
  refine ⟨s.takeWhile p, [], by simp, ?_, rfl⟩
  cases hlast : (s.takeWhile p).getLast? with
  | none => rfl
  | some c => exact hp c (List.mem_takeWhile_imp (List.mem_of_getLast? hlast))

theorem IsPieceOf.dropEndWhile {p : Char → Bool} (hp : ∀ c, p c = true → isNameChar c = false)
    (s : Text) : IsPieceOf (dropEndWhile p s) s := by
  refine ⟨[], (s.reverse.takeWhile p).reverse, ?_, rfl, ?_⟩
  · rw [List.nil_append, Text.dropEndWhile, ← List.reverse_append, List.takeWhile_append_dropWhile,
      List.reverse_reverse]
  · rw [List.head?_reverse]
    cases hlast : (s.reverse.takeWhile p).getLast? with
    | none => rfl
    | some c => exact hp c (List.mem_takeWhile_imp (List.mem_of_getLast? hlast))

theorem IsPieceOf.trim (s : Text) : IsPieceOf (trim s) s := by
  have hblank : ∀ c, isBlank c = true → isNameChar c = false := by
    intro c hc
    cases hname : isNameChar c with
    | false => rfl
    | true => rw [isBlank_of_isNameChar hname] at hc; contradiction
  exact (IsPieceOf.dropEndWhile hblank _).trans (IsPieceOf.dropWhile hblank s)

/-! ### Lists -/

/-- The first piece starts the text, and every later one stands right behind a cut. -/
theorem topFields_pieces {isCut : Char → Bool} (hcut : ∀ c, isCut c = true → isNameChar c = false)
    (depth offset : Nat) (s : Text) :
    ∃ first later, topFields isCut depth offset s = (offset, first) :: later ∧
      (∃ after, s = first ++ after ∧ after.head?.any isNameChar = false) ∧
      ∀ piece ∈ later, ∃ before c after, s = before ++ c :: (piece.2 ++ after) ∧
        isNameChar c = false ∧ after.head?.any isNameChar = false := by
  induction s generalizing depth offset with
  | nil => exact ⟨[], [], rfl, ⟨[], rfl, rfl⟩, by simp⟩
  | cons c rest ih =>
      by_cases hc : depth = 0 ∧ isCut c = true ∧ isOpening c = false ∧ isClosing c = false
      · obtain ⟨first, later, hfields, ⟨after, hfirst, hafter⟩, hlater⟩ :=
          ih 0 (offset + c.utf8Size)
        have hname := hcut c hc.2.1
        refine ⟨[], (offset + c.utf8Size, first) :: later, ?_,
          ⟨c :: rest, rfl, by simp [hname]⟩, ?_⟩
        · rw [topFields, if_pos (by simpa using hc), hfields]
        · rw [List.forall_mem_cons]
          refine ⟨⟨[], c, after, by rw [hfirst]; rfl, hname, hafter⟩, fun piece hpiece => ?_⟩
          obtain ⟨before, d, after, hsplit, hd, hafter⟩ := hlater piece hpiece
          exact ⟨c :: before, d, after, by rw [hsplit]; rfl, hd, hafter⟩
      · obtain ⟨first, later, hfields, ⟨after, hfirst, hafter⟩, hlater⟩ :=
          ih (nest depth c) (offset + c.utf8Size)
        refine ⟨c :: first, later, ?_, ⟨after, by rw [hfirst]; rfl, hafter⟩, fun piece hpiece => ?_⟩
        · rw [topFields_cons hc, hfields]
          rfl
        · obtain ⟨before, d, after, hsplit, hd, hafter⟩ := hlater piece hpiece
          exact ⟨c :: before, d, after, by rw [hsplit]; rfl, hd, hafter⟩

theorem isPieceOf_of_mem_topFields {isCut : Char → Bool}
    (hcut : ∀ c, isCut c = true → isNameChar c = false) {depth offset : Nat} {s : Text}
    {piece : Nat × Text} (h : piece ∈ topFields isCut depth offset s) : IsPieceOf piece.2 s := by
  obtain ⟨first, later, hfields, ⟨after, hfirst, hafter⟩, hlater⟩ :=
    topFields_pieces hcut depth offset s
  rw [hfields, List.mem_cons] at h
  rcases h with rfl | h
  · exact ⟨[], after, hfirst, rfl, hafter⟩
  · obtain ⟨before, c, after, hsplit, hc, hafter⟩ := hlater piece h
    exact ⟨before ++ [c], after, by simp [hsplit], by simp [hc], hafter⟩

/-- What is read up to the end of a bracket stands before a closing one. -/
theorem exists_of_untilClosed {depth : Nat} {s inside later : Text}
    (h : untilClosed depth s = some (inside, later)) :
    ∃ c, isClosing c = true ∧ s = inside ++ c :: later := by
  induction s generalizing depth inside with
  | nil => simp [untilClosed] at h
  | cons c s ih =>
      have hread : ∀ {deeper : Nat}, (untilClosed deeper s).map
          (fun found => (c :: found.1, found.2)) = some (inside, later) →
            ∃ d, isClosing d = true ∧ c :: s = inside ++ d :: later := by
        intro deeper hmap
        obtain ⟨⟨shorter, rest⟩, hfound, hpair⟩ := Option.map_eq_some_iff.1 hmap
        cases hpair
        obtain ⟨d, hd, rfl⟩ := ih hfound
        exact ⟨d, hd, rfl⟩
      cases hopening : isOpening c with
      | true => exact hread (untilClosed_open hopening depth s ▸ h)
      | false =>
          cases hclosing : isClosing c with
          | false => exact hread (untilClosed_of_not_bracket hopening hclosing depth s ▸ h)
          | true =>
              cases depth with
              | zero => simp [untilClosed, hopening, hclosing] at h
              | succ depth =>
                  rw [untilClosed_close hopening hclosing] at h
                  split at h
                  next =>
                    cases h
                    exact ⟨c, hclosing, rfl⟩
                  next => exact hread h

theorem isClosing_spec {c : Char} (h : isClosing c = true) :
    c.utf8Size = 1 ∧ isNameChar c = false := by
  simp only [isClosing, Bool.or_eq_true, beq_iff_eq] at h
  rcases h with (rfl | rfl) | rfl <;> decide

theorem dropBytes_of_width_le {s : Text} {n : Nat} (h : width s ≤ n) : dropBytes n s = [] := by
  induction s generalizing n with
  | nil => rfl
  | cons c s ih =>
      have hpos := c.utf8Size_pos
      rw [width_cons] at h
      rw [dropBytes, if_neg (by omega)]
      exact ih (by omega)

theorem takeBytes_of_width_le {s : Text} {n : Nat} (h : width s ≤ n) : takeBytes n s = s := by
  induction s generalizing n with
  | nil => rfl
  | cons c s ih =>
      have hpos := c.utf8Size_pos
      rw [width_cons] at h
      rw [takeBytes, if_neg (by omega), ih (by omega)]

/-- The items of a list are pieces of what stands between its brackets. -/
theorem isPieceOf_of_splitList {isCut : Char → Bool}
    (hcut : ∀ c, isCut c = true → isNameChar c = false) {s : Text} {start close : Nat}
    {items : List (Nat × Text)} (h : splitList s start isCut = .ok (items, close)) :
    close = (matchingBracket s start).getD (width s) ∧
      ∀ item ∈ items, IsPieceOf item.2 (slice s (start + 1) close) := by
  unfold splitList at h
  obtain ⟨trimmed, hitems, hpair⟩ := bind_eq_ok_iff.1 h
  cases pure_eq_ok_iff.1 hpair
  refine ⟨rfl, fun item hitem => ?_⟩
  rw [mapM_eq_ok_iff] at hitems
  obtain ⟨⟨offset, piece⟩, hpiece, htrim⟩ := exists_of_forall₂_mem hitems hitem
  have hpieceOf := isPieceOf_of_mem_topFields hcut hpiece
  rw [trimItem] at htrim
  split at htrim
  next => contradiction
  next =>
    cases htrim
    exact (IsPieceOf.trim _).trans hpieceOf

/-- The items of a list in parentheses are pieces of what stands behind the opening one.
The list ends at a closing bracket, or with the text. -/
theorem splitList_pieces {isCut : Char → Bool} (hcut : ∀ c, isCut c = true → isNameChar c = false)
    {before rest : Text} {items : List (Nat × Text)} {close : Nat}
    (h : splitList (before ++ '(' :: rest) (width before) isCut = .ok (items, close)) :
    (∀ item ∈ items, IsPieceOf item.2 rest) ∧
      (dropBytes (close + 1) (before ++ '(' :: rest) = [] ∨
        ∃ inside c, isClosing c = true ∧
          rest = inside ++ c :: dropBytes (close + 1) (before ++ '(' :: rest)) := by
  obtain ⟨hclose, hitems⟩ := isPieceOf_of_splitList hcut h
  have hopen : width (before ++ ['(']) = width before + 1 := by
    rw [width_append]
    rfl
  have hsplit : before ++ '(' :: rest = before ++ ['('] ++ rest := by simp
  rw [slice, hsplit, ← hopen, dropBytes_width_append] at hitems
  rw [matchingBracket, dropBytes_width_append, untilClosed_open rfl, Option.map_map] at hclose
  cases hfound : untilClosed 1 rest with
  | none =>
      rw [hfound] at hclose
      change close = width (before ++ '(' :: rest) at hclose
      have hall : takeBytes (close - width (before ++ ['('])) rest = rest := by
        apply takeBytes_of_width_le
        rw [hclose, hsplit, width_append (before ++ ['(']), Nat.add_sub_cancel_left]
      rw [hall] at hitems
      exact ⟨hitems, Or.inl (dropBytes_of_width_le (by omega))⟩
  | some found =>
      obtain ⟨inside, later⟩ := found
      obtain ⟨c, hc, rfl⟩ := exists_of_untilClosed hfound
      obtain ⟨hsize, hname⟩ := isClosing_spec hc
      rw [hfound] at hclose
      change close = width before + width ('(' :: inside) at hclose
      have hwidth : close = width (before ++ ['('] ++ inside) := by
        rw [hclose, List.append_assoc, width_append]
        rfl
      have hinside : takeBytes (close - width (before ++ ['('])) (inside ++ c :: later) =
          inside := by
        rw [hwidth, width_append, Nat.add_sub_cancel_left, takeBytes_width_append]
      have hlater : dropBytes (close + 1) (before ++ '(' :: (inside ++ c :: later)) = later := by
        have hbehind : close + 1 = width (before ++ ['('] ++ inside ++ [c]) := by
          rw [hwidth, width_append (before ++ ['('] ++ inside), width_cons, width_nil, hsize]
        have hwhole : before ++ '(' :: (inside ++ c :: later) =
            before ++ ['('] ++ inside ++ [c] ++ later := by simp
        rw [hbehind, hwhole, dropBytes_width_append]
      rw [hinside] at hitems
      rw [hlater]
      exact ⟨fun item hitem => (hitems item hitem).trans
        ⟨[], c :: later, rfl, rfl, by simp [hname]⟩, Or.inr ⟨inside, c, hc, rfl⟩⟩

end Text

end OdeModel
