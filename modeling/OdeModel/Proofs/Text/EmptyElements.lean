import OdeModel.Proofs.Line.Spacing
import OdeModel.Proofs.Text.Cuts

/-!
# Empty elements

A list in brackets is refused at an element that is empty: behind the bracket of the list or
a delimiter of it come, after blanks at most, a delimiter of it or the bracket that closes
it. In normal spacing a list holds no blanks, so the same element is found in the text
without blanks.
-/

namespace OdeModel

namespace Text

/-- In a list that holds `before` and then `rest`, an element starts behind `before`, and it
is empty. -/
def StartsEmpty (delimiter : Char) (before rest : Text) : Prop :=
  (before = [] ∨ ∃ more, before = more ++ [delimiter] ∧ AtTop more) ∧
    ∃ blanks after, rest = blanks ++ after ∧ (∀ c ∈ blanks, isBlank c = true) ∧
      (after = [] ∨ after.head? = some delimiter ∧ AtTop (before ++ blanks))

/-- At the place starts an empty element of the list that opens at `start`. -/
def EmptyElement (delimiter : Char) (s : Text) (start place : Nat) : Prop :=
  ∃ front o before rest later, s = front ++ o :: (before ++ rest ++ later) ∧
    isOpening o = true ∧ start = width front ∧
    matchingBracket s start = some (width (front ++ o :: (before ++ rest))) ∧
    place = width (front ++ o :: before) ∧ StartsEmpty delimiter before rest

variable {delimiter : Char} {s front rest inside later : Text} {o : Char}

/-- Before an empty element stands a bracket or a delimiter. -/
theorem EmptyElement.getLast?_takeBytes {start place : Nat}
    (h : EmptyElement delimiter s start place) :
    ∃ c, (takeBytes place s).getLast? = some c ∧ (isOpening c = true ∨ c = delimiter) := by
  obtain ⟨front, o, before, rest, later, rfl, ho, -, -, rfl, hbefore, -⟩ := h
  have hsplit : front ++ o :: (before ++ rest ++ later) =
      front ++ o :: before ++ (rest ++ later) := by simp
  rw [hsplit, takeBytes_width_append]
  rcases hbefore with rfl | ⟨more, rfl, -⟩
  · exact ⟨o, List.getLast?_concat, .inl ho⟩
  · have hlast : front ++ o :: (more ++ [delimiter]) = front ++ o :: more ++ [delimiter] := by simp
    exact ⟨delimiter, by rw [hlast, List.getLast?_concat], .inr rfl⟩

/-! ### The element that is refused -/

/-- A piece stands between the ends of the text and the cuts outside of brackets. -/
theorem CutAtTop.exists_of_mem {isCut : Char → Bool} {start : Nat} {front s : Text}
    {pieces : List (Nat × Text)} (h : CutAtTop isCut start front s pieces) {offset : Nat}
    {piece : Text} (hmem : (offset, piece) ∈ pieces) :
    ∃ before after, s = before ++ (piece ++ after) ∧ offset = start + width (front ++ before) ∧
      (before = [] ∨ ∃ more c, before = more ++ [c] ∧ isCut c = true ∧ AtTop (front ++ more)) ∧
      (after = [] ∨ ∃ c, after.head? = some c ∧ isCut c = true ∧
        AtTop (front ++ before ++ piece)) := by
  induction h with
  | @last front s hs =>
      obtain ⟨rfl, rfl⟩ := Prod.mk.inj (List.mem_singleton.1 hmem)
      exact ⟨[], [], by simp, by simp, .inl rfl, .inl rfl⟩
  | @cut front first rest c later hfirst hc htop hrest ih =>
      rcases List.mem_cons.1 hmem with heq | hlater
      · obtain ⟨rfl, rfl⟩ := Prod.mk.inj heq
        exact ⟨[], c :: rest, by simp, by simp, .inl rfl, .inr ⟨c, rfl, hc, by simpa using htop⟩⟩
      · obtain ⟨before, after, rfl, rfl, hbefore, hafter⟩ := ih hlater
        refine ⟨first ++ c :: before, after, by simp, by simp, .inr ?_, ?_⟩
        · rcases hbefore with rfl | ⟨more, d, rfl, hd, hmore⟩
          · exact ⟨first, c, rfl, hc, htop⟩
          · exact ⟨first ++ c :: more, d, by simp, hd, by simpa using hmore⟩
        · rcases hafter with rfl | ⟨d, hhead, hd, hpiece⟩
          · exact .inl rfl
          · exact .inr ⟨d, hhead, hd, by simpa using hpiece⟩

/-- A list that is not cut into elements is refused at the start of an empty one. -/
theorem startsEmpty_of_splitList
    (hdelimiter : isOpening delimiter = false ∧ isClosing delimiter = false)
    (ho : isOpening o = true) (hclosed : untilClosed 1 rest = some (inside, later)) {offset : Nat}
    (h : splitList (front ++ o :: rest) (width front) (· == delimiter) = .error offset) :
    ∃ before behind, inside = before ++ behind ∧ offset = width (front ++ o :: before) ∧
      StartsEmpty delimiter before behind := by
  obtain ⟨c, -, rfl⟩ := exists_of_untilClosed hclosed
  have hcut : ∀ d, (d == delimiter) = true → isOpening d = false ∧ isClosing d = false := by
    intro d hd
    rwa [beq_iff_eq.1 hd]
  have hcuts := cutAtTop_of_untilClosed hcut hclosed (width front + 1)
  have hclose : matchingBracket (front ++ o :: (inside ++ c :: later)) (width front) =
      some (width (front ++ o :: inside)) :=
    (matchingBracket_eq_some_iff ho).2 ⟨inside, later, hclosed, rfl⟩
  rw [splitList, hclose, Option.getD_some, slice_inside (utf8Size_of_isOpening ho)] at h
  obtain hitems | ⟨items, -, hpure⟩ := bind_eq_error_iff.1 h
  · obtain ⟨⟨place, piece⟩, hmem, htrim⟩ := exists_of_mapM_eq_error hitems
    have hblank : ∀ d ∈ piece, isBlank d = true := by
      by_contra hink
      obtain ⟨item, hitem, -⟩ := @exists_trimItem (place, piece) (by simpa using hink)
      rw [hitem] at htrim
      contradiction
    rw [trimItem_of_blank hblank] at htrim
    cases htrim
    obtain ⟨before, after, rfl, rfl, hbefore, hafter⟩ := hcuts.exists_of_mem hmem
    refine ⟨before, piece ++ after, rfl, by simp [utf8Size_of_isOpening ho, Nat.add_assoc], ?_,
      piece, after, rfl, hblank, ?_⟩
    · rcases hbefore with rfl | ⟨more, d, rfl, hd, hmore⟩
      · exact .inl rfl
      · exact .inr ⟨more, by rw [beq_iff_eq.1 hd], hmore⟩
    · rcases hafter with rfl | ⟨d, hhead, hd, htop⟩
      · exact .inl rfl
      · exact .inr ⟨by rw [hhead, beq_iff_eq.1 hd], htop⟩
  · contradiction

theorem StartsEmpty.emptyElement {before behind : Text} (h : StartsEmpty delimiter before behind)
    (ho : isOpening o = true) (hclosed : untilClosed 1 rest = some (before ++ behind, later)) :
    EmptyElement delimiter (front ++ o :: rest) (width front) (width (front ++ o :: before)) := by
  obtain ⟨c, -, rfl⟩ := exists_of_untilClosed hclosed
  exact ⟨front, o, before, behind, c :: later, rfl, ho, rfl,
    (matchingBracket_eq_some_iff ho).2 ⟨_, _, hclosed, rfl⟩, rfl, h⟩

/-! ### Lists without blanks -/

theorem le_level (depth : Nat) (s : Text) :
    depth + s.countP isOpening ≤ level depth s + s.countP isClosing := by
  induction s generalizing depth with
  | nil => simp
  | cons c s ih =>
      have hnext := ih (nest depth c)
      have hstep : depth + (if isOpening c then 1 else 0) ≤
          nest depth c + (if isClosing c then 1 else 0) := by
        unfold nest
        cases hopening : isOpening c with
        | true => simp
        | false =>
            cases isClosing c with
            | true =>
                simp
                omega
            | false => simp
      rw [level_cons, List.countP_cons, List.countP_cons]
      omega

/-- In normal spacing there is no blank between a bracket and the one that closes it. -/
theorem IsSpaced.not_isBlank_inside (h : IsSpaced (front ++ o :: (inside ++ rest)))
    (ho : isOpening o = true) (hclosed : untilClosed 1 (inside ++ rest) = some (inside, later)) :
    ∀ c ∈ inside, isBlank c = false := by
  intro c hc
  by_contra hblank
  obtain ⟨before, after, rfl⟩ := List.mem_iff_append.1 hc
  have hlevel := (h (front ++ o :: before) c (after ++ rest) (by simp) (by simpa using hblank)).2.1
  have hle := countP_le_of_untilClosed hclosed before (c :: after) rfl
  have hopened := le_level (level 0 front + 1) before
  rw [level_append, level_cons, nest_open ho] at hlevel
  omega

/-- In normal spacing no blank follows a blank. -/
theorem IsSpaced.eq_nil_of_blanks {c : Char} (h : IsSpaced (front ++ c :: (s ++ rest)))
    (hc : isBlank c = true) (hs : withoutBlanks s = []) : s = [] := by
  cases s with
  | nil => rfl
  | cons d s =>
      have hd : takesBlank d = true := (h front c _ rfl hc).2.2.2
      have hblank := List.filter_eq_nil_iff.1 hs d List.mem_cons_self
      rw [(takesBlank_eq_true_iff.1 hd).1] at hblank
      contradiction

/-- In normal spacing every blank has one byte. -/
theorem IsSpaced.width_withoutBlanks (h : IsSpaced (front ++ (s ++ rest))) :
    width (withoutBlanks s) + s.countP isBlank = width s := by
  induction s generalizing front with
  | nil => rfl
  | cons c s ih =>
      have hlater := @ih (front ++ [c]) (by simpa using h)
      cases hblank : isBlank c with
      | true =>
          obtain rfl := (h front c (s ++ rest) rfl hblank).1
          have hkept : withoutBlanks (' ' :: s) = withoutBlanks s := rfl
          have hsize : ' '.utf8Size = 1 := rfl
          rw [hkept, List.countP_cons_of_pos hblank, width_cons, hsize]
          omega
      | false =>
          have hkept : withoutBlanks (c :: s) = c :: withoutBlanks s := by
            simp [withoutBlanks, hblank]
          rw [hkept, List.countP_cons_of_neg (by simp [hblank]), width_cons, width_cons]
          omega

end Text

end OdeModel
