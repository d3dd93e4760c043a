import OdeModel.Proofs.Line.Brackets

/-!
# Balance of lines

Lines pass the check of their brackets when these are nested in every one of them. Otherwise
the first line with a break is reported, at the bracket that does not fit. In a line that
passes, the bracket that a counter without kinds finds as the end of an open one is the one
that takes it off the stack of the check, and what stands between the two passes too.
-/

namespace OdeModel

namespace Text

/-- At the second position the check of the text reads a closing bracket that takes the one
at the first position off its stack. -/
def Pops (s : Text) (start close : Nat) : Prop :=
  ∃ front c back o outer, s = front ++ c :: back ∧ close = width front ∧ isClosing c = true ∧
    openAfter [] 0 front = some ((start, o) :: outer) ∧
    openAfter [] 0 (front ++ [c]) = some outer

/-- A counter without kinds finds the closing bracket that takes an open one off the stack. -/
theorem Pops.matchingBracket_eq {s : Text} {start close : Nat} (h : Pops s start close) :
    matchingBracket s start = some close := by
  obtain ⟨front, c, back, o, outer, rfl, rfl, hc, hfront, -⟩ := h
  cases openAfter_eq_some_iff.1 hfront with
  | @opened before inside _ _ _ ho hinside =>
      rw [hinside.balanced.matchingBracket_enclosed ho hc, width_append, width_cons,
        utf8Size_of_isOpening ho, Nat.add_assoc]

/-- A nested text takes each open bracket off the stack where it is closed. -/
theorem Nested.exists_pops {before rest : Text} {o : Char} (ho : isOpening o = true)
    (hs : Nested (fun _ => True) (before ++ o :: rest)) :
    ∃ inside c after, rest = inside ++ c :: after ∧ Nested (fun _ => True) inside ∧
      isClosing c = true ∧ openingOf c = o ∧
      Pops (before ++ o :: rest) (width before) (width (before ++ o :: inside)) := by
  obtain ⟨inside, c, after, rfl, hinside, hc, rfl⟩ := hs.exists_inside ho
  obtain ⟨outer, hbefore, -⟩ := exists_openAfter (imbalance?_eq_none_iff.2 hs)
  have hopen := (openAfter_eq_some_iff.1 hbefore).append_opening ho
  have hfront := hopen.append_nested hinside
  rw [List.append_assoc, List.singleton_append] at hfront
  exact ⟨inside, c, after, rfl, hinside, hc, rfl, before ++ openingOf c :: inside, c, after,
    openingOf c, outer, by simp, rfl, hc, hfront.openAfter_eq,
    (hfront.append_closing hc).openAfter_eq⟩

end Text

open Text

namespace Line

/-- Lines pass the check just when all of them are nested. The check fails on the first line
with a break, and reports where its brackets break. -/
theorem checkBrackets_reports (lines : List Line) :
    (lines.forM checkBrackets = .ok () ↔ ∀ line ∈ lines, Nested (fun _ => True) line.text) ∧
    ∀ error, lines.forM checkBrackets = .error error ↔
      ∃ earlier line later fault column, lines = earlier ++ line :: later ∧
        (∀ line ∈ earlier, Nested (fun _ => True) line.text) ∧ Breaks line.text fault column ∧
        error = line.error fault column := by
  have hpass : ∀ kept : List Line, (∀ line ∈ kept, line.checkBrackets = .ok ()) ↔
      ∀ line ∈ kept, Nested (fun _ => True) line.text :=
    fun kept => forall₂_congr fun _ _ => checkBrackets_eq_ok_iff
  have hbreak : ∀ (line : Line) (error : ModelError), line.checkBrackets = .error error ↔
      ∃ fault column, Breaks line.text fault column ∧ error = line.error fault column := by
    intro line error
    simp only [← imbalance?_eq_some_iff]
    unfold checkBrackets
    split
    next hnone => simp [hnone]
    next fault column hsome => simp [hsome, eq_comm]
  refine ⟨by rw [forM_eq_ok_iff, hpass], fun error => ?_⟩
  rw [forM_eq_error_iff]
  constructor
  · rintro ⟨earlier, line, later, rfl, hearlier, hline⟩
    obtain ⟨fault, column, hbreaks, rfl⟩ := (hbreak line error).1 hline
    exact ⟨earlier, line, later, fault, column, rfl, (hpass earlier).1 hearlier, hbreaks, rfl⟩
  · rintro ⟨earlier, line, later, fault, column, rfl, hearlier, hbreaks, rfl⟩
    exact ⟨earlier, line, later, rfl, (hpass earlier).2 hearlier,
      (hbreak line _).2 ⟨fault, column, hbreaks, rfl⟩⟩

example : [⟨1, "f(x)=x".toList⟩, ⟨2, "f(x,\x7b1,2)=x".toList⟩].forM checkBrackets =
    .error (error ⟨2, "f(x,\x7b1,2)=x".toList⟩ .missingClosingBracket 4) := rfl

/-- An open bracket of a line that passes the check is closed, for a counter without kinds,
just by the bracket that takes it off the stack of the check. That one is of its kind, and
what stands between the two passes the check by itself. -/
theorem matchingBracket_agrees {line : Line} (hline : line.checkBrackets = .ok ())
    {before rest : Text} {o : Char} (htext : line.text = before ++ o :: rest)
    (ho : isOpening o = true) :
    ∃ inside c after, rest = inside ++ c :: after ∧
      matchingBracket line.text (width before) = some (width (before ++ o :: inside)) ∧
      (∀ close, Pops line.text (width before) close ↔ close = width (before ++ o :: inside)) ∧
      isClosing c = true ∧ openingOf c = o ∧
      slice line.text (width before + 1) (width (before ++ o :: inside)) = inside ∧
      ∀ number, checkBrackets ⟨number, inside⟩ = .ok () := by
  have hs := checkBrackets_eq_ok_iff.1 hline
  rw [htext] at hs ⊢
  obtain ⟨inside, c, after, rfl, hinside, hc, hkind, hpops⟩ := hs.exists_pops ho
  refine ⟨inside, c, after, rfl, hpops.matchingBracket_eq, fun close => ⟨fun h => ?_, ?_⟩, hc,
    hkind, slice_inside (utf8Size_of_isOpening ho) before inside _,
    fun number => checkBrackets_eq_ok_iff.2 hinside⟩
  · exact Option.some.inj (h.matchingBracket_eq.symm.trans hpops.matchingBracket_eq)
  · rintro rfl
    exact hpops

/-- The parenthesis of `f(x,{1,[2]})=x` is closed behind the other brackets in it. -/
theorem matchingBracket_agrees_mixed :
    checkBrackets ⟨1, "f(x,\x7b1,[2]\x7d)=x".toList⟩ = .ok () ∧ isOpening '(' = true ∧
      ∀ close, Pops "f(x,\x7b1,[2]\x7d)=x".toList 1 close ↔ close = 11 := by
  have hline : checkBrackets ⟨1, "f(x,\x7b1,[2]\x7d)=x".toList⟩ = .ok () := rfl
  have hsplit : "f(x,\x7b1,[2]\x7d)=x".toList =
      "f".toList ++ '(' :: "x,\x7b1,[2]\x7d)=x".toList := rfl
  refine ⟨hline, rfl, ?_⟩
  obtain ⟨inside, c, after, -, hmatching, hpops, -⟩ := matchingBracket_agrees hline hsplit rfl
  have hclose : matchingBracket "f(x,\x7b1,[2]\x7d)=x".toList 1 = some 11 := by decide
  rwa [← Option.some.inj (hclose.symm.trans hmatching)] at hpops

end Line

end OdeModel
