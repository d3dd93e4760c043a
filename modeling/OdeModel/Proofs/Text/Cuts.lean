import OdeModel.Proofs.Text.Commas

/-!
# Cuts outside of brackets

A list in brackets is cut at each delimiter behind as many closing as opening brackets, and
nowhere else. Two counters have to agree for this: the one that looks for the end of the list
stops where more is closed than opened, so the one that looks for delimiters never meets a
closing bracket without an open one. Every piece gives one element, unless it is blank.
-/

namespace OdeModel

namespace Text

/-- As many brackets are closed in the text as are opened in it, of whatever kind. -/
def AtTop (s : Text) : Prop := s.countP isClosing = s.countP isOpening

instance (s : Text) : Decidable (AtTop s) := inferInstanceAs (Decidable (_ = _))

/-- No cut character of the text, which stands behind `before`, is outside of any bracket. -/
def Uncut (isCut : Char → Bool) (before s : Text) : Prop :=
  ∀ front c back, s = front ++ c :: back → isCut c = true → ¬ AtTop (before ++ front)

/-- The pieces of a text that stands behind `before`, each with its position: the text is cut
at every cut character outside of any bracket. Positions are counted from `start` on. -/
inductive CutAtTop (isCut : Char → Bool) (start : Nat) :
    (before s : Text) → List (Nat × Text) → Prop
  /-- There is no cut any more. -/
  | last {before s : Text} (hs : Uncut isCut before s) :
      CutAtTop isCut start before s [(start + width before, s)]
  /-- The piece up to the first cut. -/
  | cut {before piece rest : Text} {c : Char} {later : List (Nat × Text)}
      (hpiece : Uncut isCut before piece) (hc : isCut c = true) (htop : AtTop (before ++ piece))
      (hrest : CutAtTop isCut start (before ++ piece ++ [c]) rest later) :
      CutAtTop isCut start before (piece ++ c :: rest) ((start + width before, piece) :: later)

variable {isCut : Char → Bool} {start : Nat} {before s : Text}

theorem Uncut.nil (isCut : Char → Bool) (before : Text) : Uncut isCut before [] := by
  intro front c back h
  simp at h

theorem Uncut.cons {c : Char} (hc : isCut c = true → ¬ AtTop before)
    (hs : Uncut isCut (before ++ [c]) s) : Uncut isCut before (c :: s) := by
  intro front d back h hd
  cases front with
  | nil =>
      rw [List.nil_append, List.cons.injEq] at h
      rw [List.append_nil]
      exact hc (h.1 ▸ hd)
  | cons e front =>
      rw [List.cons_append, List.cons.injEq] at h
      have htop := hs front d back h.2 hd
      rwa [h.1, List.append_assoc, List.singleton_append] at htop

/-- A piece that goes on with a cut does not go on. -/
theorem Uncut.eq_nil_of_cut {piece between rest back : Text} {c : Char}
    (h : Uncut isCut before (piece ++ between)) (hback : c :: rest = between ++ back)
    (hc : isCut c = true) (htop : AtTop (before ++ piece)) : between = [] := by
  cases between with
  | nil => rfl
  | cons d between =>
      rw [List.cons_append, List.cons.injEq] at hback
      exact absurd htop (h piece c between (by rw [hback.1]) hc)

/-- Before a cut stands just one piece without cuts. -/
theorem Uncut.eq_of_append_cons_eq {piece piece' rest rest' : Text} {c c' : Char}
    (h : piece ++ c :: rest = piece' ++ c' :: rest') (hpiece : Uncut isCut before piece)
    (hpiece' : Uncut isCut before piece') (hc : isCut c = true) (hc' : isCut c' = true)
    (htop : AtTop (before ++ piece)) (htop' : AtTop (before ++ piece')) :
    piece = piece' ∧ c = c' ∧ rest = rest' := by
  have hsame : piece = piece' := by
    rcases List.append_eq_append_iff.1 h with ⟨between, rfl, hrest⟩ | ⟨between, rfl, hrest⟩
    · rw [hpiece'.eq_nil_of_cut hrest hc htop, List.append_nil]
    · rw [hpiece.eq_nil_of_cut hrest hc' htop', List.append_nil]
  subst hsame
  exact ⟨rfl, List.cons.inj (List.append_cancel_left h)⟩

namespace CutAtTop

/-- A text is cut in one way. -/
theorem unique {pieces pieces' : List (Nat × Text)} (h : CutAtTop isCut start before s pieces)
    (h' : CutAtTop isCut start before s pieces') : pieces' = pieces := by
  induction h generalizing pieces' with
  | last hs =>
      cases h' with
      | last => rfl
      | cut _ hc htop => exact absurd htop (hs _ _ _ rfl hc)
  | @cut before piece rest c later hpiece hc htop _ ih =>
      generalize hwhole : piece ++ c :: rest = whole at h'
      cases h' with
      | last hs => exact absurd htop (hs piece c rest hwhole.symm hc)
      | cut hpiece' hc' htop' hrest' =>
          obtain ⟨rfl, rfl, rfl⟩ :=
            Uncut.eq_of_append_cons_eq hwhole hpiece hpiece' hc hc' htop htop'
          rw [ih hrest']

/-- A character that is no cut goes to the front of the first piece. -/
theorem cons {c : Char} {pieces : List (Nat × Text)} (hc : isCut c = true → ¬ AtTop before)
    (h : CutAtTop isCut start (before ++ [c]) s pieces) :
    CutAtTop isCut start before (c :: s) (extend (start + width before) [c] pieces) := by
  cases h with
  | last hs => exact .last (hs.cons hc)
  | @cut _ piece rest d later hpiece hd htop hrest =>
      have hsplit : before ++ [c] ++ piece = before ++ c :: piece := by simp
      rw [hsplit] at htop hrest
      exact .cut (hpiece.cons hc) hd htop hrest

end CutAtTop

/-- One more character changes the numbers of brackets as it changes the level, unless it
closes more than was opened. -/
theorem countP_nest {depth : Nat} {c : Char}
    (hdepth : before.countP isOpening = before.countP isClosing + depth)
    (hc : (before ++ [c]).countP isClosing ≤ (before ++ [c]).countP isOpening) :
    (before ++ [c]).countP isOpening = (before ++ [c]).countP isClosing + nest depth c := by
  simp only [List.countP_append, List.countP_singleton] at hc ⊢
  cases hopening : isOpening c with
  | true => simp [nest_open hopening, isClosing_of_isOpening hopening, hdepth, Nat.add_assoc]
  | false =>
      cases hclosing : isClosing c with
      | false => simp [nest_other hopening hclosing, hdepth]
      | true =>
          simp only [hopening, hclosing, Bool.false_eq_true, if_true, if_false] at hc ⊢
          obtain ⟨outer, rfl⟩ : ∃ outer, depth = outer + 1 := ⟨depth - 1, by omega⟩
          rw [nest_close hclosing]
          omega

/-- Where no bracket is closed that was not opened, cutting at level zero is cutting behind
as many closing as opening brackets. -/
theorem cutAtTop_topFields
    (hcut : ∀ c, isCut c = true → isOpening c = false ∧ isClosing c = false) {depth : Nat}
    (hdepth : before.countP isOpening = before.countP isClosing + depth)
    (hs : ∀ front back, s = front ++ back →
      (before ++ front).countP isClosing ≤ (before ++ front).countP isOpening) :
    CutAtTop isCut start before s (topFields isCut depth (start + width before) s) := by
  induction s generalizing before depth with
  | nil => exact .last (.nil isCut before)
  | cons c s ih =>
      have hplace : start + width before + c.utf8Size = start + width (before ++ [c]) := by
        simp [Nat.add_assoc]
      have hnext := countP_nest hdepth (hs [c] s rfl)
      have hlater : ∀ front back, s = front ++ back →
          (before ++ [c] ++ front).countP isClosing ≤
            (before ++ [c] ++ front).countP isOpening := by
        intro front back hsplit
        have hle := hs (c :: front) back (by rw [hsplit]; rfl)
        rwa [List.append_assoc, List.singleton_append]
      by_cases hc : depth = 0 ∧ isCut c = true ∧ isOpening c = false ∧ isClosing c = false
      · obtain ⟨rfl, hc, hopening, hclosing⟩ := hc
        rw [nest_other hopening hclosing] at hnext
        have htop : AtTop (before ++ []) := by
          rw [List.append_nil]
          exact hdepth.symm
        have hrest : CutAtTop isCut start (before ++ [] ++ [c]) s
            (topFields isCut 0 (start + width (before ++ [c])) s) := by
          rw [List.append_nil]
          exact ih hnext hlater
        rw [topFields, if_pos (by simp [hc, hopening, hclosing]), hplace]
        exact .cut (.nil isCut before) hc htop hrest
      · rw [topFields_cons hc, hplace]
        refine (ih hnext hlater).cons fun hcutc htop => hc ⟨?_, hcutc, hcut c hcutc⟩
        rw [AtTop] at htop
        omega

/-- Up to the bracket that closes it nothing is closed that was not opened. -/
theorem countP_le_of_untilClosed {depth : Nat} {inside later : Text}
    (h : untilClosed (depth + 1) s = some (inside, later)) :
    ∀ front back, inside = front ++ back →
      front.countP isClosing ≤ front.countP isOpening + depth := by
  have hcons : ∀ {depth deeper : Nat} {c : Char} {inside : Text},
      (if isClosing c then 1 else 0) + deeper ≤ (if isOpening c then 1 else 0) + depth →
      (∀ front back, inside = front ++ back →
        front.countP isClosing ≤ front.countP isOpening + deeper) →
      ∀ front back, c :: inside = front ++ back →
        front.countP isClosing ≤ front.countP isOpening + depth := by
    intro depth deeper c inside hc ih front back hsplit
    cases front with
    | nil => simp
    | cons d front =>
        rw [List.cons_append, List.cons.injEq] at hsplit
        obtain ⟨rfl, hsplit⟩ := hsplit
        have hle := ih front back hsplit
        rw [List.countP_cons, List.countP_cons]
        omega
  refine untilClosed_induction (motive := fun depth _ inside => ∀ front back,
    inside = front ++ back → front.countP isClosing ≤ front.countP isOpening + depth)
    ?last ?opening ?closing ?other h
  case last =>
    intro c _ front back hsplit
    simp [(List.append_eq_nil_iff.1 hsplit.symm).1]
  case opening =>
    intro depth c s inside hopening
    exact hcons (by simp [hopening, isClosing_of_isOpening hopening, Nat.add_comm])
  case closing =>
    intro depth c s inside hclosing
    exact hcons (by simp [hclosing, isOpening_of_isClosing hclosing, Nat.add_comm])
  case other =>
    intro depth c s inside hopening hclosing
    exact hcons (by simp [hopening, hclosing])

/-- What a bracket holds is cut outside of the brackets in it. -/
theorem cutAtTop_of_untilClosed
    (hcut : ∀ c, isCut c = true → isOpening c = false ∧ isClosing c = false)
    {inside later : Text} (h : untilClosed 1 s = some (inside, later)) (start : Nat) :
    CutAtTop isCut start [] inside (topFields isCut 0 start inside) :=
  cutAtTop_topFields hcut rfl fun front back hsplit => by
    simpa using countP_le_of_untilClosed h front back hsplit

/-! ### Elements -/

/-- The item is the piece without the blanks around it, and stands where the first character
does that is no blank. -/
def IsTrimmed (piece item : Nat × Text) : Prop :=
  ∃ lead trail, piece.2 = lead ++ (item.2 ++ trail) ∧ item.1 = piece.1 + width lead ∧
    (∀ c ∈ lead, isBlank c = true) ∧ (∀ c ∈ trail, isBlank c = true) ∧
    (∃ first, item.2.head? = some first ∧ isBlank first = false) ∧
    ∃ last, item.2.getLast? = some last ∧ isBlank last = false

theorem trim_eq_nil_iff : trim s = [] ↔ ∀ c ∈ s, isBlank c = true := by
  constructor
  · intro h
    have hnone := withoutBlanks_trim s
    rw [h] at hnone
    simpa using List.filter_eq_nil_iff.1 hnone.symm
  · intro h
    rw [trim, trimStart, List.dropWhile_eq_nil_iff.2 h]
    rfl

theorem trimItem_of_blank {piece : Nat × Text} (h : ∀ c ∈ piece.2, isBlank c = true) :
    trimItem piece = .error piece.1 := by
  rw [trimItem, trim_eq_nil_iff.2 h]
  rfl

/-- A piece that is not blank gives an element. -/
theorem exists_trimItem {piece : Nat × Text} (h : ∃ c ∈ piece.2, isBlank c = false) :
    ∃ item, trimItem piece = .ok item ∧ IsTrimmed piece item := by
  obtain ⟨offset, piece⟩ := piece
  have hne : trim piece ≠ [] := by
    intro hnil
    obtain ⟨c, hc, hink⟩ := h
    rw [trim_eq_nil_iff.1 hnil c hc] at hink
    contradiction
  have hsplit : piece = piece.takeWhile isBlank ++
      (trim piece ++ List.rtakeWhile isBlank (trimStart piece)) := by
    have htail : trim piece ++ List.rtakeWhile isBlank (trimStart piece) = trimStart piece :=
      List.rdropWhile_append_rtakeWhile
    rw [htail, trimStart, List.takeWhile_append_dropWhile]
  refine ⟨(offset + width (piece.takeWhile isBlank), trim piece), by simp [trimItem, hne],
    _, _, hsplit, rfl, fun c hc => List.mem_takeWhile_imp hc,
    fun c hc => List.mem_rtakeWhile_imp hc, ?_, ?_⟩
  · have hfirst := head?_trim piece
    rw [List.head?_eq_some_head hne] at hfirst ⊢
    exact ⟨_, rfl, by simpa using hfirst⟩
  · have hlast := trimEnd_getLast? (trimStart piece)
    rw [← trim, List.getLast?_eq_some_getLast hne] at hlast
    exact ⟨_, List.getLast?_eq_some_getLast hne, by simpa using hlast⟩

/-- Pieces that are not blank give one element each. -/
theorem exists_mapM_trimItem {pieces : List (Nat × Text)}
    (h : ∀ piece ∈ pieces, ∃ c ∈ piece.2, isBlank c = false) :
    ∃ items, List.Forall₂ IsTrimmed pieces items ∧ pieces.mapM trimItem = .ok items := by
  induction pieces with
  | nil => exact ⟨[], .nil, rfl⟩
  | cons piece later ih =>
      obtain ⟨hpiece, hlater⟩ := List.forall_mem_cons.1 h
      obtain ⟨item, htrim, hitem⟩ := exists_trimItem hpiece
      obtain ⟨items, hitems, hmap⟩ := ih hlater
      exact ⟨item :: items, .cons hitem hitems, by rw [List.mapM_cons, htrim, hmap]; rfl⟩

/-- A list whose bracket is closed is cut at the delimiters outside of brackets, and at no
others. Without blank pieces there is one element for each, in order, and otherwise the first
blank one is refused at its start. -/
theorem splitList_cuts (hcut : ∀ c, isCut c = true → isOpening c = false ∧ isClosing c = false)
    {rest : Text} {o : Char} {close : Nat} (hs : s = before ++ o :: rest) (ho : isOpening o = true)
    (hclose : matchingBracket s (width before) = some close) :
    ∃ pieces, CutAtTop isCut (width before + 1) [] (slice s (width before + 1) close) pieces ∧
      (∀ other, CutAtTop isCut (width before + 1) [] (slice s (width before + 1) close) other →
        other = pieces) ∧
      ((∀ piece ∈ pieces, ∃ c ∈ piece.2, isBlank c = false) →
        ∃ items, List.Forall₂ IsTrimmed pieces items ∧
          splitList s (width before) isCut = .ok (items, close)) ∧
      ∀ earlier offset piece later, pieces = earlier ++ (offset, piece) :: later →
        (∀ other ∈ earlier, ∃ c ∈ other.2, isBlank c = false) →
        (∀ c ∈ piece, isBlank c = true) → splitList s (width before) isCut = .error offset := by
  subst hs
  obtain ⟨inside, later, hclosed, rfl⟩ := (matchingBracket_eq_some_iff ho).1 hclose
  obtain ⟨c, -, rfl⟩ := exists_of_untilClosed hclosed
  have hcuts := cutAtTop_of_untilClosed hcut hclosed (width before + 1)
  rw [slice_inside (utf8Size_of_isOpening ho)]
  have hlist : splitList (before ++ o :: (inside ++ c :: later)) (width before) isCut =
      (topFields isCut 0 (width before + 1) inside).mapM trimItem >>= fun items =>
        pure (items, width (before ++ o :: inside)) := by
    rw [splitList, hclose, Option.getD_some, slice_inside (utf8Size_of_isOpening ho)]
  refine ⟨_, hcuts, fun other hother => hcuts.unique hother, fun hink => ?_, ?_⟩
  · obtain ⟨items, hitems, hmap⟩ := exists_mapM_trimItem hink
    exact ⟨items, hitems, by rw [hlist, hmap]; rfl⟩
  · intro earlier offset piece blanks hpieces hearlier hblank
    have herror := mapM_eq_error_iff.2 ⟨earlier, (offset, piece), blanks, hpieces,
      fun other hmem => (exists_trimItem (hearlier other hmem)).imp fun _ h => h.1,
      @trimItem_of_blank (offset, piece) hblank⟩
    rw [hlist, herror]
    rfl

/-- In `x[ é ,{1;2}; b]` the semicolon in curly brackets is no cut, and the one behind them
is. The elements stand behind the blanks, a letter of two bytes counted as two. -/
theorem splitList_cuts_mixed :
    (∀ c, (c == ',' || c == ';') = true → isOpening c = false ∧ isClosing c = false) ∧
      isOpening '[' = true ∧ matchingBracket "x[ é ,\x7b1;2\x7d; b]".toList 1 = some 15 ∧
      ∃ items, List.Forall₂ IsTrimmed
          [(2, " é ".toList), (7, "\x7b1;2\x7d".toList), (13, " b".toList)] items ∧
        splitList "x[ é ,\x7b1;2\x7d; b]".toList 1 (fun c => c == ',' || c == ';') =
          .ok (items, 15) := by
  have hcut : ∀ c, (c == ',' || c == ';') = true → isOpening c = false ∧ isClosing c = false := by
    intro c hc
    rw [Bool.or_eq_true, beq_iff_eq, beq_iff_eq] at hc
    rcases hc with rfl | rfl <;> decide
  have hclose : matchingBracket "x[ é ,\x7b1;2\x7d; b]".toList 1 = some 15 := by decide
  have hinside : untilClosed 1 " é ,\x7b1;2\x7d; b]".toList =
      some (" é ,\x7b1;2\x7d; b".toList, []) := by decide
  have hsplit : "x[ é ,\x7b1;2\x7d; b]".toList =
      "x".toList ++ '[' :: " é ,\x7b1;2\x7d; b]".toList := by decide
  refine ⟨hcut, rfl, hclose, ?_⟩
  obtain ⟨pieces, -, hunique, hok, -⟩ := splitList_cuts hcut hsplit rfl hclose
  have hpieces := hunique _ (cutAtTop_of_untilClosed hcut hinside 2)
  subst hpieces
  exact hok (List.forall_mem_cons.2 ⟨⟨'é', by decide, by decide⟩,
    List.forall_mem_cons.2 ⟨⟨'1', by decide, by decide⟩,
      List.forall_mem_cons.2 ⟨⟨'b', by decide, by decide⟩, fun _ h => absurd h List.not_mem_nil⟩⟩⟩)

end Text

end OdeModel
