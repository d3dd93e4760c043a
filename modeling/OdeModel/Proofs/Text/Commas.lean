import OdeModel.Proofs.Text.OpenBrackets
import OdeModel.Proofs.Text.Words

/-!
# Commas

Two texts are the same but for blanks and for commas that separate nothing when they have
the same parts. What a list or an expression is cut into gives the text again when it is
put together.
-/

namespace OdeModel

namespace Text

/-- The parts of a text between its commas, without blanks. Empty ones are left out. -/
def parts (s : Text) : List Text :=
  ((withoutBlanks s).splitOn ',').filter fun part => !part.isEmpty

theorem withoutBlanks_append_comma (s t : Text) :
    withoutBlanks (s ++ ',' :: t) = withoutBlanks s ++ ',' :: withoutBlanks t :=
  withoutBlanks_append s (',' :: t)

theorem parts_append_comma (s t : Text) : parts (s ++ ',' :: t) = parts s ++ parts t := by
  rw [parts, withoutBlanks_append_comma, List.splitOn, List.splitOnP_append_cons _ _ rfl,
    List.filter_append]
  rfl

@[simp] theorem parts_comma (s : Text) : parts (',' :: s) = parts s :=
  parts_append_comma [] s

theorem parts_congr {s t : Text} (h : withoutBlanks s = withoutBlanks t) : parts s = parts t := by
  rw [parts, h]
  rfl

/-- What stands in front of a word does not count. -/
theorem parts_gap {gap : Text} (h : IsGap gap) (s : Text) : parts (gap ++ s) = parts s := by
  induction gap with
  | nil => rfl
  | cons c gap ih =>
      obtain ⟨hc, hgap⟩ := List.forall_mem_cons.1 h
      rw [List.cons_append, ← ih hgap]
      rcases hc with rfl | rfl
      · exact parts_congr rfl
      · exact parts_comma _

theorem parts_joined (items : List Text) : parts (joined items) = items.flatMap parts := by
  induction items using List.twoStepInduction with
  | nil => rfl
  | singleton item => simp
  | cons_cons item next later _ ih =>
      rw [joined_cons_cons, parts_append_comma, ih]
      rfl

/-- Number of characters that are neither blank nor a comma. -/
def weight (s : Text) : Nat := s.countP fun c => !isBlank c && c != ','

@[simp] theorem weight_append (s t : Text) : weight (s ++ t) = weight s + weight t :=
  List.countP_append

theorem weight_cons (c : Char) (s : Text) : weight (c :: s) = weight [c] + weight s :=
  weight_append [c] s

/-- The parts hold just the characters that have weight. -/
theorem length_flatten_parts (s : Text) : (parts s).flatten.length = weight s := by
  have hsplit : ∀ t : Text, (t.splitOn ',').flatten = t.filter fun c => c != ',' := by
    intro t
    induction t with
    | nil => rfl
    | cons c t ih =>
        rw [List.splitOn, List.splitOnP_cons_eq_if_modifyHead]
        obtain ⟨first, later, hparts⟩ :=
          List.exists_cons_of_ne_nil (List.splitOnP_ne_nil (· == ',') t)
        rw [List.splitOn, hparts] at ih
        by_cases hc : c = ','
        · simp [hc, hparts, ← ih]
        · simp [hc, hparts, ← ih]
  have hempty : ∀ pieces : List Text,
      (pieces.filter fun piece => !piece.isEmpty).flatten = pieces.flatten :=
    fun pieces => List.flatten_filter_not_isEmpty
  rw [parts, hempty, hsplit, withoutBlanks, List.filter_filter, ← List.countP_eq_length_filter,
    weight]
  congr 1
  funext c
  exact Bool.and_comm _ _

theorem weight_eq_of_parts_eq {s t : Text} (h : parts s = parts t) : weight s = weight t := by
  rw [← length_flatten_parts, h, length_flatten_parts]

theorem weight_joined (items : List Text) : weight (joined items) = (items.map weight).sum := by
  induction items using List.twoStepInduction with
  | nil => rfl
  | singleton item => simp
  | cons_cons item next later _ ih =>
      rw [joined_cons_cons, weight_append, weight_cons, ih]
      simp [show weight [','] = 0 from rfl]

/-! ### Cuts at commas -/

theorem spanToComma_append_eq (depth : Nat) (s : Text) :
    (spanToComma depth s).1 ++ (spanToComma depth s).2 = s := by
  induction s generalizing depth with
  | nil => rfl
  | cons c s ih =>
      unfold spanToComma
      split
      next => rfl
      next => simp [ih]

/-- The text goes on with the comma that ends the span. -/
theorem head?_spanToComma (depth : Nat) (s : Text) :
    ∀ c ∈ (spanToComma depth s).2.head?, c = ',' := by
  induction s generalizing depth with
  | nil => simp [spanToComma]
  | cons c s ih =>
      unfold spanToComma
      split
      next hcut => simp [hcut.2]
      next => exact ih _

/-- A nested text is cut into nested texts. -/
theorem Nested.spanToComma_spec {outside : Char → Prop} {s : Text} (hs : Nested outside s) :
    Nested (fun c => c ≠ ',') (spanToComma 0 s).1 ∧ Nested outside (spanToComma 0 s).2 := by
  induction hs with
  | nil => exact ⟨Nested.nil, Nested.nil⟩
  | @cons _ c s hopening hclosing hc hs ih =>
      unfold spanToComma
      split
      next => exact ⟨Nested.nil, hs.cons hopening hclosing hc⟩
      next hstay =>
        rw [nest_other hopening hclosing]
        exact ⟨ih.1.cons hopening hclosing fun hcomma => hstay ⟨rfl, hcomma⟩, ih.2⟩
  | @enclosed _ o c inside s ho hc hkind hinside _ _ ih =>
      have hgroup : Nested (fun c => c ≠ ',') (o :: (inside ++ [c])) :=
        hinside.bracketed ho hc hkind
      have hsplit : o :: (inside ++ c :: s) = o :: (inside ++ [c]) ++ s := by simp
      rw [hsplit, hgroup.spanToComma_append 0 (fun _ _ h => h)]
      exact ⟨hgroup.append ih.1, ih.2⟩

theorem joined_cons_char (c : Char) (item : Text) (later : List Text) :
    joined ((c :: item) :: later) = c :: joined (item :: later) := by
  cases later <;> simp

/-- The pieces between commas, with commas between them. -/
theorem joined_topFields (depth offset : Nat) (s : Text) :
    joined ((topFields (· == ',') depth offset s).map Prod.snd) = s := by
  induction s generalizing depth offset with
  | nil => rfl
  | cons c s ih =>
      by_cases hcut : depth = 0 ∧ (c == ',') = true ∧ isOpening c = false ∧ isClosing c = false
      · obtain ⟨rfl, hc, hbracket⟩ := hcut
        obtain rfl : c = ',' := by simpa using hc
        have hrest := ih 0 (offset + (',').utf8Size)
        obtain ⟨piece, later, hfields⟩ :=
          @exists_topFields (· == ',') 0 (offset + (',').utf8Size) s
        rw [hfields] at hrest
        rw [topFields, if_pos (by simp [hbracket]), hfields]
        simpa using hrest
      · have hrest := ih (nest depth c) (offset + c.utf8Size)
        obtain ⟨piece, later, hfields⟩ :=
          @exists_topFields (· == ',') (nest depth c) (offset + c.utf8Size) s
        rw [hfields] at hrest
        rw [topFields_cons hcut, hfields, extend, List.map_cons, List.singleton_append,
          joined_cons_char]
        exact congrArg (c :: ·) hrest

theorem withoutBlanks_trim (s : Text) : withoutBlanks (trim s) = withoutBlanks s := by
  have hdrop : ∀ t : Text, withoutBlanks (t.dropWhile isBlank) = withoutBlanks t := by
    intro t
    induction t with
    | nil => rfl
    | cons c t ih =>
        cases hc : isBlank c with
        | true => simpa [withoutBlanks, hc] using ih
        | false => rw [List.dropWhile_cons_of_neg (by simp [hc])]
  have hreverse : ∀ t : Text, withoutBlanks t.reverse = (withoutBlanks t).reverse :=
    fun t => List.filter_reverse ..
  rw [trim, trimEnd, dropEndWhile, hreverse, hdrop, hreverse, List.reverse_reverse, trimStart,
    hdrop]

/-- Where there are no blanks the elements are what stands between the commas. -/
theorem joined_trim_topFields {depth offset : Nat} {inside : Text}
    (hblank : ∀ c ∈ inside, isBlank c = false) :
    joined ((topFields (· == ',') depth offset inside).map fun piece => trim piece.2) =
      inside := by
  have hcut : ∀ c, (c == ',') = true → isNameChar c = false := by
    intro c hc
    rw [beq_iff_eq.1 hc]
    decide
  have hplain : ∀ piece ∈ topFields (· == ',') depth offset inside, trim piece.2 = piece.2 :=
    fun piece hpiece => trim_of_no_blank fun c hc =>
      hblank c ((isPieceOf_of_mem_topFields hcut hpiece).isInfix.subset hc)
  rw [List.map_congr_left hplain, joined_topFields]

/-- The elements of a list are what stands between its commas, without the blanks around. -/
theorem splitList_eq_ok {isCut : Char → Bool} {s : Text} {start close : Nat}
    {items : List (Nat × Text)} (h : splitList s start isCut = .ok (items, close)) :
    close = (matchingBracket s start).getD (width s) ∧ items.map Prod.snd =
      (topFields isCut 0 (start + 1) (slice s (start + 1) close)).map
        fun piece => trim piece.2 := by
  unfold splitList at h
  obtain ⟨trimmed, hitems, hpair⟩ := bind_eq_ok_iff.1 h
  cases pure_eq_ok_iff.1 hpair
  refine ⟨rfl, ?_⟩
  rw [mapM_eq_ok_iff] at hitems
  clear h hpair
  generalize topFields isCut 0 _ _ = pieces at hitems
  induction hitems with
  | nil => rfl
  | @cons piece item pieces items htrim _ ih =>
      rw [trimItem] at htrim
      split at htrim
      next => contradiction
      next =>
        cases htrim
        exact congrArg (trim piece.2 :: ·) ih

theorem withoutBlanks_joined (items : List Text) :
    withoutBlanks (joined items) = joined (items.map withoutBlanks) := by
  induction items using List.twoStepInduction with
  | nil => rfl
  | singleton item => simp
  | cons_cons item next later _ ih =>
      rw [joined_cons_cons, withoutBlanks_append_comma, ih]
      simp

/-- The elements of a list stand in its brackets, or before the end of the text if it is not
closed. -/
theorem exists_of_splitList {isCut : Char → Bool} {before rest : Text} {o : Char} {close : Nat}
    {items : List (Nat × Text)} (ho : isOpening o = true)
    (h : splitList (before ++ o :: rest) (width before) isCut = .ok (items, close)) :
    ∃ inside behind, rest = inside ++ behind ∧ (∀ c ∈ behind.head?, isClosing c = true) ∧
      items.map Prod.snd =
        (topFields isCut 0 (width before + 1) inside).map fun piece => trim piece.2 := by
  obtain ⟨hclose, hitems⟩ := splitList_eq_ok h
  have hsize := utf8Size_of_isOpening ho
  cases hmatching : matchingBracket (before ++ o :: rest) (width before) with
  | none =>
      have hend : close = width (before ++ o :: rest) := by rw [hclose, hmatching, Option.getD_none]
      have hinside := slice_inside hsize before rest []
      rw [List.append_nil, ← hend] at hinside
      exact ⟨rest, [], by simp, by simp, by rw [hitems, hinside]⟩
  | some found =>
      obtain ⟨inside, later, hclosed, hfound⟩ := (matchingBracket_eq_some_iff ho).1 hmatching
      obtain ⟨c, hc, rfl⟩ := exists_of_untilClosed hclosed
      have hend : close = width (before ++ o :: inside) := by
        rw [hclose, hmatching, Option.getD_some, hfound]
      exact ⟨inside, c :: later, rfl, by simpa using hc,
        by rw [hitems, hend, slice_inside hsize]⟩

/-! ### Ends of brackets -/

/-- A bracket is closed by one of its own kind behind a nested text. -/
theorem Nested.exists_inside {outside : Char → Prop} {before rest : Text} {o : Char}
    (ho : isOpening o = true) (hs : Nested outside (before ++ o :: rest)) :
    ∃ inside c later, rest = inside ++ c :: later ∧ Nested (fun _ => True) inside ∧
      isClosing c = true ∧ openingOf c = o := by
  have hchecked : imbalance? [] 0 (before ++ o :: rest) = none :=
    imbalance?_eq_none_iff.2 (hs.mono fun _ _ => trivial)
  obtain ⟨stack, -, hstack⟩ := exists_openAfter hchecked
  rw [imbalance?_open ho] at hstack
  obtain ⟨inside, c, later, hrest, hinside, hc, hkind, -⟩ := Text.exists_inside hstack
  exact ⟨inside, c, later, hrest, hinside, hc, hkind⟩

/-- A text whose brackets are nested stays so without a nested part at its start. -/
theorem Nested.right {s t : Text} (h : Nested (fun _ => True) (s ++ t))
    (hs : Nested (fun _ => True) s) : Nested (fun _ => True) t := by
  have hchecked : imbalance? [] 0 (s ++ t) = none := imbalance?_eq_none_iff.2 h
  rw [hs.imbalance?_append] at hchecked
  exact imbalance?_eq_none_iff.1 hchecked

theorem Nested.of_append {s t : Text} (h : Nested (fun _ => True) (s ++ t))
    (hs : ∀ c ∈ s, isOpening c = false ∧ isClosing c = false) : Nested (fun _ => True) t :=
  h.right (Nested.of_forall fun c hc => ⟨(hs c hc).1, (hs c hc).2, trivial⟩)

/-- What closes a bracket behind a nested text is of its own kind. -/
theorem openingOf_eq_of_imbalance? {before inside later : Text} {o c : Char}
    (ho : isOpening o = true) (hc : isClosing c = true)
    (hinside : Nested (fun _ => True) inside)
    (h : imbalance? [] 0 (before ++ o :: (inside ++ c :: later)) = none) : openingOf c = o := by
  obtain ⟨stack, -, hstack⟩ := exists_openAfter h
  rw [imbalance?_open ho, hinside.imbalance?_append, imbalance?_close hc] at hstack
  split at hstack
  next hkind => exact hkind.symm
  next => contradiction

/-- The pieces of a nested text between cuts outside of brackets are nested, and all cuts in
them are in brackets. -/
theorem Nested.uncut_of_mem_topFields {isCut : Char → Bool} {outside : Char → Prop} {s : Text}
    (hs : Nested outside s) {offset : Nat} :
    ∀ piece ∈ topFields isCut 0 offset s, Nested (fun c => isCut c = false) piece.2 := by
  have hextend : ∀ {t : Text} (offset : Nat) {pieces : List (Nat × Text)},
      Nested (fun c => isCut c = false) t →
      (∀ piece ∈ pieces, Nested (fun c => isCut c = false) piece.2) →
        ∀ piece ∈ extend offset t pieces, Nested (fun c => isCut c = false) piece.2 := by
    intro t offset pieces ht hpieces
    cases pieces with
    | nil => simpa [extend] using ht
    | cons first later =>
        obtain ⟨hfirst, hlater⟩ := List.forall_mem_cons.1 hpieces
        exact List.forall_mem_cons.2 ⟨ht.append hfirst, hlater⟩
  induction hs generalizing offset with
  | nil => simpa [topFields] using Nested.nil
  | @cons _ c s hopening hclosing _ _ ih =>
      cases hcut : isCut c with
      | true =>
          rw [topFields, if_pos (by simp [hcut, hopening, hclosing])]
          exact List.forall_mem_cons.2 ⟨Nested.nil, ih⟩
      | false =>
          rw [topFields_cons (by simp [hcut]), nest_other hopening hclosing]
          exact hextend offset (Nested.nil.cons hopening hclosing hcut) ih
  | @enclosed _ o c inside s ho hc hkind hinside _ _ ih =>
      have hgroup : Nested (fun _ => False) (o :: (inside ++ [c])) :=
        hinside.bracketed ho hc hkind
      have hsplit : o :: (inside ++ c :: s) = o :: (inside ++ [c]) ++ s := by simp
      rw [hsplit, hgroup.passed 0 (fun _ _ h => h.elim) 0 (Nat.le_refl 0)]
      exact hextend offset (hgroup.mono fun _ h => h.elim) ih

theorem Nested.of_mem_topFields {isCut : Char → Bool} {outside : Char → Prop} {s : Text}
    (hs : Nested outside s) {offset : Nat} :
    ∀ piece ∈ topFields isCut 0 offset s, Nested (fun _ => True) piece.2 := fun piece hpiece =>
  (hs.uncut_of_mem_topFields piece hpiece).mono fun _ _ => trivial

theorem IsGap.not_bracket {gap : Text} (h : IsGap gap) {c : Char} (hc : c ∈ gap) :
    isOpening c = false ∧ isClosing c = false := by
  rcases h c hc with rfl | rfl <;> decide

/-- Brackets are no blanks. -/
theorem isBlank_of_bracket {c : Char} (h : isOpening c = true ∨ isClosing c = true) :
    isBlank c = false := by
  simp only [isOpening, isClosing, Bool.or_eq_true, beq_iff_eq] at h
  rcases h with ((rfl | rfl) | rfl) | ((rfl | rfl) | rfl) <;> decide

theorem not_bracket_of_isBlank {c : Char} (h : isBlank c = true) :
    isOpening c = false ∧ isClosing c = false := by
  constructor
  · rw [Bool.eq_false_iff]
    intro hopening
    rw [isBlank_of_bracket (Or.inl hopening)] at h
    contradiction
  · rw [Bool.eq_false_iff]
    intro hclosing
    rw [isBlank_of_bracket (Or.inr hclosing)] at h
    contradiction

/-- Blanks are outside of brackets or between them, and may be left out. -/
theorem Nested.withoutBlanks {outside : Char → Prop} {s : Text} (hs : Nested outside s) :
    Nested outside (Text.withoutBlanks s) := by
  induction hs with
  | nil => exact Nested.nil
  | @cons _ c s hopening hclosing hc _ ih =>
      cases hblank : isBlank c with
      | true => simpa [Text.withoutBlanks, hblank] using ih
      | false => simpa [Text.withoutBlanks, hblank] using ih.cons hopening hclosing hc
  | @enclosed _ o c inside s ho hc hkind _ _ ihinside ih =>
      have hsplit : Text.withoutBlanks (o :: (inside ++ c :: s)) =
          o :: (Text.withoutBlanks inside ++ c :: Text.withoutBlanks s) := by
        simp [Text.withoutBlanks, isBlank_of_bracket (Or.inl ho), isBlank_of_bracket (Or.inr hc)]
      rw [hsplit]
      exact Nested.enclosed ho hc hkind ihinside ih

/-- A text without commas outside of brackets does not end with one. -/
theorem Nested.getLast?_ne_comma {outside : Char → Prop} (houtside : ∀ c, outside c → c ≠ ',')
    {s : Text} (hs : Nested outside s) : s.getLast? ≠ some ',' := by
  have hlast : ∀ (c : Char) (s : Text), c ≠ ',' → s.getLast? ≠ some ',' →
      (c :: s).getLast? ≠ some ',' := by
    intro c s hc hs
    rw [List.getLast?_cons]
    cases hlast : s.getLast? with
    | none => simpa using hc
    | some d => simpa [hlast] using hs
  induction hs with
  | nil => simp
  | cons _ _ hc _ ih => exact hlast _ _ (houtside _ hc) (ih houtside)
  | @enclosed _ o c inside s _ hclosing _ _ _ _ ih =>
      have hc : c ≠ ',' := by
        rintro rfl
        contradiction
      have hsplit : o :: (inside ++ c :: s) = o :: inside ++ c :: s := by simp
      rw [hsplit, List.getLast?_append_of_ne_nil _ (by simp)]
      exact hlast c s hc (ih houtside)

/-- A list in a nested text is closed by a bracket of the kind that opens it. Its elements
are cut out of what stands between the two. -/
theorem Nested.splitList_spec {outside : Char → Prop} {isCut : Char → Bool} {before rest : Text}
    {o : Char} (ho : isOpening o = true) (hs : Nested outside (before ++ o :: rest))
    {items : List (Nat × Text)} {close : Nat}
    (h : splitList (before ++ o :: rest) (width before) isCut = .ok (items, close)) :
    ∃ inside c later, rest = inside ++ c :: later ∧ Nested (fun _ => True) inside ∧
      isClosing c = true ∧ openingOf c = o ∧ close = width (before ++ o :: inside) ∧
      items.map Prod.snd =
        (topFields isCut 0 (width before + 1) inside).map fun piece => trim piece.2 := by
  obtain ⟨inside, c, later, rfl, hinside, hc, hkind⟩ := hs.exists_inside ho
  obtain ⟨hclose, hitems⟩ := splitList_eq_ok h
  have hmatching := hinside.balanced.matchingBracket_enclosed ho hc before later
  rw [List.append_assoc, List.cons_append] at hmatching
  rw [hmatching, Option.getD_some] at hclose
  have hplace : close = width (before ++ o :: inside) := by
    rw [hclose]
    simp [utf8Size_of_isOpening ho, Nat.add_assoc]
  rw [hplace, slice_inside (utf8Size_of_isOpening ho)] at hitems
  exact ⟨inside, c, later, rfl, hinside, hc, hkind, hplace, hitems⟩

end Text

end OdeModel
