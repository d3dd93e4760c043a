import OdeModel.Proofs.Text.Commas

/-!
# Groups in a nested text

A nested text is read from its first run on: it is a run of name characters, goes on with
another character behind its first run, or with a group in brackets. What stands between the
commas of a group is nested itself, and has no comma outside of its brackets.
-/

namespace OdeModel

namespace Text

/-- What stands between the commas outside of brackets. -/
def elements (inside : Text) : List Text := (topFields (· == ',') 0 0 inside).map Prod.snd

theorem map_snd_extend (offset offset' : Nat) (s : Text) {pieces pieces' : List (Nat × Text)}
    (h : pieces.map Prod.snd = pieces'.map Prod.snd) :
    (extend offset s pieces).map Prod.snd = (extend offset' s pieces').map Prod.snd := by
  cases pieces <;> cases pieces' <;> simp_all [extend]

/-- Where a list stands makes no difference to its elements. -/
theorem map_snd_topFields (isCut : Char → Bool) (depth offset offset' : Nat) (s : Text) :
    (topFields isCut depth offset s).map Prod.snd =
      (topFields isCut depth offset' s).map Prod.snd := by
  induction s generalizing depth offset offset' with
  | nil => rfl
  | cons c s ih =>
      by_cases hcut : depth = 0 ∧ isCut c = true ∧ isOpening c = false ∧ isClosing c = false
      · rw [topFields, topFields, if_pos (by simpa using hcut), if_pos (by simpa using hcut),
          List.map_cons, List.map_cons, ih]
      · rw [topFields_cons hcut, topFields_cons hcut]
        exact map_snd_extend _ _ _ (ih _ _ _)

theorem joined_elements (inside : Text) : joined (elements inside) = inside :=
  joined_topFields 0 0 inside

theorem elements_ne_nil (inside : Text) : elements inside ≠ [] := by
  obtain ⟨piece, later, h⟩ := @exists_topFields (· == ',') 0 0 inside
  simp [elements, h]

/-- Texts without commas outside of brackets are the elements of the list that they make. -/
theorem elements_joined {items : List Text} (hne : items ≠ [])
    (hitems : ∀ item ∈ items, Nested (· ≠ ',') item) : elements (joined items) = items := by
  have hpassed : ∀ item ∈ items, Passed (· == ',') 0 item := fun item hitem =>
    (hitems item hitem).passed 0 fun _ c hc => by simpa using hc
  have hall : ∀ offset, (topFields (· == ',') 0 offset (joined items)).map Prod.snd = items := by
    clear hitems
    induction items using List.twoStepInduction with
    | nil => contradiction
    | singleton item =>
        intro offset
        rw [joined_singleton, (hpassed item List.mem_cons_self).topFields_eq]
        rfl
    | cons_cons item next later _ ih =>
        intro offset
        obtain ⟨hitem, hlater⟩ := List.forall_mem_cons.1 hpassed
        rw [joined_cons_cons, hitem.topFields_append_cons rfl rfl rfl, List.map_cons,
          ih next (by simp) hlater]
  exact hall 0

theorem isInfix_of_mem_elements {inside item : Text} (h : item ∈ elements inside) :
    item <:+: inside := by
  have hcut : ∀ c, (c == ',') = true → isNameChar c = false := by
    intro c hc
    rw [beq_iff_eq.1 hc]
    decide
  obtain ⟨piece, hpiece, rfl⟩ := List.mem_map.1 h
  exact (isPieceOf_of_mem_topFields hcut hpiece).isInfix

theorem Nested.of_mem_elements {outside : Char → Prop} {inside : Text}
    (h : Nested outside inside) : ∀ item ∈ elements inside, Nested (· ≠ ',') item := by
  intro item hitem
  obtain ⟨piece, hpiece, rfl⟩ := List.mem_map.1 hitem
  exact (h.uncut_of_mem_topFields piece hpiece).mono fun c hc => by simpa using hc

theorem Nested.joined {items : List Text} (hitems : ∀ item ∈ items, Nested (· ≠ ',') item) :
    Nested (fun _ => True) (Text.joined items) := by
  induction items using List.twoStepInduction with
  | nil => exact Nested.nil
  | singleton item =>
      rw [joined_singleton]
      exact (hitems item List.mem_cons_self).mono fun _ _ => trivial
  | cons_cons item next later _ ih =>
      obtain ⟨hitem, hlater⟩ := List.forall_mem_cons.1 hitems
      rw [joined_cons_cons]
      exact (hitem.mono fun _ _ => trivial).append ((ih next hlater).cons rfl rfl trivial)

/-- What holds of runs, and of a text that goes on behind a run with a character or with a
group, holds of every nested text. Of a group it is known of all that it holds and of each
element between its commas. -/
@[elab_as_elim]
theorem Nested.run_induction
    {motive : ∀ (outside : Char → Prop) (s : Text), Nested outside s → Prop}
    (name : ∀ outside run (hs : Nested outside run), IsNameText run → motive outside run hs)
    (cons : ∀ outside run c rest (hs : Nested outside (run ++ c :: rest))
      (hrest : Nested outside rest), IsNameText run → isNameChar c = false → isOpening c = false →
      isClosing c = false → outside c → motive outside rest hrest →
        motive outside (run ++ c :: rest) hs)
    (group : ∀ outside run o inside c later
      (hs : Nested outside (run ++ o :: (inside ++ c :: later)))
      (hinside : Nested (fun _ => True) inside) (hlater : Nested outside later),
      IsNameText run → isOpening o = true → isClosing c = true → openingOf c = o →
      motive (fun _ => True) inside hinside →
      (∀ item (hitem : item ∈ elements inside),
        motive (· ≠ ',') item (hinside.of_mem_elements item hitem)) →
      motive outside later hlater → motive outside (run ++ o :: (inside ++ c :: later)) hs)
    {outside : Char → Prop} {s : Text} (hs : Nested outside s) : motive outside s hs := by
  -- `run` collects the name characters read so far
  have hstart : ∀ size, ∀ outside s, s.length < size → Nested outside s →
      ∀ run, IsNameText run → ∀ h, motive outside (run ++ s) h := by
    intro size
    induction size with
    | zero => exact fun _ _ hsize => absurd hsize (Nat.not_lt_zero _)
    | succ size ih =>
        have hempty : ∀ outside s, s.length < size → ∀ hs : Nested outside s, motive outside s hs :=
          fun outside s hsize hs => ih outside s hsize hs [] (by simp [IsNameText]) hs
        intro outside s hsize hs run hrun
        cases hs with
        | nil =>
            rw [List.append_nil]
            exact fun h => name outside run h hrun
        | @cons _ c s hopening hclosing hc hs =>
            rw [List.length_cons] at hsize
            cases hname : isNameChar c with
            | true =>
                have hlonger := ih outside s (by omega) hs (run ++ [c])
                  (List.forall_mem_append.2 ⟨hrun, by simpa using hname⟩)
                rwa [List.append_assoc, List.singleton_append] at hlonger
            | false =>
                exact fun h => cons outside run c s h hs hrun hname hopening hclosing hc
                  (hempty outside s (by omega) hs)
        | @enclosed _ o c inside later ho hc hkind hinside hlater =>
            rw [List.length_cons, List.length_append, List.length_cons] at hsize
            refine fun h => group outside run o inside c later h hinside hlater hrun ho hc hkind
              (hempty _ inside (by omega) hinside) (fun item hitem => ?_)
              (hempty outside later (by omega) hlater)
            have hlength := (isInfix_of_mem_elements hitem).length_le
            exact hempty _ item (by omega) (hinside.of_mem_elements item hitem)
  exact hstart (s.length + 1) outside s (Nat.lt_succ_self _) hs [] (by simp [IsNameText]) hs

theorem isNameChar_of_bracket {c : Char} (h : isOpening c = true ∨ isClosing c = true) :
    isNameChar c = false := by
  rw [Bool.eq_false_iff]
  intro hc
  obtain ⟨hopening, hclosing⟩ := not_bracket (Or.inr hc)
  simp [hopening, hclosing] at h

/-- Changing runs to nested texts without commas outside of brackets keeps a text nested. -/
theorem Nested.mapRuns {change : Text → Text} {outside : Char → Prop}
    (houtside : ∀ c, c ≠ ',' → outside c) {s : Text} (hs : Nested outside s)
    (hchange : ∀ run, IsNameText run → Nested (· ≠ ',') (change run)) :
    Nested outside (Text.mapRuns change s) := by
  have hrun : ∀ {outside : Char → Prop} {run : Text}, (∀ c, c ≠ ',' → outside c) →
      IsNameText run → Nested outside (Text.mapRuns change run) := by
    intro outside run houtside hname
    by_cases hne : run = []
    · rw [hne, mapRuns_nil]
      exact Nested.nil
    · rw [mapRuns_of_isNameText change hname hne]
      exact (hchange run hname).mono houtside
  induction hs using Nested.run_induction with
  | name outside run _ hname => exact hrun houtside hname
  | cons outside run c rest _ _ hname hc hopening hclosing houter ih =>
      rw [mapRuns_append_cons change hc]
      exact (hrun houtside hname).append ((ih houtside).cons hopening hclosing houter)
  | group outside run o inside c later _ _ _ hname ho hc hkind ihinside _ ih =>
      rw [mapRuns_append_cons change (isNameChar_of_bracket (.inl ho)),
        mapRuns_append_cons change (isNameChar_of_bracket (.inr hc))]
      exact (hrun houtside hname).append
        ((ihinside fun _ _ => trivial).enclosed ho hc hkind (ih houtside))

/-- A character of a changed text is one of the text or of what a run has been changed to. -/
theorem mem_mapRuns {change : Text → Text} {s : Text} {c : Char} (h : c ∈ Text.mapRuns change s) :
    c ∈ s ∨ ∃ run ∈ runs s, c ∈ change run := by
  induction s using split_induction with
  | nil => simp at h
  | run s hs hne =>
      rw [mapRuns_of_isNameText change hs hne] at h
      exact .inr ⟨s, by simp [runs_of_isNameText hs hne], h⟩
  | split s d t hd ihs iht =>
      rw [mapRuns_append_cons change hd, List.mem_append, List.mem_cons] at h
      rw [runs_append_cons hd]
      rcases h with h | rfl | h
      · exact (ihs h).imp (List.mem_append_left _)
          fun ⟨run, hrun, hc⟩ => ⟨run, List.mem_append_left _ hrun, hc⟩
      · exact .inl (by simp)
      · exact (iht h).imp (fun hc => List.mem_append_right _ (List.mem_cons_of_mem _ hc))
          fun ⟨run, hrun, hc⟩ => ⟨run, List.mem_append_right _ hrun, hc⟩

/-! ### Lists without blanks -/

/-- No element of a list is empty when the list is read. -/
theorem ne_nil_of_splitList {isCut : Char → Bool} {s : Text} {start close : Nat}
    {entries : List (Nat × Text)} (h : splitList s start isCut = .ok (entries, close)) :
    ∀ entry ∈ entries, entry.2 ≠ [] := by
  intro entry hentry
  obtain ⟨trimmed, htrimmed, hpair⟩ := bind_eq_ok_iff.1 h
  cases pure_eq_ok_iff.1 hpair
  obtain ⟨⟨offset, piece⟩, -, htrim⟩ := exists_of_forall₂_mem (mapM_eq_ok_iff.1 htrimmed) hentry
  rw [trimItem] at htrim
  split at htrim
  next => cases htrim
  next hne =>
    cases htrim
    simpa using hne

/-- The text is nested, with the property outside of its brackets, and has no blanks. -/
structure Tight (outside : Char → Prop) (s : Text) : Prop where
  nested : Nested outside s
  no_blank : ∀ c ∈ s, isBlank c = false

namespace Tight

variable {outside other : Char → Prop} {s t : Text}

theorem mono (h : Tight outside s) (hmono : ∀ c, outside c → other c) : Tight other s :=
  ⟨h.nested.mono hmono, h.no_blank⟩

theorem append (hs : Tight outside s) (ht : Tight outside t) : Tight outside (s ++ t) :=
  ⟨hs.nested.append ht.nested, List.forall_mem_append.2 ⟨hs.no_blank, ht.no_blank⟩⟩

theorem of_isNameText (h : IsNameText s) : Tight (· ≠ ',') s := by
  refine ⟨Nested.of_forall fun c hc => ?_, fun c hc => isBlank_of_isNameChar (h c hc)⟩
  obtain ⟨hopening, hclosing⟩ := not_bracket (.inr (h c hc))
  refine ⟨hopening, hclosing, ?_⟩
  rintro rfl
  exact absurd (h ',' hc) (by decide)

theorem enclosed {o c : Char} (ho : isOpening o = true) (hc : isClosing c = true)
    (hkind : openingOf c = o) (hs : Tight (fun _ => True) s) (ht : Tight outside t) :
    Tight outside (o :: (s ++ c :: t)) := by
  refine ⟨hs.nested.enclosed ho hc hkind ht.nested, ?_⟩
  rw [List.forall_mem_cons, List.forall_mem_append, List.forall_mem_cons]
  exact ⟨isBlank_of_bracket (.inl ho), hs.no_blank, isBlank_of_bracket (.inr hc), ht.no_blank⟩

theorem wrap (hs : Tight (· ≠ ',') s) (parenthesize whole : Bool) :
    Tight (· ≠ ',') (wrap parenthesize whole s) := by
  unfold Text.wrap
  split
  next => exact (hs.mono fun _ _ => trivial).enclosed rfl rfl rfl ⟨Nested.nil, by simp⟩
  next => exact hs

theorem mapRuns {change : Text → Text} (hs : Tight (· ≠ ',') s)
    (hchange : ∀ run, IsNameText run → Tight (· ≠ ',') (change run)) :
    Tight (· ≠ ',') (Text.mapRuns change s) := by
  refine ⟨hs.nested.mapRuns (fun _ h => h) fun run hrun => (hchange run hrun).nested, ?_⟩
  intro c hc
  rcases mem_mapRuns hc with hc | ⟨run, hrun, hc⟩
  · exact hs.no_blank c hc
  · exact (hchange run (isNameText_of_mem_runs hrun).2).no_blank c hc

theorem of_mem_elements (hs : Tight outside s) : ∀ item ∈ elements s, Tight (· ≠ ',') item :=
  fun item hitem => ⟨hs.nested.of_mem_elements item hitem,
    fun c hc => hs.no_blank c ((isInfix_of_mem_elements hitem).subset hc)⟩

theorem joined {items : List Text} (hitems : ∀ item ∈ items, Tight (· ≠ ',') item) :
    Tight (fun _ => True) (Text.joined items) := by
  refine ⟨Nested.joined fun item hitem => (hitems item hitem).nested, fun c hc => ?_⟩
  obtain rfl | ⟨item, hitem, hc⟩ := mem_joined hc
  · decide
  · exact (hitems item hitem).no_blank c hc

/-- When a list is read, its elements are those that it is made of, and none is empty. -/
theorem of_splitList_eq_ok {items : List Text} {o c : Char} (ho : isOpening o = true)
    (hc : isClosing c = true) (hne : items ≠ [])
    (hitems : ∀ item ∈ items, Tight (· ≠ ',') item) {before after : Text}
    {entries : List (Nat × Text)} {close : Nat}
    (h : splitList (before ++ o :: Text.joined items ++ c :: after) (width before) (· == ',') =
      .ok (entries, close)) :
    entries.map Prod.snd = items ∧ (∀ item ∈ items, item ≠ []) ∧
      close = width before + 1 + width (Text.joined items) := by
  have htight := joined hitems
  have hsize := utf8Size_of_isOpening ho
  obtain ⟨hclose, hentries⟩ := splitList_eq_ok h
  rw [htight.nested.balanced.matchingBracket_enclosed ho hc, Option.getD_some] at hclose
  have hplace : close = width (before ++ o :: Text.joined items) := by
    rw [hclose]
    simp [hsize, Nat.add_assoc]
  have hfields : (topFields (· == ',') 0 (width before + 1) (Text.joined items)).map Prod.snd =
      items := by
    rw [map_snd_topFields _ _ _ 0]
    exact elements_joined hne fun item hitem => (hitems item hitem).nested
  have htrim : items.map trim = items :=
    (List.map_congr_left fun item hitem => trim_of_no_blank (hitems item hitem).no_blank).trans
      (List.map_id items)
  have hsnd : entries.map Prod.snd = items := by
    have htrimmed := congrArg (List.map trim) hfields
    rw [List.map_map, htrim] at htrimmed
    rw [hentries, hplace, List.append_assoc, List.cons_append, slice_inside hsize]
    exact htrimmed
  refine ⟨hsnd, fun item hitem => ?_, hclose⟩
  rw [← hsnd] at hitem
  obtain ⟨entry, hentry, rfl⟩ := List.mem_map.1 hitem
  exact ne_nil_of_splitList h entry hentry

end Tight

end Text

end OdeModel
