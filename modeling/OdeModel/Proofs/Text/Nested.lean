import OdeModel.Line.Balance
import OdeModel.Proofs.Text.Places
import Mathlib.Data.List.Induction

/-!
# Nested brackets

A text passes the check of its brackets when they are nested. Whatever counts brackets
without looking at their kinds passes over such a text as a whole.
-/

namespace OdeModel

namespace Text

theorem imbalance?_open {c : Char} (h : isOpening c = true) (stack : List (Nat × Char))
    (offset : Nat) (rest : Text) :
    imbalance? stack offset (c :: rest) =
      imbalance? ((offset, c) :: stack) (offset + c.utf8Size) rest := by
  rw [imbalance?.eq_def]
  simp [h]

theorem imbalance?_close {c : Char} (h : isClosing c = true) (start : Nat) (o : Char)
    (outer : List (Nat × Char)) (offset : Nat) (rest : Text) :
    imbalance? ((start, o) :: outer) offset (c :: rest) =
      if o = openingOf c then imbalance? outer (offset + c.utf8Size) rest
      else some (.missingClosingBracket, start) := by
  rw [imbalance?.eq_def]
  simp [h, isOpening_of_isClosing h]

theorem imbalance?_other {c : Char} (hopening : isOpening c = false)
    (hclosing : isClosing c = false) (stack : List (Nat × Char)) (offset : Nat) (rest : Text) :
    imbalance? stack offset (c :: rest) = imbalance? stack (offset + c.utf8Size) rest := by
  rw [imbalance?.eq_def]
  simp [hopening, hclosing]

/-- The text is read with the open brackets on a stack, the last one first, each with its
position. A closing bracket takes one of its own kind off. -/
structure KeepsStack {α : Type} (read : List (Nat × Char) → Nat → Text → α) : Prop where
  opening : ∀ {c : Char}, isOpening c = true → ∀ stack offset rest,
    read stack offset (c :: rest) = read ((offset, c) :: stack) (offset + c.utf8Size) rest
  closing : ∀ {c : Char}, isClosing c = true → ∀ start outer offset rest,
    read ((start, openingOf c) :: outer) offset (c :: rest) =
      read outer (offset + c.utf8Size) rest
  other : ∀ {c : Char}, isOpening c = false → isClosing c = false → ∀ stack offset rest,
    read stack offset (c :: rest) = read stack (offset + c.utf8Size) rest

theorem keepsStack_imbalance? : KeepsStack imbalance? where
  opening := imbalance?_open
  closing h start outer offset rest := by rw [imbalance?_close h, if_pos rfl]
  other := imbalance?_other

/-- Every bracket is closed by one of its own kind, behind a nested text, and the characters
outside of all brackets have the property. -/
inductive Nested : (Char → Prop) → Text → Prop
  /-- Nothing is nested. -/
  | nil {outside : Char → Prop} : Nested outside []
  /-- A character that is no bracket. -/
  | cons {outside : Char → Prop} {c : Char} {s : Text} (hopening : isOpening c = false)
      (hclosing : isClosing c = false) (hc : outside c) (hs : Nested outside s) :
      Nested outside (c :: s)
  /-- A pair of brackets with a nested text between them. -/
  | enclosed {outside : Char → Prop} {o c : Char} {inside s : Text} (ho : isOpening o = true)
      (hc : isClosing c = true) (hkind : openingOf c = o) (hinside : Nested (fun _ => True) inside)
      (hs : Nested outside s) : Nested outside (o :: (inside ++ c :: s))

namespace Nested

variable {outside other : Char → Prop} {s t : Text}

theorem append (hs : Nested outside s) (ht : Nested outside t) : Nested outside (s ++ t) := by
  induction hs with
  | nil => exact ht
  | cons hopening hclosing hc _ ih => exact (ih ht).cons hopening hclosing hc
  | enclosed ho hc hkind hinside _ _ ih =>
      rw [List.cons_append, List.append_assoc]
      exact enclosed ho hc hkind hinside (ih ht)

theorem mono (h : ∀ c, outside c → other c) (hs : Nested outside s) : Nested other s := by
  induction hs with
  | nil => exact nil
  | cons hopening hclosing hc _ ih => exact (ih h).cons hopening hclosing (h _ hc)
  | enclosed ho hc hkind hinside _ _ ih => exact enclosed ho hc hkind hinside (ih h)

theorem of_forall (h : ∀ c ∈ s, isOpening c = false ∧ isClosing c = false ∧ outside c) :
    Nested outside s := by
  induction s with
  | nil => exact nil
  | cons c s ih =>
      obtain ⟨⟨hopening, hclosing, hc⟩, hlater⟩ := List.forall_mem_cons.1 h
      exact (ih hlater).cons hopening hclosing hc

theorem bracketed {o c : Char} (ho : isOpening o = true) (hc : isClosing c = true)
    (hkind : openingOf c = o) (hs : Nested (fun _ => True) s) : Nested outside (o :: (s ++ [c])) :=
  enclosed ho hc hkind hs nil

theorem balanced (hs : Nested outside s) : Balanced s := by
  induction hs with
  | nil => exact balanced_nil
  | cons hopening hclosing _ _ ih => exact ih.cons hopening hclosing
  | @enclosed _ o c inside s ho hc _ _ _ ihinside ih =>
      have hsplit : o :: (inside ++ c :: s) = (o :: inside ++ [c]) ++ s := by simp
      rw [hsplit]
      exact (ihinside.bracketed ho hc (isOpening_of_isClosing hc)).append ih

/-- What a bracket holds ends before the closing bracket behind a nested text. -/
theorem untilClosed_eq (hs : Nested outside s) {c : Char} (hc : isClosing c = true)
    (later : Text) : untilClosed 1 (s ++ c :: later) = some (s, later) := by
  rw [hs.balanced 1 Nat.one_pos, untilClosed_close (isOpening_of_isClosing hc) hc, if_pos rfl]
  simp

/-- Text that is cut at some characters only outside of brackets is not cut here. -/
theorem passed {isCut : Char → Bool} (hs : Nested outside s) (low : Nat)
    (hcut : low = 0 → ∀ c, outside c → isCut c = false) : Passed isCut low s := by
  induction hs generalizing low with
  | nil => exact Passed.nil isCut low
  | cons hopening hclosing hc _ ih =>
      refine (ih low hcut).cons hopening hclosing fun hcutc => Nat.pos_of_ne_zero fun hlow => ?_
      rw [hcut hlow _ hc] at hcutc
      contradiction
  | @enclosed _ o c inside s ho hc _ _ _ ihinside ih =>
      have hsplit : o :: (inside ++ c :: s) = (o :: inside ++ [c]) ++ s := by simp
      rw [hsplit]
      exact ((ihinside 1 (by simp)).enclosed ho hc).append (ih low hcut)

/-- Text up to a comma outside of brackets is read over a text without one. -/
theorem spanToComma_append (hs : Nested outside s) (depth : Nat)
    (hcomma : depth = 0 → ∀ c, outside c → c ≠ ',') (rest : Text) :
    spanToComma depth (s ++ rest) =
      (s ++ (spanToComma depth rest).1, (spanToComma depth rest).2) := by
  induction hs generalizing depth rest with
  | nil => rfl
  | cons hopening hclosing hc _ ih =>
      have hstay : ¬ (depth = 0 ∧ _ = ',') := fun h => hcomma h.1 _ hc h.2
      rw [List.cons_append, spanToComma, if_neg hstay, nest_other hopening hclosing,
        ih depth hcomma rest]
      rfl
  | @enclosed _ o c inside s ho hc _ _ _ ihinside ih =>
      have hopen : ¬ (depth = 0 ∧ o = ',') := by
        rintro ⟨-, rfl⟩
        contradiction
      rw [List.cons_append, spanToComma, if_neg hopen, nest_open ho, List.append_assoc,
        ihinside (depth + 1) (by simp), List.cons_append, spanToComma, if_neg (by omega),
        nest_close hc, ih depth hcomma rest]
      simp

/-- A nested text leaves the open brackets as they are. -/
theorem read_append {α : Type} {read : List (Nat × Char) → Nat → Text → α}
    (hread : KeepsStack read) (hs : Nested outside s) (stack : List (Nat × Char)) (offset : Nat)
    (rest : Text) : read stack offset (s ++ rest) = read stack (offset + width s) rest := by
  induction hs generalizing stack offset rest with
  | nil => rfl
  | cons hopening hclosing _ _ ih =>
      rw [List.cons_append, hread.other hopening hclosing, ih, width_cons, Nat.add_assoc]
  | @enclosed _ o c inside s ho hc hkind _ _ ihinside ih =>
      rw [List.cons_append, hread.opening ho, List.append_assoc, ihinside, List.cons_append,
        ← hkind, hread.closing hc, ih]
      simp [Nat.add_assoc]

theorem imbalance?_append (hs : Nested outside s) (stack : List (Nat × Char)) (offset : Nat)
    (rest : Text) :
    imbalance? stack offset (s ++ rest) = imbalance? stack (offset + width s) rest :=
  hs.read_append keepsStack_imbalance? stack offset rest

end Nested

/-- In a text that passes the check of its brackets an open one is closed by one of its own
kind, behind a nested text. -/
theorem exists_inside {stack : List (Nat × Char)} {start offset : Nat} {o : Char} {s : Text}
    (h : imbalance? ((start, o) :: stack) offset s = none) :
    ∃ inside c later, s = inside ++ c :: later ∧ Nested (fun _ => True) inside ∧
      isClosing c = true ∧ openingOf c = o ∧
      imbalance? stack (offset + width (inside ++ [c])) later = none := by
  obtain ⟨size, hsize⟩ : ∃ size, s.length = size := ⟨_, rfl⟩
  induction size using Nat.strong_induction_on generalizing s stack start offset o with
  | _ size ih =>
    cases s with
    | nil => simp [imbalance?] at h
    | cons d rest =>
        cases hopening : isOpening d with
        | true =>
            -- a bracket in it is closed first, and then the text goes on
            rw [imbalance?_open hopening] at h
            obtain ⟨first, c, middle, rfl, hfirst, hc, hkind, hmiddle⟩ :=
              ih rest.length (by simp at hsize; omega) h rfl
            obtain ⟨second, c', later, rfl, hsecond, hc', hkind', hlater⟩ :=
              ih middle.length (by simp at hsize; omega) hmiddle rfl
            refine ⟨d :: (first ++ c :: second), c', later, by simp,
              hfirst.enclosed hopening hc hkind hsecond, hc', hkind', ?_⟩
            rw [← hlater]
            congr 1
            simp
            omega
        | false =>
            cases hclosing : isClosing d with
            | true =>
                rw [imbalance?_close hclosing] at h
                split at h
                next hkind =>
                  exact ⟨[], d, rest, rfl, Nested.nil, hclosing, hkind.symm, by simpa using h⟩
                next => contradiction
            | false =>
                rw [imbalance?_other hopening hclosing] at h
                obtain ⟨inside, c, later, rfl, hinside, hc, hkind, hlater⟩ :=
                  ih rest.length (by simp at hsize; omega) h rfl
                refine ⟨d :: inside, c, later, rfl, hinside.cons hopening hclosing trivial, hc,
                  hkind, ?_⟩
                rw [← hlater]
                congr 1
                simp
                omega

/-- The brackets of a text pass the check just when they are nested. -/
theorem imbalance?_eq_none_iff {offset : Nat} {s : Text} :
    imbalance? [] offset s = none ↔ Nested (fun _ => True) s := by
  constructor
  · intro h
    obtain ⟨size, hsize⟩ : ∃ size, s.length = size := ⟨_, rfl⟩
    induction size using Nat.strong_induction_on generalizing s offset with
    | _ size ih =>
      cases s with
      | nil => exact Nested.nil
      | cons d rest =>
          cases hopening : isOpening d with
          | true =>
              rw [imbalance?_open hopening] at h
              obtain ⟨inside, c, later, rfl, hinside, hc, hkind, hlater⟩ := exists_inside h
              exact hinside.enclosed hopening hc hkind
                (ih later.length (by simp at hsize; omega) hlater rfl)
          | false =>
              cases hclosing : isClosing d with
              | true =>
                  rw [imbalance?.eq_def] at h
                  simp [hopening, hclosing] at h
              | false =>
                  rw [imbalance?_other hopening hclosing] at h
                  exact (ih rest.length (by simp at hsize; omega) h rfl).cons hopening hclosing
                    trivial
  · intro h
    have hend := h.imbalance?_append [] offset []
    rw [List.append_nil] at hend
    rw [hend]
    rfl

/-! ### Items of a list -/

/-- A text that may be an element of a list: it has no blanks, its brackets pass the check,
and no comma in it stands outside of all brackets. -/
structure IsItem (s : Text) : Prop where
  ne_nil : s ≠ []
  no_blank : ∀ c ∈ s, isBlank c = false
  balanced : imbalance? [] 0 s = none
  no_comma : ∀ before after, s = before ++ ',' :: after → imbalance? [] 0 before ≠ none

theorem isItem_iff {s : Text} :
    IsItem s ↔ s ≠ [] ∧ s.all (!isBlank ·) = true ∧ imbalance? [] 0 s = none ∧
      ∀ place ∈ List.range s.length, s[place]? = some ',' →
        imbalance? [] 0 (s.take place) ≠ none := by
  constructor
  · rintro ⟨hne, hblank, hbalanced, hcomma⟩
    refine ⟨hne, by simpa using hblank, hbalanced, fun place hplace hfound => ?_⟩
    obtain ⟨hlt, hfound⟩ := List.getElem?_eq_some_iff.1 hfound
    refine hcomma _ (s.drop (place + 1)) ?_
    rw [← hfound, ← List.drop_eq_getElem_cons, List.take_append_drop]
  · rintro ⟨hne, hblank, hbalanced, hcomma⟩
    refine ⟨hne, by simpa using hblank, hbalanced, ?_⟩
    rintro before after rfl
    simpa using hcomma before.length (by simp) (by simp)

instance (s : Text) : Decidable (IsItem s) := decidable_of_iff' _ isItem_iff

/-- The elements with commas between them. -/
def joined (items : List Text) : Text := [','].intercalate items

@[simp] theorem joined_singleton (item : Text) : joined [item] = item := by
  simp [joined, List.intercalate]

@[simp] theorem joined_cons_cons (item next : Text) (later : List Text) :
    joined (item :: next :: later) = item ++ ',' :: joined (next :: later) := by
  simp [joined, List.intercalate]

theorem mem_joined {items : List Text} {c : Char} (h : c ∈ joined items) :
    c = ',' ∨ ∃ item ∈ items, c ∈ item := by
  induction items using List.twoStepInduction with
  | nil => simp [joined] at h
  | singleton item => exact Or.inr ⟨item, List.mem_cons_self, by simpa using h⟩
  | cons_cons item next later _ ih =>
      rw [joined_cons_cons, List.mem_append, List.mem_cons] at h
      rcases h with hfirst | hcomma | hlater
      · exact Or.inr ⟨item, List.mem_cons_self, hfirst⟩
      · exact Or.inl hcomma
      · obtain hcomma | ⟨found, hfound, hc⟩ := ih next hlater
        · exact Or.inl hcomma
        · exact Or.inr ⟨found, List.mem_cons_of_mem item hfound, hc⟩

theorem length_joined (items : List Text) : items.length ≤ (joined items).length + 1 := by
  induction items using List.twoStepInduction with
  | nil => simp
  | singleton item => simp
  | cons_cons item next later _ ih =>
      have hlater := ih next
      rw [joined_cons_cons]
      simp only [List.length_append, List.length_cons] at hlater ⊢
      omega

/-- Without a comma behind a nested text all commas are in brackets. -/
theorem Nested.outside_comma {outside : Char → Prop} {s : Text} (hs : Nested outside s)
    (h : ∀ before after, s = before ++ ',' :: after → ¬ Nested (fun _ => True) before) :
    Nested (fun c => c ≠ ',') s := by
  induction hs with
  | nil => exact nil
  | @cons _ c s hopening hclosing _ _ ih =>
      refine (ih fun before after hsplit hbefore => ?_).cons hopening hclosing ?_
      · exact h (c :: before) after (by rw [hsplit]; rfl)
          (hbefore.cons hopening hclosing trivial)
      · rintro rfl
        exact h [] s rfl nil
  | @enclosed _ o c inside s ho hc hkind hinside _ _ ih =>
      refine hinside.enclosed ho hc hkind (ih fun before after hsplit hbefore => ?_)
      exact h (o :: (inside ++ c :: before)) after (by rw [hsplit]; simp)
        (hinside.enclosed ho hc hkind hbefore)

namespace IsItem

variable {s : Text} {items : List Text}

theorem nested (h : IsItem s) : Nested (fun c => c ≠ ',') s :=
  (imbalance?_eq_none_iff.1 h.balanced).outside_comma fun before after hsplit hbefore =>
    h.no_comma before after hsplit (imbalance?_eq_none_iff.2 hbefore)

/-- A text without blanks, brackets and commas. -/
theorem of_forall (hne : s ≠ []) (h : ∀ c ∈ s, isBlank c = false ∧ isOpening c = false ∧
    isClosing c = false ∧ c ≠ ',') : IsItem s where
  ne_nil := hne
  no_blank := fun c hc => (h c hc).1
  balanced := imbalance?_eq_none_iff.2 <| Nested.of_forall fun c hc =>
    ⟨(h c hc).2.1, (h c hc).2.2.1, trivial⟩
  no_comma := by
    rintro before after rfl
    exact absurd rfl (h ',' (by simp)).2.2.2

theorem passed (h : IsItem s) : Passed (· == ',') 0 s :=
  h.nested.passed 0 fun _ c hc => by simpa using hc

theorem map_snd_topFields (hne : items ≠ []) (hitems : ∀ item ∈ items, IsItem item)
    (offset : Nat) : (topFields (· == ',') 0 offset (joined items)).map Prod.snd = items := by
  induction items using List.twoStepInduction generalizing offset with
  | nil => contradiction
  | singleton item =>
      have hitem := hitems item List.mem_cons_self
      rw [joined_singleton, hitem.passed.topFields_eq]
      rfl
  | cons_cons item next later _ ih =>
      obtain ⟨hitem, hlater⟩ := List.forall_mem_cons.1 hitems
      rw [joined_cons_cons, hitem.passed.topFields_append_cons rfl rfl rfl, List.map_cons,
        ih next (by simp) hlater]

theorem nested_joined (hitems : ∀ item ∈ items, IsItem item) :
    Nested (fun _ => True) (joined items) := by
  induction items using List.twoStepInduction with
  | nil => exact Nested.nil
  | singleton item =>
      rw [joined_singleton]
      exact (hitems item List.mem_cons_self).nested.mono fun _ _ => trivial
  | cons_cons item next later _ ih =>
      obtain ⟨hitem, hlater⟩ := List.forall_mem_cons.1 hitems
      have hfirst : Nested (fun _ => True) item := hitem.nested.mono fun _ _ => trivial
      rw [joined_cons_cons]
      exact hfirst.append ((ih next hlater).cons rfl rfl trivial)

theorem no_blank_joined (hitems : ∀ item ∈ items, IsItem item) :
    ∀ c ∈ joined items, isBlank c = false := by
  intro c hc
  obtain rfl | ⟨item, hitem, hc⟩ := mem_joined hc
  · decide
  · exact (hitems item hitem).no_blank c hc

/-- A written list is read as it is. -/
theorem splitList_joined {o c : Char} (ho : isOpening o = true) (hc : isClosing c = true)
    (hne : items ≠ []) (hitems : ∀ item ∈ items, IsItem item) (before after : Text) :
    ∃ entries close, splitList (before ++ o :: joined items ++ c :: after) (width before)
        (· == ',') = .ok (entries, close) ∧ entries.map Prod.snd = items := by
  have hentries := map_snd_topFields hne hitems (width before + 1)
  refine ⟨_, _, (nested_joined hitems).balanced.splitList_enclosed ho hc before after ?_, hentries⟩
  intro piece hpiece
  have hitem : piece.2 ∈ items := hentries ▸ List.mem_map_of_mem hpiece
  exact ⟨(hitems _ hitem).ne_nil, (hitems _ hitem).no_blank⟩

end IsItem

end Text

end OdeModel
