import OdeModel.Text.Name
import Mathlib.Data.List.Basic

/-!
# Runs of name characters

A text is cut at the characters that no name is made of. The pieces in between
that are not empty are its runs: the complete names, and the digits of its number
literals. Cutting commutes with putting texts together at such a character, and
everything about runs follows from that.
-/

namespace OdeModel

namespace Text

/-- The text is made of name characters. -/
def IsNameText (s : Text) : Prop := ∀ c ∈ s, isNameChar c = true

instance (s : Text) : Decidable (IsNameText s) :=
  decidable_of_iff (s.all isNameChar = true) List.all_eq_true

/-- What stands before the first character that belongs to no name, and each such
character with what follows it up to the next. -/
def cut : Text → Text × List (Char × Text)
  | [] => ([], [])
  | c :: rest =>
      if isNameChar c then (c :: (cut rest).1, (cut rest).2)
      else ([], (c, (cut rest).1) :: (cut rest).2)

/-- The longest pieces of name characters, from left to right. -/
def runs (s : Text) : List Text :=
  ((cut s).1 :: (cut s).2.map Prod.snd).filter fun run => !run.isEmpty

/-- What takes the place of a piece; an empty piece is no run and stays. -/
def changeRun (f : Text → Text) (run : Text) : Text := if run.isEmpty then [] else f run

/-- The text with every run changed, all at once. -/
def mapRuns (f : Text → Text) (s : Text) : Text :=
  changeRun f (cut s).1 ++ (cut s).2.flatMap fun (c, run) => c :: changeRun f run

/-- The runs with their byte positions, from a cut that stands at position `offset`. -/
def placesOf : (offset : Nat) → Text → List (Char × Text) → List (Nat × Text)
  | offset, run, [] => if run.isEmpty then [] else [(offset, run)]
  | offset, run, (c, next) :: later =>
      (if run.isEmpty then [] else [(offset, run)]) ++
        placesOf (offset + width run + c.utf8Size) next later

/-- The runs of a text that stands at position `offset`, with their positions. -/
def places (offset : Nat) (s : Text) : List (Nat × Text) := placesOf offset (cut s).1 (cut s).2

theorem toNat_lt_of_ascii {c : Char} (hc : (c.isAlpha || c.isDigit || c == '_') = true) :
    c.toNat < 128 := by
  have hval : c.val.toNat = c.toNat := rfl
  have hbounds : ('Z'.val).toNat = 90 ∧ ('z'.val).toNat = 122 ∧ ('9'.val).toNat = 57 :=
    ⟨rfl, rfl, rfl⟩
  unfold Char.isAlpha Char.isUpper Char.isLower Char.isDigit at hc
  simp only [Bool.or_eq_true, beq_iff_eq, Bool.and_eq_true, decide_eq_true_eq,
    UInt32.le_iff_toNat_le] at hc
  rcases hc with (((hc | hc) | hc) | rfl)
  · omega
  · omega
  · omega
  · decide

theorem isNameChar_of_ascii {c : Char} (hc : (c.isAlpha || c.isDigit || c == '_') = true) :
    isNameChar c = true := by
  rw [isNameChar, isLetter, isNumeral, if_pos (toNat_lt_of_ascii hc),
    if_pos (toNat_lt_of_ascii hc)]
  exact hc

/-- A name that a model may define starts like a name and is made of name characters. -/
theorem isNameText_of_isIdentifier {s : Text} (h : isIdentifier s = true) :
    s.head?.any isNameStart = true ∧ s ≠ [] ∧ IsNameText s := by
  cases s with
  | nil => exact absurd h (by decide)
  | cons c rest =>
      simp only [isIdentifier, Bool.and_eq_true, List.all_eq_true] at h
      have hc : (c.isAlpha || c.isDigit || c == '_') = true := by
        rw [Bool.or_right_comm, h.1, Bool.true_or]
      refine ⟨?_, by simp, List.forall_mem_cons.2
        ⟨isNameChar_of_ascii hc, fun d hd => isNameChar_of_ascii (h.2 d hd)⟩⟩
      rw [List.head?_cons, Option.any_some, isNameStart, isLetter,
        if_pos (toNat_lt_of_ascii hc)]
      exact h.1

/-- Characters of one kind up to the first other one are cut off from the start of a text. -/
theorem takeWhile_dropWhile_append {p : Char → Bool} {front after : Text}
    (hfront : ∀ c ∈ front, p c = true) (hafter : ∀ c ∈ after.head?, p c = false) :
    (front ++ after).takeWhile p = front ∧ (front ++ after).dropWhile p = after := by
  rw [List.takeWhile_append_of_pos hfront, List.dropWhile_append_of_pos hfront]
  cases after with
  | nil => simp
  | cons c after => simp [hafter c rfl]

/-- Name characters up to the first other one make up the run at the start of a text. -/
theorem takeWhile_isNameChar {run after : Text} (hrun : IsNameText run)
    (hafter : after.head?.any isNameChar = false) :
    (run ++ after).takeWhile isNameChar = run :=
  (takeWhile_dropWhile_append hrun fun c hc => by rwa [Option.mem_def.1 hc] at hafter).1

/-! ### Cutting -/

theorem cut_of_isNameText {s : Text} (h : IsNameText s) : cut s = (s, []) := by
  induction s with
  | nil => rfl
  | cons c s ih =>
      rw [cut, if_pos (h c List.mem_cons_self), ih fun d hd => h d (List.mem_cons_of_mem _ hd)]

/-- Texts are cut one by one where they are put together at a character that no
name is made of. -/
theorem cut_append_cons {c : Char} (hc : isNameChar c = false) (s t : Text) :
    cut (s ++ c :: t) = ((cut s).1, (cut s).2 ++ (c, (cut t).1) :: (cut t).2) := by
  induction s with
  | nil => simp [cut, hc]
  | cons d s ih =>
      rw [List.cons_append, cut, ih, cut]
      split <;> rfl

/-- Every text is made of name characters, or starts with some of them and another
character. -/
theorem run_induction {motive : Text → Prop}
    (name : ∀ run, IsNameText run → motive run)
    (cons : ∀ run c rest, IsNameText run → isNameChar c = false → motive rest →
      motive (run ++ c :: rest)) (s : Text) : motive s := by
  -- `run` collects the name characters read so far
  have hstart : ∀ s run, IsNameText run → motive (run ++ s) := by
    intro s
    induction s with
    | nil =>
        intro run hrun
        rw [List.append_nil]
        exact name run hrun
    | cons c s ih =>
        intro run hrun
        cases hc : isNameChar c with
        | true =>
            have hlonger : IsNameText (run ++ [c]) := by
              intro d hd
              rcases List.mem_append.1 hd with hd | hd
              · exact hrun d hd
              · rw [List.mem_singleton.1 hd]
                exact hc
            simpa using ih (run ++ [c]) hlonger
        | false => exact cons run c s hrun hc (ih [] (by simp [IsNameText]))
  exact hstart s [] (by simp [IsNameText])

/-- A text is empty, a run, or put together at a character that no name is made of. -/
theorem split_induction {motive : Text → Prop} (nil : motive [])
    (run : ∀ run, IsNameText run → run ≠ [] → motive run)
    (split : ∀ s c t, isNameChar c = false → motive s → motive t → motive (s ++ c :: t))
    (s : Text) : motive s := by
  have hpiece : ∀ piece, IsNameText piece → motive piece := by
    intro piece hpiece
    by_cases hne : piece = []
    · exact hne ▸ nil
    · exact run piece hpiece hne
  induction s using run_induction with
  | name piece h => exact hpiece piece h
  | cons piece c rest h hc ih => exact split piece c rest hc (hpiece piece h) ih

/-! ### Runs -/

@[simp] theorem runs_nil : runs [] = [] := rfl

theorem runs_of_isNameText {s : Text} (h : IsNameText s) (hne : s ≠ []) : runs s = [s] := by
  simp [runs, cut_of_isNameText h, hne]

theorem runs_append_cons {c : Char} (hc : isNameChar c = false) (s t : Text) :
    runs (s ++ c :: t) = runs s ++ runs t := by
  simp [runs, cut_append_cons hc, List.filter_cons, List.filter_append]
  split <;> simp

theorem runs_cons {c : Char} (hc : isNameChar c = false) (s : Text) : runs (c :: s) = runs s :=
  runs_append_cons hc [] s

theorem runs_concat {c : Char} (hc : isNameChar c = false) (s : Text) :
    runs (s ++ [c]) = runs s := by
  rw [runs_append_cons hc, runs_nil, List.append_nil]

theorem isNameText_of_mem_runs {s run : Text} (h : run ∈ runs s) :
    run ≠ [] ∧ IsNameText run := by
  induction s using split_induction with
  | nil => contradiction
  | run s hs hne =>
      rw [runs_of_isNameText hs hne, List.mem_singleton] at h
      exact h ▸ ⟨hne, hs⟩
  | split s c t hc ihs iht =>
      rw [runs_append_cons hc, List.mem_append] at h
      rcases h with h | h
      · exact ihs h
      · exact iht h

/-! ### Changing all runs -/

@[simp] theorem mapRuns_nil (f : Text → Text) : mapRuns f [] = [] := rfl

theorem mapRuns_of_isNameText (f : Text → Text) {s : Text} (h : IsNameText s) (hne : s ≠ []) :
    mapRuns f s = f s := by
  simp [mapRuns, cut_of_isNameText h, changeRun, hne]

theorem mapRuns_append_cons (f : Text → Text) {c : Char} (hc : isNameChar c = false)
    (s t : Text) : mapRuns f (s ++ c :: t) = mapRuns f s ++ c :: mapRuns f t := by
  simp [mapRuns, cut_append_cons hc]

theorem mapRuns_cons (f : Text → Text) {c : Char} (hc : isNameChar c = false) (s : Text) :
    mapRuns f (c :: s) = c :: mapRuns f s :=
  mapRuns_append_cons f hc [] s

theorem mapRuns_concat (f : Text → Text) {c : Char} (hc : isNameChar c = false) (s : Text) :
    mapRuns f (s ++ [c]) = mapRuns f s ++ [c] := by
  rw [mapRuns_append_cons f hc, mapRuns_nil]

theorem mapRuns_congr {f g : Text → Text} {s : Text} (h : ∀ run ∈ runs s, f run = g run) :
    mapRuns f s = mapRuns g s := by
  induction s using split_induction with
  | nil => rfl
  | run s hs hne =>
      rw [mapRuns_of_isNameText f hs hne, mapRuns_of_isNameText g hs hne]
      exact h s (by simp [runs_of_isNameText hs hne])
  | split s c t hc ihs iht =>
      rw [runs_append_cons hc] at h
      rw [mapRuns_append_cons f hc, mapRuns_append_cons g hc,
        ihs fun run hrun => h run (List.mem_append_left _ hrun),
        iht fun run hrun => h run (List.mem_append_right _ hrun)]

theorem mapRuns_id (s : Text) : mapRuns id s = s := by
  induction s using split_induction with
  | nil => exact mapRuns_nil id
  | run s hs hne => exact mapRuns_of_isNameText id hs hne
  | split s c t hc ihs iht => rw [mapRuns_append_cons id hc, ihs, iht]

/-- A text none of whose runs changes stays as it is. -/
theorem mapRuns_eq_self {f : Text → Text} {s : Text} (h : ∀ run ∈ runs s, f run = run) :
    mapRuns f s = s :=
  (mapRuns_congr h).trans (mapRuns_id s)

/-- The runs of a changed text are those of what took the places of the runs. Runs
do not grow together, since what stood between them stays. -/
theorem runs_mapRuns (f : Text → Text) (s : Text) :
    runs (mapRuns f s) = (runs s).flatMap fun run => runs (f run) := by
  induction s using split_induction with
  | nil => rfl
  | run s hs hne => simp [mapRuns_of_isNameText f hs hne, runs_of_isNameText hs hne]
  | split s c t hc ihs iht =>
      rw [mapRuns_append_cons f hc, runs_append_cons hc, runs_append_cons hc,
        List.flatMap_append, ihs, iht]

/-- Changes of all runs, one after the other, are one change. -/
theorem mapRuns_mapRuns (f g : Text → Text) (s : Text) :
    mapRuns f (mapRuns g s) = mapRuns (fun run => mapRuns f (g run)) s := by
  induction s using split_induction with
  | nil => rfl
  | run s hs hne =>
      rw [mapRuns_of_isNameText g hs hne, mapRuns_of_isNameText _ hs hne]
  | split s c t hc ihs iht =>
      rw [mapRuns_append_cons g hc, mapRuns_append_cons f hc, mapRuns_append_cons _ hc, ihs, iht]

/-! ### Places -/

theorem places_of_isNameText (offset : Nat) {s : Text} (h : IsNameText s) (hne : s ≠ []) :
    places offset s = [(offset, s)] := by
  simp [places, cut_of_isNameText h, placesOf, hne]

@[simp] theorem places_nil (offset : Nat) : places offset [] = [] := rfl

theorem places_run_append_cons (offset : Nat) {c : Char} (hc : isNameChar c = false) {s : Text}
    (hs : IsNameText s) (t : Text) :
    places offset (s ++ c :: t) =
      places offset s ++ places (offset + width s + c.utf8Size) t := by
  simp [places, cut_append_cons hc, cut_of_isNameText hs, placesOf]

theorem places_append_cons (offset : Nat) {c : Char} (hc : isNameChar c = false) (s t : Text) :
    places offset (s ++ c :: t) =
      places offset s ++ places (offset + width s + c.utf8Size) t := by
  induction s using run_induction generalizing offset with
  | name s hs => exact places_run_append_cons offset hc hs t
  | cons s d rest hs hd ih =>
      have hwidth : offset + width s + d.utf8Size + width rest =
          offset + width (s ++ d :: rest) := by
        simp only [width_append, width_cons]
        omega
      rw [List.append_assoc, List.cons_append, places_run_append_cons offset hd hs, ih,
        places_run_append_cons offset hd hs, List.append_assoc, hwidth]

theorem map_snd_places (offset : Nat) (s : Text) : (places offset s).map Prod.snd = runs s := by
  induction s using split_induction generalizing offset with
  | nil => rfl
  | run s hs hne =>
      rw [places_of_isNameText offset hs hne, runs_of_isNameText hs hne]
      rfl
  | split s c t hc ihs iht =>
      rw [places_append_cons offset hc, runs_append_cons hc, List.map_append, ihs, iht]

/-- The text is a run between two others: it is made of name characters and touches
none on either side. -/
structure IsRunBetween (before run after : Text) : Prop where
  ne_nil : run ≠ []
  isNameText : IsNameText run
  before : before.getLast?.any isNameChar = false
  after : after.head?.any isNameChar = false

theorem IsRunBetween.append_cons {first : Text} {c : Char} (hc : isNameChar c = false)
    {before run after : Text} (h : IsRunBetween before run after) :
    IsRunBetween (first ++ c :: before) run after where
  ne_nil := h.ne_nil
  isNameText := h.isNameText
  before := by
    rw [List.getLast?_append, List.getLast?_cons]
    cases hlast : before.getLast? with
    | none => simp [hc]
    | some d => simpa [hlast] using h.before
  after := h.after

/-- A run that touches no name character on the left of a text that starts with
others is the first one, or stands behind the first other character. -/
theorem IsRunBetween.cases {first rest : Text} {c : Char} (hfirst : IsNameText first)
    (hc : isNameChar c = false) {before run after : Text} (h : IsRunBetween before run after)
    (hsplit : first ++ c :: rest = before ++ run ++ after) :
    (before = [] ∧ run = first ∧ after = c :: rest) ∨
      ∃ inner, before = first ++ c :: inner ∧ rest = inner ++ run ++ after ∧
        IsRunBetween inner run after := by
  rw [List.append_assoc, List.append_eq_append_iff] at hsplit
  rcases hsplit with ⟨inner, hbefore, hinner⟩ | ⟨inner, hfirst', hinner⟩
  · cases inner with
    | nil =>
        -- the run would start with a character that belongs to no name
        obtain ⟨d, tail, hrun⟩ := List.exists_cons_of_ne_nil h.ne_nil
        have hd : isNameChar d = true := h.isNameText d (by simp [hrun])
        rw [hrun, List.nil_append, List.cons_append] at hinner
        rw [← (List.cons.inj hinner).1, hc] at hd
        contradiction
    | cons d inner =>
        rw [List.cons_append] at hinner
        obtain ⟨rfl, hrest⟩ := List.cons.inj hinner
        refine Or.inr ⟨inner, hbefore, by rw [hrest, List.append_assoc], h.ne_nil,
          h.isNameText, ?_, h.after⟩
        have hlast := h.before
        rw [hbefore, List.getLast?_append, List.getLast?_cons] at hlast
        cases hinnerlast : inner.getLast? with
        | none => rfl
        | some e => simpa [hinnerlast] using hlast
  · left
    have hbefore : before = [] := by
      by_contra hne
      obtain ⟨d, hd⟩ := Option.isSome_iff_exists.1 (List.getLast?_isSome.2 hne)
      have hlast := h.before
      rw [hd] at hlast
      have hmem : d ∈ first := hfirst' ▸ List.mem_append_left _ (List.mem_of_getLast? hd)
      simp [hfirst d hmem] at hlast
    rw [hbefore, List.nil_append] at hfirst'
    subst hfirst'
    refine ⟨hbefore, ?_⟩
    rw [List.append_eq_append_iff] at hinner
    rcases hinner with ⟨more, hmore, hafter⟩ | ⟨more, hrun, hafter⟩
    · cases more with
      | nil => exact ⟨by simpa using hmore.symm, by simpa using hafter⟩
      | cons d more =>
          have hd := hfirst d (by simp [hmore])
          have hhead := h.after
          rw [hafter] at hhead
          simp [hd] at hhead
    · cases more with
      | nil => exact ⟨by simpa using hrun, by simpa using hafter.symm⟩
      | cons d more =>
          rw [List.cons_append] at hafter
          have hd := h.isNameText d (by simp [hrun])
          rw [← (List.cons.inj hafter).1, hc] at hd
          contradiction

/-- A run is listed at its place. -/
theorem mem_places_iff {offset position : Nat} {run s : Text} :
    (position, run) ∈ places offset s ↔ ∃ before after, s = before ++ run ++ after ∧
      position = offset + width before ∧ IsRunBetween before run after := by
  induction s using run_induction generalizing offset with
  | name s hs =>
      constructor
      · intro h
        by_cases hne : s = []
        · simp [hne] at h
        · rw [places_of_isNameText offset hs hne, List.mem_singleton, Prod.mk.injEq] at h
          obtain ⟨rfl, rfl⟩ := h
          exact ⟨[], [], by simp, rfl, hne, hs, rfl, rfl⟩
      · rintro ⟨before, after, rfl, rfl, h⟩
        have hbefore : before = [] := by
          by_contra hne
          obtain ⟨d, hd⟩ := Option.isSome_iff_exists.1 (List.getLast?_isSome.2 hne)
          have hlast := h.before
          rw [hd] at hlast
          simp [hs d (by simp [List.mem_of_getLast? hd])] at hlast
        have hafter : after = [] := by
          by_contra hne
          obtain ⟨d, tail, rfl⟩ := List.exists_cons_of_ne_nil hne
          have hhead := h.after
          simp [hs d (by simp)] at hhead
        subst hbefore hafter
        simp only [List.nil_append, List.append_nil]
        rw [places_of_isNameText offset h.isNameText h.ne_nil]
        simp
  | cons s c rest hs hc ih =>
      rw [places_run_append_cons offset hc hs, List.mem_append, ih]
      constructor
      · rintro (h | ⟨before, after, rfl, rfl, h⟩)
        · by_cases hne : s = []
          · simp [hne] at h
          · rw [places_of_isNameText offset hs hne, List.mem_singleton, Prod.mk.injEq] at h
            obtain ⟨rfl, rfl⟩ := h
            exact ⟨[], c :: rest, by simp, rfl, hne, hs, rfl, by simp [hc]⟩
        · exact ⟨s ++ c :: before, after, by simp, by simp; omega, h.append_cons hc⟩
      · rintro ⟨before, after, hsplit, rfl, h⟩
        rcases h.cases hs hc hsplit with ⟨rfl, rfl, rfl⟩ | ⟨inner, rfl, hrest, hinner⟩
        · left
          rw [places_of_isNameText offset hs h.ne_nil]
          simp
        · exact Or.inr ⟨inner, after, hrest, by simp; omega, hinner⟩

/-- The runs are the pieces of name characters that touch no further one. -/
theorem mem_runs_iff {run s : Text} :
    run ∈ runs s ↔ ∃ before after, s = before ++ run ++ after ∧ IsRunBetween before run after := by
  rw [← map_snd_places 0 s, List.mem_map]
  constructor
  · rintro ⟨⟨position, run⟩, hmem, rfl⟩
    obtain ⟨before, after, hsplit, -, h⟩ := mem_places_iff.1 hmem
    exact ⟨before, after, hsplit, h⟩
  · rintro ⟨before, after, hsplit, h⟩
    exact ⟨(0 + width before, run), mem_places_iff.2 ⟨before, after, hsplit, rfl, h⟩, rfl⟩

/-- The places of a text lie within it, one behind the other. -/
theorem pairwise_places (offset : Nat) (s : Text) :
    (∀ place ∈ places offset s, offset ≤ place.1) ∧
      (places offset s).Pairwise fun p q => p.1 + width p.2 < q.1 := by
  induction s using run_induction generalizing offset with
  | name s hs =>
      by_cases hne : s = []
      · simp [hne]
      · simp [places_of_isNameText offset hs hne]
  | cons s c rest hs hc ih =>
      obtain ⟨hle, hsorted⟩ := ih (offset + width s + c.utf8Size)
      have hpos := c.utf8Size_pos
      rw [places_run_append_cons offset hc hs]
      by_cases hne : s = []
      · subst hne
        simp only [places_nil, List.nil_append]
        exact ⟨fun place hplace => by have := hle place hplace; omega, hsorted⟩
      · rw [places_of_isNameText offset hs hne, List.singleton_append]
        refine ⟨fun place hplace => ?_, List.pairwise_cons.2 ⟨fun place hplace => ?_, hsorted⟩⟩
        · rcases List.mem_cons.1 hplace with rfl | hplace
          · exact Nat.le_refl _
          · have := hle place hplace
            omega
        · have := hle place hplace
          dsimp only
          omega

/-! ### Changing the places one by one -/

theorem splice_append (before run after new : Text) :
    splice (before ++ run ++ after) (width before) (width before + width run) new =
      before ++ new ++ after := by
  rw [splice, ← width_append, dropBytes_width_append, List.append_assoc before run after,
    takeBytes_width_append]

end Text

end OdeModel
