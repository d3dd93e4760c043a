import OdeModel.Proofs.Text.Runs

/-!
# The characters around runs

Whether a name is called depends on the character behind it, and whether it may grow
together with another one, on the character before it. So the runs of a text are listed
here with both. Cutting commutes with putting texts together for this list, too.
-/

namespace OdeModel

namespace Text

/-- A run with the characters right before and right behind it; at an end of the text
there is none. -/
structure Site where
  /-- The character before the run. -/
  before : Option Char
  /-- The run. -/
  run : Text
  /-- The character behind the run. -/
  behind : Option Char
  deriving Repr, DecidableEq

/-- The run where its text stands between two characters. -/
def Site.within (previous next : Option Char) (site : Site) : Site :=
  ⟨site.before.or previous, site.run, site.behind.or next⟩

/-- The runs with the characters around them, from the pieces of a text that stands behind
a character. -/
def sitesOf : (previous : Option Char) → Text → List (Char × Text) → List Site
  | previous, run, [] => if run.isEmpty then [] else [⟨previous, run, none⟩]
  | previous, run, (c, next) :: later =>
      (if run.isEmpty then [] else [⟨previous, run, some c⟩]) ++ sitesOf (some c) next later

/-- The runs of a text with the characters around them, from left to right. -/
def sites (s : Text) : List Site := sitesOf none (cut s).1 (cut s).2

@[simp] theorem Site.run_within (previous next : Option Char) (site : Site) :
    (site.within previous next).run = site.run := rfl

theorem Site.within_none : Site.within none none = id := by
  funext site
  simp [within]

theorem Site.within_comp_within (previous next previous' next' : Option Char) :
    Site.within previous' next' ∘ Site.within previous next =
      Site.within (previous.or previous') (next.or next') := by
  funext site
  simp only [Function.comp_apply, within, Option.or_assoc]

@[simp] theorem sites_nil : sites [] = [] := rfl

theorem sites_of_isNameText {run : Text} (h : IsNameText run) (hne : run ≠ []) :
    sites run = [⟨none, run, none⟩] := by
  simp [sites, cut_of_isNameText h, sitesOf, hne]

theorem sitesOf_eq_map (previous : Option Char) (run : Text) (pieces : List (Char × Text)) :
    sitesOf previous run pieces = (sitesOf none run pieces).map (Site.within previous none) := by
  induction pieces generalizing previous run with
  | nil =>
      rw [sitesOf, sitesOf]
      split <;> simp [Site.within]
  | cons piece pieces ih =>
      rw [sitesOf, sitesOf, ih, List.map_append, List.map_map]
      congr 1
      · split <;> simp [Site.within]
      · rw [Site.within_comp_within]
        rfl

theorem sitesOf_append (previous : Option Char) (run : Text) (pieces : List (Char × Text))
    (c : Char) (next : Text) (later : List (Char × Text)) :
    sitesOf previous run (pieces ++ (c, next) :: later) =
      (sitesOf previous run pieces).map (Site.within none (some c)) ++
        sitesOf (some c) next later := by
  induction pieces generalizing previous run with
  | nil =>
      rw [List.nil_append, sitesOf, sitesOf]
      split <;> simp [Site.within]
  | cons piece pieces ih =>
      rw [List.cons_append, sitesOf, sitesOf, ih]
      split <;> simp [Site.within]

/-- The runs of texts that are put together at a character which no name is made of. -/
theorem sites_append_cons {c : Char} (hc : isNameChar c = false) (s t : Text) :
    sites (s ++ c :: t) = (sites s).map (Site.within none (some c)) ++
      (sites t).map (Site.within (some c) none) := by
  rw [sites, cut_append_cons hc, sitesOf_append, sitesOf_eq_map (some c)]
  rfl

theorem sites_cons {c : Char} (hc : isNameChar c = false) (s : Text) :
    sites (c :: s) = (sites s).map (Site.within (some c) none) :=
  sites_append_cons hc [] s

theorem sites_concat {c : Char} (hc : isNameChar c = false) (s : Text) :
    sites (s ++ [c]) = (sites s).map (Site.within none (some c)) := by
  rw [sites_append_cons hc, sites_nil, List.map_nil, List.append_nil]

/-- The list of places tells what is around each run, wherever the text stands. -/
theorem map_places_eq_sites (before s : Text) :
    (places (width before) s).map (fun place =>
      (⟨(takeBytes place.1 (before ++ s)).getLast?, place.2,
        (dropBytes (place.1 + width place.2) (before ++ s)).head?⟩ : Site)) =
      (sites s).map (Site.within before.getLast? none) := by
  induction s using run_induction generalizing before with
  | name run hrun =>
      by_cases hne : run = []
      · simp [hne]
      · have hend : dropBytes (width before + width run) (before ++ run) = [] := by
          simpa using dropBytes_width_append (before ++ run) []
        rw [places_of_isNameText _ hrun hne, sites_of_isNameText hrun hne]
        simp [hend, Site.within]
  | cons run c rest hrun hc ih =>
      have hposition : width before + width run + c.utf8Size = width (before ++ run ++ [c]) := by
        simp [Nat.add_assoc]
      have hsplit : before ++ (run ++ c :: rest) = before ++ run ++ [c] ++ rest := by simp
      have hrest : (sites rest).map (Site.within (before ++ run ++ [c]).getLast? none) =
          ((sites rest).map (Site.within (some c) none)).map
            (Site.within before.getLast? none) := by
        rw [List.getLast?_append, List.map_map, Site.within_comp_within]
        rfl
      rw [places_run_append_cons _ hc hrun, List.map_append, hposition, hsplit, ih, hrest,
        sites_append_cons hc, List.map_append]
      congr 1
      by_cases hne : run = []
      · simp [hne]
      · have hbehind : dropBytes (width before + width run) (before ++ run ++ [c] ++ rest) =
            c :: rest := by
          rw [← width_append, List.append_assoc, dropBytes_width_append]
          rfl
        have hbefore : takeBytes (width before) (before ++ run ++ [c] ++ rest) = before := by
          rw [List.append_assoc, List.append_assoc, takeBytes_width_append]
        rw [places_of_isNameText _ hrun hne, sites_of_isNameText hrun hne, List.map_singleton,
          hbehind, hbefore]
        rfl

/-- A run stands between the last character before it and the first one behind it. -/
theorem mem_sites_iff {site : Site} {s : Text} :
    site ∈ sites s ↔ ∃ before after, s = before ++ site.run ++ after ∧
      before.getLast? = site.before ∧ after.head? = site.behind ∧
        IsRunBetween before site.run after := by
  have hafter : ∀ before run after : Text,
      dropBytes (0 + width before + width run) (before ++ run ++ after) = after := by
    intro before run after
    rw [Nat.zero_add, ← width_append, dropBytes_width_append]
  have hbefore : ∀ before run after : Text,
      takeBytes (0 + width before) (before ++ run ++ after) = before := by
    intro before run after
    rw [Nat.zero_add, List.append_assoc, takeBytes_width_append]
  have hplaces := map_places_eq_sites [] s
  rw [List.getLast?_nil, Site.within_none, List.map_id, width_nil, List.nil_append] at hplaces
  rw [← hplaces, List.mem_map]
  constructor
  · rintro ⟨⟨position, run⟩, hmem, rfl⟩
    obtain ⟨before, after, rfl, rfl, h⟩ := mem_places_iff.1 hmem
    exact ⟨before, after, rfl, by rw [hbefore], by rw [hafter], h⟩
  · rintro ⟨before, after, rfl, hprevious, hnext, h⟩
    refine ⟨(0 + width before, site.run), mem_places_iff.2 ⟨before, after, rfl, rfl, h⟩, ?_⟩
    rw [hbefore, hafter, hprevious, hnext]

theorem isNameText_of_mem_sites {s : Text} {site : Site} (h : site ∈ sites s) :
    site.run ≠ [] ∧ IsNameText site.run ∧ site.behind.any isNameChar = false := by
  obtain ⟨before, after, -, -, hnext, hrun⟩ := mem_sites_iff.1 h
  exact ⟨hrun.ne_nil, hrun.isNameText, hnext ▸ hrun.after⟩

/-- What takes the place of a run stands between the same characters. -/
theorem sites_mapRuns (f : Text → Text) (s : Text) :
    sites (mapRuns f s) = (sites s).flatMap fun site =>
      (sites (f site.run)).map (Site.within site.before site.behind) := by
  induction s using split_induction with
  | nil => rfl
  | run run hrun hne =>
      rw [mapRuns_of_isNameText f hrun hne, sites_of_isNameText hrun hne]
      simp [Site.within_none]
  | split s c t hc ihs iht =>
      rw [mapRuns_append_cons f hc, sites_append_cons hc, sites_append_cons hc, ihs, iht,
        List.flatMap_append, List.flatMap_map, List.flatMap_map, List.map_flatMap,
        List.map_flatMap]
      simp only [List.map_map, Site.within_comp_within]
      rfl

/-- When texts are put together anywhere, their runs stay, but for two that meet and make
one run. -/
theorem cases_of_mem_sites_append {s t : Text} {site : Site} (h : site ∈ sites (s ++ t)) :
    (∃ inner ∈ sites s, site = inner.within none t.head?) ∨
      (∃ inner ∈ sites t, site = inner.within s.getLast? none) ∨
        ∃ inner ∈ sites t, inner.before = none ∧ inner.run <:+ site.run := by
  obtain ⟨before, after, hsplit, hprevious, hnext, hrun⟩ := mem_sites_iff.1 h
  obtain ⟨previous, run, next⟩ := site
  dsimp only at hsplit hprevious hnext hrun ⊢
  subst hprevious hnext
  rw [List.append_assoc, List.append_eq_append_iff] at hsplit
  rcases hsplit with ⟨inner, rfl, rfl⟩ | ⟨inner, rfl, hinner⟩
  · -- the run is one of the second text
    refine Or.inr (Or.inl ⟨⟨inner.getLast?, run, after.head?⟩, mem_sites_iff.2
      ⟨inner, after, by simp, rfl, rfl, hrun.ne_nil, hrun.isNameText, ?_, hrun.after⟩, ?_⟩)
    · have hlast := hrun.before
      rw [List.getLast?_append] at hlast
      cases hend : inner.getLast? with
      | none => rfl
      | some c => rwa [hend] at hlast
    · simp [Site.within]
  · rw [List.append_eq_append_iff] at hinner
    rcases hinner with ⟨more, rfl, rfl⟩ | ⟨more, rfl, rfl⟩
    · -- the run is one of the first text
      refine Or.inl ⟨⟨before.getLast?, run, more.head?⟩, mem_sites_iff.2
        ⟨before, more, by simp, rfl, rfl, hrun.ne_nil, hrun.isNameText, hrun.before, ?_⟩, ?_⟩
      · have hfirst := hrun.after
        rw [List.head?_append] at hfirst
        cases hstart : more.head? with
        | none => rfl
        | some c => rwa [hstart] at hfirst
      · simp [Site.within]
    · by_cases hmore : more = []
      · subst hmore
        simp only [List.append_nil] at hrun ⊢
        exact Or.inl ⟨⟨before.getLast?, inner, none⟩, mem_sites_iff.2
          ⟨before, [], by simp, rfl, rfl, hrun.ne_nil, hrun.isNameText, hrun.before, rfl⟩,
          by simp [Site.within]⟩
      · -- the run goes on in the second text, with the first one of it
        have hname : IsNameText more := fun c hc =>
          hrun.isNameText c (List.mem_append_right inner hc)
        exact Or.inr (Or.inr ⟨⟨none, more, after.head?⟩, mem_sites_iff.2
          ⟨[], after, rfl, rfl, rfl, hmore, hname, rfl, hrun.after⟩, rfl,
          List.suffix_append inner more⟩)

end Text

end OdeModel
