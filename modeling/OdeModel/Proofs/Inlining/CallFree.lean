import OdeModel.Proofs.Inlining.Replacement
import OdeModel.Proofs.Text.Pieces
import Mathlib.Data.List.Chain

/-!
# Texts without calls

When texts are put into each other, a name can come to stand before a parenthesis in
two ways only: it is put in the place of a formal argument that a parenthesis follows,
or it ends a body that takes the place of a call, and the parenthesis follows the
closing one of that call. There, too, the body can grow together with a name that
follows. So what counts is what stands behind closing brackets and formal arguments.
-/

namespace OdeModel

namespace Text

/-- No function and no formal argument ends with the run. So it is none of them, and makes
none with what comes to stand before it. -/
def Inert (words formals : List Text) (run : Text) : Prop :=
  ∀ name ∈ words ++ formals, ¬ run <:+ name

/-- The run is no call, and none comes about with it when its text is put into another
one. Where names are passed as arguments, a function may be named and is not called, and
neither is a formal argument; otherwise no function is named at all. -/
structure Site.Harmless (passed : Bool) (words formals : List Text) (site : Site) : Prop where
  word : site.run ∈ words → passed = true ∧ site.behind ≠ some '('
  formal : passed = true → site.run ∈ formals → site.behind ≠ some '('
  detached : site.before.any isClosing = true → Inert words formals site.run

/-- The run is a call that can be replaced, or it is harmless. -/
structure Site.Replaceable (passed : Bool) (words formals : List Text) (site : Site) :
    Prop where
  word : passed = false → site.run ∈ words → site.behind = some '('
  formal : passed = true → site.run ∈ formals → site.run ∉ words → site.behind ≠ some '('
  detached : site.before.any isClosing = true → Inert words formals site.run

/-- No parenthesis opens right behind a closing bracket, in a text that stands behind a
character. -/
def Unopened (previous : Option Char) (s : Text) : Prop :=
  (previous.toList ++ s).IsChain fun c d => isClosing c = true → d ≠ '('

/-- A text that stands behind a character has only runs with a property. Where names are
passed as arguments, no parenthesis opens right behind a closing bracket. -/
structure Throughout (passed : Bool) (p : Site → Prop) (previous : Option Char) (s : Text) :
    Prop where
  site : ∀ site ∈ sites s, p (site.within previous none)
  unopened : passed = true → Unopened previous s

/-- A text in which nothing is called. -/
abbrev CallFree (passed : Bool) (words formals : List Text) : Option Char → Text → Prop :=
  Throughout passed (Site.Harmless passed words formals)

/-- A text in which all calls of functions can be replaced. -/
abbrev Replaceable (passed : Bool) (words formals : List Text) : Option Char → Text → Prop :=
  Throughout passed (Site.Replaceable passed words formals)

instance (words formals : List Text) (run : Text) : Decidable (Inert words formals run) :=
  inferInstanceAs (Decidable (∀ name ∈ words ++ formals, ¬ run <:+ name))

theorem Site.replaceable_iff {passed : Bool} {words formals : List Text} {site : Site} :
    site.Replaceable passed words formals ↔
      (passed = false → words.contains site.run = true → site.behind = some '(') ∧
      (passed = true → formals.contains site.run = true → ¬ words.contains site.run = true →
        site.behind ≠ some '(') ∧
      (site.before.any isClosing = true → Inert words formals site.run) := by
  simp only [List.contains_iff_mem]
  exact ⟨fun h => ⟨h.word, h.formal, h.detached⟩, fun h => ⟨h.1, h.2.1, h.2.2⟩⟩

instance (passed : Bool) (words formals : List Text) :
    DecidablePred (Site.Replaceable passed words formals) := fun _ =>
  decidable_of_iff _ Site.replaceable_iff.symm

instance (previous : Option Char) (s : Text) : Decidable (Unopened previous s) :=
  inferInstanceAs (Decidable (List.IsChain _ _))

instance (passed : Bool) (p : Site → Prop) [DecidablePred p] (previous : Option Char) (s : Text) :
    Decidable (Throughout passed p previous s) :=
  decidable_of_iff (_ ∧ _) ⟨fun h => ⟨h.1, h.2⟩, fun h => ⟨h.1, h.2⟩⟩

variable {passed : Bool} {words formals fewer : List Text} {previous next : Option Char}
  {s t : Text} {site : Site}

/-! ### Runs -/

theorem Inert.not_mem {run : Text} (h : Inert words formals run) :
    run ∉ words ∧ run ∉ formals :=
  ⟨fun hmem => h run (List.mem_append_left _ hmem) (List.suffix_refl run),
    fun hmem => h run (List.mem_append_right _ hmem) (List.suffix_refl run)⟩

theorem Inert.of_suffix {run longer : Text} (h : Inert words formals run)
    (hlonger : run <:+ longer) : Inert words formals longer :=
  fun name hmem hname => h name hmem (hlonger.trans hname)

namespace Site

theorem Harmless.mono (h : site.Harmless passed words formals) (hfewer : fewer ⊆ formals) :
    site.Harmless passed words fewer where
  word := h.word
  formal := fun hpassed hmem => h.formal hpassed (hfewer hmem)
  detached := fun hclosing name hmem => by
    apply h.detached hclosing name
    rw [List.mem_append] at hmem ⊢
    exact hmem.imp_right fun hformal => hfewer hformal

/-- A run stays harmless where no closing bracket comes before it, and no parenthesis opens
behind it. -/
theorem Harmless.within (h : site.Harmless passed words formals)
    (hprevious : previous.any isClosing = false) (hnext : passed = true → next ≠ some '(') :
    (site.within previous next).Harmless passed words formals := by
  have hbehind : passed = true → site.behind ≠ some '(' → site.behind.or next ≠ some '(' := by
    intro hpassed hbehind
    cases hsite : site.behind with
    | none => exact hnext hpassed
    | some c => simpa [hsite] using hbehind
  refine ⟨fun hmem => ?_, fun hpassed hmem => hbehind hpassed (h.formal hpassed hmem), ?_⟩
  · obtain ⟨hpassed, hfree⟩ := h.word hmem
    exact ⟨hpassed, hbehind hpassed hfree⟩
  · intro hclosing
    apply h.detached
    cases hsite : site.before with
    | none =>
        rw [Site.within, hsite] at hclosing
        exact absurd hclosing (by simp [hprevious])
    | some c =>
        rw [Site.within, hsite] at hclosing
        exact hclosing

theorem Harmless.of_within (h : (site.within previous next).Harmless passed words formals) :
    site.Harmless passed words formals := by
  have hbehind : site.behind.or next ≠ some '(' → site.behind ≠ some '(' := by
    rintro hbehind hopen
    rw [hopen] at hbehind
    exact hbehind rfl
  refine ⟨fun hmem => (h.word hmem).imp_right hbehind,
    fun hpassed hmem => hbehind (h.formal hpassed hmem), fun hclosing => h.detached ?_⟩
  obtain ⟨c, hc, hclosing⟩ := (Option.any_eq_true _ _).1 hclosing
  rw [Site.within, hc]
  exact hclosing

/-- A run that is not called is harmless. -/
theorem Replaceable.harmless (h : site.Replaceable passed words formals)
    (huncalled : site.run ∈ words → site.behind ≠ some '(') :
    site.Harmless passed words formals where
  word := fun hmem => by
    refine ⟨?_, huncalled hmem⟩
    by_contra hpassed
    exact huncalled hmem (h.word (Bool.not_eq_true _ ▸ hpassed) hmem)
  formal := fun hpassed hmem => by
    by_cases hword : site.run ∈ words
    · exact huncalled hword
    · exact h.formal hpassed hmem hword
  detached := h.detached

end Site

/-! ### Texts -/

theorem Unopened.behind (h : Unopened none s) (hprevious : previous.any isClosing = false) :
    Unopened previous s := by
  cases previous with
  | none => exact h
  | some c =>
      refine List.isChain_cons.2 ⟨fun _ _ hclosing => ?_, h⟩
      simp [hclosing] at hprevious

theorem Unopened.append_cons_iff {c : Char} :
    Unopened previous (s ++ c :: t) ↔ Unopened previous (s ++ [c]) ∧ Unopened (some c) t := by
  unfold Unopened
  rw [← List.append_assoc, ← List.append_assoc, List.isChain_split]
  rfl

/-- The runs of a text may be changed one by one, but not behind a closing bracket or
before a parenthesis. -/
theorem Unopened.mapRuns {change : Text → Text} (h : Unopened previous s)
    (hchange : ∀ site ∈ sites s, change site.run = site.run ∨
      Unopened none (change site.run) ∧ (site.before.or previous).any isClosing = false ∧
        site.behind ≠ some '(') :
    Unopened previous (mapRuns change s) := by
  induction s using run_induction generalizing previous with
  | name run hrun =>
      by_cases hne : run = []
      · exact hne ▸ h
      · rw [mapRuns_of_isNameText change hrun hne]
        rcases hchange ⟨none, run, none⟩ (by simp [sites_of_isNameText hrun hne]) with
          hstays | ⟨hnew, hprevious, -⟩
        · rwa [hstays]
        · exact hnew.behind hprevious
  | cons run c rest hrun hc ih =>
      rw [sites_append_cons hc, List.forall_mem_append, List.forall_mem_map,
        List.forall_mem_map] at hchange
      obtain ⟨hfirst, hrest⟩ := append_cons_iff.1 h
      rw [mapRuns_append_cons change hc, append_cons_iff]
      refine ⟨?_, ih hrest fun site hmem => by
        simpa [Site.within, Option.or_assoc] using hchange.2 site hmem⟩
      by_cases hne : run = []
      · subst hne
        exact hfirst
      · rw [mapRuns_of_isNameText change hrun hne]
        rcases hchange.1 ⟨none, run, none⟩ (by simp [sites_of_isNameText hrun hne]) with
          hstays | ⟨hnew, hprevious, hopen⟩
        · change change run = run at hstays
          rwa [hstays]
        · -- what takes the place of the run may end with a closing bracket
          have hbehind := hnew.behind hprevious
          unfold Unopened at hbehind ⊢
          rw [← List.append_assoc, List.isChain_append]
          refine ⟨hbehind, List.isChain_singleton c, fun d _ e he _ => ?_⟩
          cases he
          simpa [Site.within] using hopen

namespace Throughout

variable {p : Site → Prop}

theorem nil (previous : Option Char) : Throughout passed p previous [] := by
  refine ⟨by simp, fun _ => ?_⟩
  cases previous with
  | none => exact List.isChain_nil
  | some c => exact List.isChain_singleton c

theorem append_cons_iff {c : Char} (hc : isNameChar c = false) :
    Throughout passed p previous (s ++ c :: t) ↔
      Throughout passed p previous (s ++ [c]) ∧ Throughout passed p (some c) t := by
  have hbehind : Site.within previous none ∘ Site.within (some c) none =
      Site.within (some c) none := Site.within_comp_within _ _ _ _
  have hsites : (∀ site ∈ sites (s ++ c :: t), p (site.within previous none)) ↔
      (∀ site ∈ sites (s ++ [c]), p (site.within previous none)) ∧
        ∀ site ∈ sites t, p (site.within (some c) none) := by
    rw [sites_append_cons hc, sites_concat hc, List.forall_mem_append,
      List.forall_mem_map (l := sites t)]
    refine and_congr_right fun _ => forall₂_congr fun site _ => ?_
    rw [← Function.comp_apply (f := Site.within previous none), hbehind]
  constructor
  · intro h
    obtain ⟨hfirst, hrest⟩ := hsites.1 h.site
    exact ⟨⟨hfirst, fun hpassed => (Unopened.append_cons_iff.1 (h.unopened hpassed)).1⟩,
      ⟨hrest, fun hpassed => (Unopened.append_cons_iff.1 (h.unopened hpassed)).2⟩⟩
  · rintro ⟨hfirst, hrest⟩
    exact ⟨hsites.2 ⟨hfirst.site, hrest.site⟩, fun hpassed =>
      Unopened.append_cons_iff.2 ⟨hfirst.unopened hpassed, hrest.unopened hpassed⟩⟩

end Throughout

namespace CallFree

theorem of_isPieceOf (h : CallFree passed words formals previous t) (hpiece : IsPieceOf s t) :
    CallFree passed words formals none s := by
  obtain ⟨first, last, hwithin⟩ := hpiece.exists_within_mem
  refine ⟨fun site hmem => ?_, fun hpassed => ?_⟩
  · rw [Site.within_none]
    exact (h.site _ (hwithin site hmem)).of_within.of_within
  · have hwhole : Unopened none t :=
      (List.isChain_append.1 (h.unopened hpassed)).2.1
    exact List.IsChain.infix hwhole hpiece.isInfix

theorem mono (h : CallFree passed words formals previous s) (hfewer : fewer ⊆ formals) :
    CallFree passed words fewer previous s :=
  ⟨fun site hmem => Site.Harmless.mono (h.site site hmem) hfewer, h.unopened⟩

theorem behind (h : CallFree passed words formals none s)
    (hprevious : previous.any isClosing = false) : CallFree passed words formals previous s := by
  refine ⟨fun site hmem => ?_, fun hpassed => (h.unopened hpassed).behind hprevious⟩
  have hsite := h.site site hmem
  rw [Site.within_none] at hsite
  exact Site.Harmless.within hsite hprevious fun _ => by simp

/-- What stands behind a closing bracket may come to stand behind any text. -/
theorem append (hs : CallFree passed words formals previous s) {c : Char}
    (hc : isClosing c = true) (ht : CallFree passed words formals (some c) t) :
    CallFree passed words formals previous (s ++ t) := by
  have hinert : ∀ site ∈ sites t, site.before = none → Inert words formals site.run := by
    intro site hmem hstart
    apply (ht.site site hmem).detached
    rw [Site.within, hstart]
    exact hc
  have hopen : passed = true → t.head? ≠ some '(' := by
    intro hpassed hstart
    exact (List.isChain_cons.1 (ht.unopened hpassed)).1 '(' hstart hc rfl
  refine ⟨fun site hmem => ?_, fun hpassed => ?_⟩
  · rcases cases_of_mem_sites_append hmem with ⟨inner, hinner, rfl⟩ | ⟨inner, hinner, rfl⟩ |
      ⟨inner, hinner, hstart, hsuffix⟩
    · -- a run of the first text, perhaps with the second one behind it
      have hsite : ((inner.within previous none).within none t.head?).Harmless passed words
          formals := (hs.site inner hinner).within rfl hopen
      simpa [Site.within] using hsite
    · have hsite := ht.site inner hinner
      refine ⟨fun hword => by simpa [Site.within] using hsite.word hword,
        fun hpassed hformal => by simpa [Site.within] using hsite.formal hpassed hformal,
        fun hclosing => ?_⟩
      cases hbefore : inner.before with
      | none => exact hinert inner hinner hbefore
      | some d =>
          apply hsite.detached
          rw [Site.within, hbefore]
          simpa [Site.within, hbefore] using hclosing
    · -- the two texts meet in the run, which is none of the names
      have hrun := (hinert inner hinner hstart).of_suffix hsuffix
      exact ⟨fun hword => absurd hword hrun.not_mem.1,
        fun _ hformal => absurd hformal hrun.not_mem.2, fun _ => hrun⟩
  · unfold Unopened
    rw [← List.append_assoc, List.isChain_append]
    refine ⟨hs.unopened hpassed, (List.isChain_append.1 (ht.unopened hpassed)).2.1,
      fun _ _ d hd _ => ?_⟩
    rintro rfl
    exact hopen hpassed hd

theorem wrap (h : CallFree passed words formals none s) (parenthesize whole : Bool) :
    CallFree passed words formals none (wrap parenthesize whole s) := by
  unfold Text.wrap
  split
  next =>
    have hinner : CallFree passed words formals (some '(') s := h.behind rfl
    have hopen : isNameChar '(' = false := by decide
    have hclose : isNameChar ')' = false := by decide
    change CallFree passed words formals none ([] ++ '(' :: (s ++ [')']))
    rw [CallFree, Throughout.append_cons_iff hopen]
    refine ⟨⟨by simp [sites_cons hopen], fun _ => List.isChain_singleton _⟩, ?_, fun hpassed => ?_⟩
    · rw [sites_concat hclose, List.forall_mem_map]
      intro site hmem
      have hsite : ((site.within (some '(') none).within none (some ')')).Harmless passed words
          formals := (hinner.site site hmem).within rfl fun _ => by simp
      simpa [Site.within] using hsite
    · unfold Unopened
      rw [← List.append_assoc, List.isChain_append]
      refine ⟨hinner.unopened hpassed, List.isChain_singleton _, fun _ _ d hd _ => ?_⟩
      cases hd
      decide
  next => exact h

/-- Runs may give way to texts in which nothing is called, but not behind a closing bracket
and, where names are passed as arguments, not before a parenthesis. -/
theorem mapRuns {change : Text → Text} (h : CallFree passed words formals none s)
    (hfewer : fewer ⊆ formals)
    (hchange : ∀ site ∈ sites s, change site.run = site.run ∨
      CallFree passed words fewer none (change site.run) ∧ site.before.any isClosing = false ∧
        (passed = true → site.behind ≠ some '(')) :
    CallFree passed words fewer none (mapRuns change s) := by
  refine ⟨fun new hnew => ?_, fun hpassed => ?_⟩
  · rw [sites_mapRuns] at hnew
    obtain ⟨old, hold, hnew⟩ := List.mem_flatMap.1 hnew
    obtain ⟨inner, hinner, rfl⟩ := List.mem_map.1 hnew
    rw [Site.within_none]
    rcases hchange old hold with hstays | ⟨hfree, hprevious, hopen⟩
    · obtain ⟨hne, hname, -⟩ := isNameText_of_mem_sites hold
      rw [hstays, sites_of_isNameText hname hne, List.mem_singleton] at hinner
      subst hinner
      have hsite := h.site old hold
      rw [Site.within_none] at hsite
      simpa [Site.within] using Site.Harmless.mono hsite hfewer
    · have hsite := hfree.site inner hinner
      rw [Site.within_none] at hsite
      exact Site.Harmless.within hsite hprevious hopen
  · apply (h.unopened hpassed).mapRuns
    intro site hmem
    rcases hchange site hmem with hstays | ⟨hfree, hprevious, hopen⟩
    · exact Or.inl hstays
    · refine Or.inr ⟨hfree.unopened hpassed, ?_, hopen hpassed⟩
      rwa [Option.or_none]

end CallFree

end Text

namespace Inlining

open Text

/-- A body in which nothing is called makes texts in which nothing is called out of such
actual arguments. -/
theorem Template.callFree_instantiate {definition : Definition} {template : Template}
    (h : ofDefinition definition = .ok template)
    (hargs : ∀ formal ∈ definition.args, formal ≠ [] ∧ IsNameText formal) {passed : Bool}
    {words formals fewer : List Text} (hbody : CallFree passed words formals none definition.expr)
    (hformals : definition.args ⊆ formals) (hfewer : fewer ⊆ formals) (parenthesize : Bool)
    {actuals : List Text} (hactuals : ∀ actual ∈ actuals, CallFree passed words fewer none actual) :
    CallFree passed words fewer none (template.instantiate parenthesize actuals) := by
  obtain ⟨hnodup, htemplate, -, hplaces⟩ := ofDefinition_spec h hargs
  rw [← htemplate] at hplaces
  rw [instantiate_eq_mapRuns hnodup hplaces, htemplate]
  refine hbody.mapRuns hfewer fun site hmem => ?_
  have hharmless := hbody.site site hmem
  rw [Site.within_none] at hharmless
  unfold standIn
  cases hindex : definition.args.idxOf? site.run with
  | none => exact Or.inl rfl
  | some id =>
      have hformal : site.run ∈ formals :=
        hformals (List.isSome_idxOf?.1 (by rw [hindex]; rfl))
      refine Or.inr ⟨CallFree.wrap ?_ parenthesize false, ?_, fun hpassed =>
        hharmless.formal hpassed hformal⟩
      · cases hactual : actuals[id]? with
        | some actual => exact hactuals actual (List.mem_of_getElem? hactual)
        | none => exact (hbody.of_isPieceOf (isPieceOf_of_mem_sites hmem)).mono hfewer
      · rw [Bool.eq_false_iff]
        exact fun hclosing => (hharmless.detached hclosing).not_mem.2 hformal

end Inlining

end OdeModel
