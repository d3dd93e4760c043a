import OdeModel.Proofs.Dictionary.Rebuilding
import OdeModel.Proofs.Dictionary.WholeText

/-!
# Refused keywords

That a keyword is there already is noticed at the end of its path only, when missing nodes
have been added on the way. But the path of a keyword that is there is complete, so a
refused one leaves the dictionary as it was, and several keywords at once leave it with
those before the first refused one.
-/

namespace OdeModel

namespace Matching

/-- A keyword is refused beside those that are known: it is not empty, and one of them is
the same, up to the case of letters where it does not matter. -/
def Refuses (matching : Matching) (known : List Text) (keyword : Text) : Prop :=
  keyword ≠ [] ∧ ∃ word ∈ known, Text.SameAs matching.caseSensitive word keyword

instance (matching : Matching) (known : List Text) (keyword : Text) :
    Decidable (matching.Refuses known keyword) :=
  inferInstanceAs (Decidable (_ ∧ ∃ word ∈ known, _))

/-- Of some keywords that are added in turn, those in `before` are accepted and the next
one is refused, each beside the ones that are known and those added before it. -/
structure StopsAt (matching : Matching) (known keywords before : List Text) (keyword : Text) :
    Prop where
  split : ∃ after, keywords = before ++ keyword :: after
  accepted : ∀ earlier word later, before = earlier ++ word :: later →
    ¬ matching.Refuses (known ++ earlier) word
  refused : matching.Refuses (known ++ before) keyword

variable {matching : Matching} {known keywords before : List Text} {keyword word : Text}

theorem refuses_append {later : List Text} :
    matching.Refuses (known ++ later) keyword ↔
      matching.Refuses known keyword ∨ matching.Refuses later keyword := by
  simp only [Refuses, List.mem_append, or_and_right, exists_or, and_or_left]

/-- Nothing is refused because of the empty keyword. -/
theorem not_refuses_empty : ¬ matching.Refuses [[]] keyword := by
  rintro ⟨hne, word, hmem, hsame⟩
  obtain rfl := List.mem_singleton.1 hmem
  rw [← trail_eq_iff] at hsame
  exact hne ((trail_eq_nil_iff matching keyword).1 (hsame ▸ (trail_eq_nil_iff matching []).2 rfl))

namespace StopsAt

theorem ne_nil (h : matching.StopsAt known keywords before keyword) : keywords ≠ [] := by
  obtain ⟨after, rfl⟩ := h.split
  simp

/-- Only the refusals of the known keywords matter. -/
theorem congr {known' : List Text}
    (hknown : ∀ word, matching.Refuses known' word ↔ matching.Refuses known word)
    (h : matching.StopsAt known keywords before keyword) :
    matching.StopsAt known' keywords before keyword where
  split := h.split
  accepted := by
    intro earlier word later hsplit
    rw [refuses_append, hknown, ← refuses_append]
    exact h.accepted _ _ _ hsplit
  refused := by
    rw [refuses_append, hknown, ← refuses_append]
    exact h.refused

end StopsAt

theorem stopsAt_cons_of_refuses (h : matching.Refuses known keyword) :
    matching.StopsAt known (keyword :: keywords) before word ↔ before = [] ∧ word = keyword := by
  constructor
  · rintro ⟨⟨after, hsplit⟩, haccepted, -⟩
    cases before with
    | nil => exact ⟨rfl, (List.cons.inj hsplit).1.symm⟩
    | cons first before =>
        rw [List.cons_append, List.cons.injEq] at hsplit
        obtain ⟨rfl, -⟩ := hsplit
        refine absurd ?_ (haccepted [] _ _ rfl)
        rwa [List.append_nil]
  · rintro ⟨rfl, rfl⟩
    refine ⟨⟨keywords, rfl⟩, fun _ _ _ hsplit => absurd hsplit (by simp), ?_⟩
    rwa [List.append_nil]

theorem stopsAt_cons_of_not_refuses (h : ¬ matching.Refuses known keyword) :
    matching.StopsAt known (keyword :: keywords) before word ↔
      ∃ later, before = keyword :: later ∧
        matching.StopsAt (known ++ [keyword]) keywords later word := by
  constructor
  · rintro ⟨⟨after, hsplit⟩, haccepted, hrefused⟩
    cases before with
    | nil =>
        obtain ⟨rfl, -⟩ := List.cons.inj hsplit
        rw [List.append_nil] at hrefused
        exact absurd hrefused h
    | cons first later =>
        rw [List.cons_append, List.cons.injEq] at hsplit
        obtain ⟨rfl, hsplit⟩ := hsplit
        refine ⟨later, rfl, ⟨after, hsplit⟩, ?_, ?_⟩
        · rintro earlier next rest rfl
          rw [List.append_assoc]
          exact haccepted (keyword :: earlier) next rest rfl
        · rwa [List.append_assoc]
  · rintro ⟨later, rfl, ⟨after, rfl⟩, haccepted, hrefused⟩
    refine ⟨⟨after, rfl⟩, ?_, ?_⟩
    · intro earlier next rest hsplit
      cases earlier with
      | nil =>
          obtain ⟨rfl, -⟩ := List.cons.inj hsplit
          rwa [List.append_nil]
      | cons first earlier =>
          rw [List.cons_append, List.cons.injEq] at hsplit
          obtain ⟨rfl, hsplit⟩ := hsplit
          have haccepted := haccepted _ _ _ hsplit
          rwa [List.append_assoc] at haccepted
    · rwa [List.append_assoc] at hrefused

end Matching

namespace Dictionary

/-- The way along a text adds nothing when there is a node at its end. -/
theorem addPath_eq_self {nodes : Array Node} (tree : IsTree nodes) (matching : Matching)
    {index : Nat} (hindex : index < nodes.size) {s : Text} {last : Nat}
    (hlast : last < nodes.size)
    (htrail : trailAt nodes last = (s.map matching.fold).reverse ++ trailAt nodes index) :
    addPath matching nodes index s = (nodes, last) := by
  induction s generalizing index with
  | nil =>
      obtain rfl := tree.injective hlast hindex htrail
      rfl
  | cons c rest ih =>
      have hsplit : trailAt nodes last =
          (rest.map matching.fold).reverse ++ matching.fold c :: trailAt nodes index := by
        simpa using htrail
      -- the beginning that is one character longer has a node, since the end has one
      obtain ⟨next, hnext, hnexttrail⟩ := tree.exists_suffix hlast
        (hsplit ▸ List.suffix_append (rest.map matching.fold).reverse _)
      have hchild : child? nodes index (matching.fold c) = some next :=
        (tree.child?_eq_some_iff hindex _ next).2 ⟨hnext, hnexttrail⟩
      have hadd : addChild nodes index (matching.fold c) = (nodes, next) := by
        rw [addChild, hchild]
      rw [addPath_cons, hadd]
      exact ih hnext (by rw [hsplit, hnexttrail])

namespace WellFormed

variable {d : Dictionary}

theorem refuses_iff (keyword : Text) :
    d.matching.Refuses d.keywords.toList keyword ↔ keyword ≠ [] ∧ d.Knows keyword := by
  simp only [Matching.Refuses, Knows, Matching.trail_eq_iff]

/-- A refused keyword leaves no node behind. -/
theorem walked_eq_self (wf : WellFormed d) {keyword : Text}
    (h : d.matching.Refuses d.keywords.toList keyword) : d.walked keyword = d := by
  obtain ⟨-, known, hmem, hsame⟩ := (refuses_iff keyword).1 h
  obtain ⟨id, hid⟩ := Array.mem_iff_getElem?.1 (Array.mem_toList_iff.1 hmem)
  obtain ⟨last, hlast, hkeyword⟩ := wf.node id hid
  obtain ⟨word, hword, htrail⟩ := wf.keyword hlast hkeyword
  rw [hid] at hword
  cases hword
  have hpath : d.pathOf keyword = (d.nodes, last) := by
    apply addPath_eq_self wf.tree d.matching wf.tree.size_pos hlast
    rw [htrail, hsame, wf.tree.trail_root, List.append_nil]
    rfl
  rw [walked, hpath]

theorem add_of_refuses (wf : WellFormed d) {keyword : Text}
    (h : d.matching.Refuses d.keywords.toList keyword) : d.add keyword = .error ⟨keyword⟩ :=
  add_of_knows wf ((refuses_iff keyword).1 h).1 ((refuses_iff keyword).1 h).2

/-- A keyword that is not refused is known afterwards, unless it is empty. -/
theorem add_of_not_refuses (wf : WellFormed d) {keyword : Text}
    (h : ¬ d.matching.Refuses d.keywords.toList keyword) :
    ∃ added id, d.add keyword = .ok (added, id) ∧ added.matching = d.matching ∧
      added.keywords.toList = d.keywords.toList ++ [keyword].filter (· ≠ []) ∧
      ∀ word, d.matching.Refuses added.keywords.toList word ↔
        d.matching.Refuses (d.keywords.toList ++ [keyword]) word := by
  by_cases hne : keyword = []
  · subst hne
    refine ⟨d, none, rfl, rfl, by simp, fun word => ?_⟩
    rw [Matching.refuses_append, or_iff_left Matching.not_refuses_empty]
  · have hnew : ¬ d.Knows keyword := fun hknows => h ((refuses_iff keyword).2 ⟨hne, hknows⟩)
    refine ⟨d.withKeyword keyword, _, add_of_not_knows wf hne hnew, rfl, ?_, fun word => ?_⟩
    · simp [toList_keywords_withKeyword, hne]
    · rw [toList_keywords_withKeyword]

theorem add_eq_error_iff (wf : WellFormed d) (keyword : Text) (error : DuplicateKeyword) :
    d.add keyword = .error error ↔
      d.matching.Refuses d.keywords.toList keyword ∧ error = ⟨keyword⟩ := by
  by_cases hrefuses : d.matching.Refuses d.keywords.toList keyword
  · simp [wf.add_of_refuses hrefuses, hrefuses, eq_comm]
  · obtain ⟨added, id, hadd, -⟩ := wf.add_of_not_refuses hrefuses
    simp [hadd, hrefuses]

/-- Several keywords are added up to the first one that is refused, and all of them when
there is none. -/
theorem addAll_eq_some_iff (wf : WellFormed d) (keywords : List Text)
    (error : DuplicateKeyword) :
    (d.addAll keywords).2 = some error ↔
      ∃ before, d.matching.StopsAt d.keywords.toList keywords before error.keyword := by
  induction keywords generalizing d with
  | nil =>
      simp only [addAll, reduceCtorEq, false_iff, not_exists]
      exact fun before h => h.ne_nil rfl
  | cons keyword later ih =>
      rw [addAll]
      by_cases hrefuses : d.matching.Refuses d.keywords.toList keyword
      · simp only [wf.add_of_refuses hrefuses, Matching.stopsAt_cons_of_refuses hrefuses,
          exists_eq_left, Option.some.injEq]
        constructor
        · rintro rfl
          rfl
        · rintro rfl
          rfl
      · obtain ⟨added, id, hadd, hmatching, -, hknown⟩ := wf.add_of_not_refuses hrefuses
        simp only [hadd, ih (wf.add hadd), Matching.stopsAt_cons_of_not_refuses hrefuses,
          hmatching]
        constructor
        · rintro ⟨before, hstops⟩
          exact ⟨keyword :: before, before, rfl, hstops.congr fun word => (hknown word).symm⟩
        · rintro ⟨-, before, -, hstops⟩
          exact ⟨before, hstops.congr hknown⟩

/-- Where several keywords stop, those before the refused one have been added. -/
theorem addAll_of_stopsAt (wf : WellFormed d) {keywords before : List Text} {keyword : Text}
    (h : d.matching.StopsAt d.keywords.toList keywords before keyword) :
    d.addAll before = ((d.addAll keywords).1.relink, none) ∧
      (d.addAll keywords).1.keywords.toList = d.keywords.toList ++ before.filter (· ≠ []) ∧
      d.matching.Refuses (d.addAll keywords).1.keywords.toList keyword := by
  induction keywords generalizing d before with
  | nil => exact absurd rfl h.ne_nil
  | cons first later ih =>
      by_cases hrefuses : d.matching.Refuses d.keywords.toList first
      · obtain ⟨rfl, rfl⟩ := (Matching.stopsAt_cons_of_refuses hrefuses).1 h
        rw [addAll, addAll, wf.add_of_refuses hrefuses]
        exact ⟨rfl, by simp, hrefuses⟩
      · obtain ⟨added, id, hadd, hmatching, hlist, hknown⟩ := wf.add_of_not_refuses hrefuses
        obtain ⟨rest, rfl, hstops⟩ := (Matching.stopsAt_cons_of_not_refuses hrefuses).1 h
        have hstops := hstops.congr hknown
        rw [← hmatching] at hstops
        obtain ⟨hbefore, hkeywords, hlast⟩ := ih (wf.add hadd) hstops
        rw [hmatching] at hlast
        rw [addAll, addAll, hadd]
        refine ⟨hbefore, ?_, hlast⟩
        rw [hkeywords, hlist, List.append_assoc, ← List.filter_append]
        rfl

end WellFormed

/-- After any changes, a keyword is refused just when it is not empty and one is there that
is the same up to the case of letters, and it leaves all nodes, keywords and links as they
were. Several keywords stop at the first one that is refused beside those that are there
and those before it, and leave the keywords, numbers and nodes that those before it make. -/
theorem refused_unchanged (matching : Matching) (edits : List Edit) :
    let d := (Edited.after matching edits).dictionary
    (∀ keyword error, d.add keyword = .error error ↔
      matching.Refuses d.keywords.toList keyword ∧ error = ⟨keyword⟩) ∧
    (∀ keyword error, d.insert keyword = .error error ↔ d.add keyword = .error error) ∧
    (∀ keyword, matching.Refuses d.keywords.toList keyword → d.walked keyword = d) ∧
    (∀ keywords error, (d.addAll keywords).2 = some error ↔
      ∃ before, matching.StopsAt d.keywords.toList keywords before error.keyword) ∧
    ∀ keywords before keyword, matching.StopsAt d.keywords.toList keywords before keyword →
      (d.addAll before).2 = none ∧ (d.addAll before).1.Alike (d.addAll keywords).1 ∧
      (d.addAll keywords).1.keywords.toList = d.keywords.toList ++ before.filter (· ≠ []) ∧
      (d.addAll keywords).1.walked keyword = (d.addAll keywords).1 := by
  intro d
  obtain ⟨wf, hmatching, -⟩ := Edited.after_spec matching edits
  change WellFormed d at wf
  change d.matching = matching at hmatching
  rw [← hmatching]
  refine ⟨wf.add_eq_error_iff, fun keyword error => ?_, fun keyword => wf.walked_eq_self,
    wf.addAll_eq_some_iff, fun keywords before keyword hstops => ?_⟩
  · rw [Dictionary.insert, bind_eq_error_iff, or_iff_left]
    rintro ⟨added, -, hpure⟩
    contradiction
  · obtain ⟨hbefore, hkeywords, hlast⟩ := wf.addAll_of_stopsAt hstops
    obtain ⟨hwf, hsame, -⟩ := addAll_spec wf keywords
    rw [← hsame] at hlast
    rw [hbefore]
    exact ⟨rfl, hwf.alike_relink.symm, hkeywords, hwf.walked_eq_self hlast⟩

/-- Of five keywords, one of them empty, the fourth one is the first in other letters: the
third one is entered, and nothing of the fourth and fifth one is. -/
theorem refused_unchanged_batch :
    let d := (Edited.after ⟨false, false⟩ [.insert "abc".toList, .add "x".toList]).dictionary
    let keywords := ["AB".toList, [], "xy".toList, "aB".toList, "q".toList]
    Matching.StopsAt ⟨false, false⟩ d.keywords.toList keywords
      ["AB".toList, [], "xy".toList] "aB".toList ∧
    (d.addAll keywords).2 = some ⟨"aB".toList⟩ ∧
    (d.addAll keywords).1.keywords.toList =
      ["abc".toList, "x".toList, "AB".toList, "xy".toList] ∧
    (d.addAll keywords).1.walked "aB".toList = (d.addAll keywords).1 := by
  intro d keywords
  have hstops : Matching.StopsAt ⟨false, false⟩ d.keywords.toList keywords
      ["AB".toList, [], "xy".toList] "aB".toList := by
    refine (Matching.stopsAt_cons_of_not_refuses (by decide)).2 ⟨_, rfl, ?_⟩
    refine (Matching.stopsAt_cons_of_not_refuses (by decide)).2 ⟨_, rfl, ?_⟩
    refine (Matching.stopsAt_cons_of_not_refuses (by decide)).2 ⟨_, rfl, ?_⟩
    exact (Matching.stopsAt_cons_of_refuses (by decide)).2 ⟨rfl, rfl⟩
  obtain ⟨-, -, -, hfails, hleaves⟩ := refused_unchanged ⟨false, false⟩
    [.insert "abc".toList, .add "x".toList]
  obtain ⟨-, -, hkeywords, hwalked⟩ := hleaves keywords _ _ hstops
  exact ⟨hstops, (hfails keywords ⟨"aB".toList⟩).2 ⟨_, hstops⟩, hkeywords.trans (by decide),
    hwalked⟩

end Dictionary

end OdeModel
