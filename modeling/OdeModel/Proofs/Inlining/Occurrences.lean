import OdeModel.Inlining.Occurrences
import OdeModel.Proofs.Dictionary.Keywords
import OdeModel.Proofs.Dictionary.Scan
import OdeModel.Proofs.Text.Runs
import Mathlib.Data.List.Sort

/-!
# Complete names

The complete names that a dictionary of names finds in an expression are the runs
of the expression that are in the dictionary, from left to right. When they are
exchanged from the right, the result is the expression with every such run changed.
-/

namespace OdeModel

namespace Text

theorem isDelimited_iff (before run after : Text) :
    isDelimited (before ++ run ++ after) (width before) (width before + width run) = true ↔
      before.getLast?.any isNameChar = false ∧ after.head?.any isNameChar = false := by
  have hstart : takeBytes (width before) (before ++ run ++ after) = before := by
    rw [List.append_assoc, takeBytes_width_append]
  have hstop : dropBytes (width before + width run) (before ++ run ++ after) = after := by
    rw [← width_append, dropBytes_width_append]
  simp only [isDelimited, around, hstart, hstop, Bool.and_eq_true, Bool.not_eq_true']

/-- Exchanging the occurrences that are chosen among the runs for something new is
what `change` does to each run. -/
structure Exchanges (choose : Nat × Text → Option Occurrence) (new : Occurrence → Text)
    (change : Text → Text) : Prop where
  start : ∀ {position run found}, choose (position, run) = some found → found.start = position
  stop : ∀ {position run found}, choose (position, run) = some found →
    found.stop = position + width run
  chosen : ∀ {position run found}, choose (position, run) = some found → new found = change run
  other : ∀ {position run}, choose (position, run) = none → change run = run

namespace Exchanges

variable {choose : Nat × Text → Option Occurrence} {new : Occurrence → Text}
  {change : Text → Text}

theorem foldr_splice_run (h : Exchanges choose new change) {run : Text} (hname : IsNameText run)
    (before after : Text) :
    ((places (width before) run).filterMap choose).foldr
        (fun found text => splice text found.start found.stop (new found))
        (before ++ run ++ after) =
      before ++ mapRuns change run ++ after := by
  by_cases hne : run = []
  · simp [hne]
  · rw [places_of_isNameText _ hname hne, mapRuns_of_isNameText change hname hne]
    cases hchoice : choose (width before, run) with
    | none => simp [hchoice, h.other hchoice]
    | some found =>
        rw [List.filterMap_cons_some hchoice, List.filterMap_nil, List.foldr_cons,
          List.foldr_nil, h.start hchoice, h.stop hchoice, h.chosen hchoice, splice_append]

/-- Exchanging the chosen runs of a text from the right, behind another text,
changes all of its runs. -/
theorem foldr_splice (h : Exchanges choose new change) (before s : Text) :
    ((places (width before) s).filterMap choose).foldr
        (fun found text => splice text found.start found.stop (new found)) (before ++ s) =
      before ++ mapRuns change s := by
  induction s using run_induction generalizing before with
  | name run hname => simpa using h.foldr_splice_run hname before []
  | cons run c rest hname hc ih =>
      -- the first run is exchanged last, when all behind it is changed already
      have hwidth : width before + width run + c.utf8Size = width (before ++ run ++ [c]) := by
        simp [Nat.add_assoc]
      have hsplit : before ++ (run ++ c :: rest) = before ++ run ++ [c] ++ rest := by simp
      rw [places_run_append_cons _ hc hname, hwidth, hsplit, List.filterMap_append,
        List.foldr_append, ih, List.append_assoc (before ++ run), h.foldr_splice_run hname,
        mapRuns_append_cons change hc]
      simp

end Exchanges

end Text

namespace Dictionary

/-- The occurrence of a word at a place, if it is one of the given words. -/
def occurrenceOf (words : List Text) (place : Nat × Text) : Option Occurrence :=
  (words.idxOf? place.2).map fun id => ⟨id, place.2, place.1, place.1 + Text.width place.2⟩

variable {d : Dictionary} {words : List Text}

theorem Holds.nodup (h : d.Holds words) : words.Nodup := by
  rw [List.nodup_iff_getElem?_ne_getElem?]
  intro i j hij hj heq
  have hword : words[j]? = some words[j] := List.getElem?_eq_getElem hj
  have hi := heq.trans hword
  rw [← h.getElem?] at hi hword
  exact hij.ne (h.wellFormed.id_unique hi hword rfl)

theorem idxOf?_eq_some_iff_of_nodup (hnodup : words.Nodup) (word : Text) (id : Nat) :
    words.idxOf? word = some id ↔ words[id]? = some word := by
  rw [List.idxOf?_eq_some_iff, List.getElem?_eq_some_iff]
  constructor
  · rintro ⟨hid, hget, -⟩
    exact ⟨hid, hget⟩
  · rintro ⟨hid, hget⟩
    refine ⟨hid, hget, fun j hj heq => hj.ne ?_⟩
    exact (hnodup.getElem_inj_iff).1 (heq.trans hget.symm)

theorem occurrenceOf_eq_some_iff (hnodup : words.Nodup) (place : Nat × Text)
    (found : Occurrence) :
    occurrenceOf words place = some found ↔ words[found.id]? = some found.keyword ∧
      (found.start, found.keyword) = place ∧
      found.stop = found.start + Text.width found.keyword := by
  simp only [occurrenceOf, Option.map_eq_some_iff, idxOf?_eq_some_iff_of_nodup hnodup]
  constructor
  · rintro ⟨id, hid, rfl⟩
    exact ⟨hid, rfl, rfl⟩
  · rintro ⟨hid, rfl, hstop⟩
    exact ⟨found.id, hid, by rw [← hstop]⟩

theorem mem_delimited_iff (h : d.Holds words) (hwords : ∀ word ∈ words, Text.IsNameText word)
    (expr : Text) (found : Occurrence) :
    found ∈ d.delimited expr ↔ words[found.id]? = some found.keyword ∧
      (found.start, found.keyword) ∈ Text.places 0 expr ∧
      found.stop = found.start + Text.width found.keyword := by
  have hpart : d.matching.wholeText = false := by rw [h.matching]
  rw [delimited, List.mem_filter, (scan_spec h.wellFormed h.linked hpart expr).1, h.getElem?,
    h.matching, Text.mem_places_iff]
  constructor
  · rintro ⟨⟨hkeyword, ⟨before, run, after, rfl, hbefore, hrun⟩, hstop⟩, hdelimited⟩
    obtain rfl : run = found.keyword :=
      trail_injective_of_sensitive (by rw [Matching.trail, hrun]; rfl)
    rw [hstop, ← hbefore, Text.isDelimited_iff] at hdelimited
    have hmem := List.mem_of_getElem? hkeyword
    refine ⟨hkeyword, ⟨before, after, rfl, by simp [hbefore], ?_⟩, hstop⟩
    have hne : found.keyword ≠ [] :=
      h.wellFormed.nonempty found.id (by rw [h.getElem?, hkeyword])
    exact ⟨hne, hwords _ hmem, hdelimited.1, hdelimited.2⟩
  · rintro ⟨hkeyword, ⟨before, after, rfl, hbefore, hrun⟩, hstop⟩
    rw [Nat.zero_add] at hbefore
    refine ⟨⟨hkeyword, ⟨before, found.keyword, after, rfl, hbefore.symm, rfl⟩, hstop⟩, ?_⟩
    rw [hstop, hbefore, Text.isDelimited_iff]
    exact ⟨hrun.before, hrun.after⟩

/-- The runs that are among the words stand one behind the other. -/
theorem pairwise_filterMap_occurrenceOf (hnodup : words.Nodup) (expr : Text) :
    ((Text.places 0 expr).filterMap (occurrenceOf words)).Pairwise fun found found' =>
      found.start ≤ found.stop ∧ found.stop < found'.start ∧ found'.start ≤ found'.stop := by
  apply List.Pairwise.filterMap _ _ (Text.pairwise_places 0 expr).2
  intro place place' hlt found hfound found' hfound'
  obtain ⟨-, rfl, hstop⟩ := (occurrenceOf_eq_some_iff hnodup place found).1 hfound
  obtain ⟨-, rfl, hstop'⟩ := (occurrenceOf_eq_some_iff hnodup place' found').1 hfound'
  dsimp only at hlt
  omega

/-- The complete names in an expression are its runs that are in the dictionary. -/
theorem delimited_eq (h : d.Holds words) (hwords : ∀ word ∈ words, Text.IsNameText word)
    (expr : Text) :
    d.delimited expr = (Text.places 0 expr).filterMap (occurrenceOf words) := by
  have hpart : d.matching.wholeText = false := by rw [h.matching]
  have hleft : (d.delimited expr).Pairwise Occurrence.Before :=
    (scan_spec h.wellFormed h.linked hpart expr).2.filter _
  have hright : ((Text.places 0 expr).filterMap (occurrenceOf words)).Pairwise
      Occurrence.Before :=
    (pairwise_filterMap_occurrenceOf h.nodup expr).imp fun hbehind => Or.inl (by omega)
  apply hleft.eq_of_mem_iff hright
  intro found
  simp only [mem_delimited_iff h hwords, List.mem_filterMap, occurrenceOf_eq_some_iff h.nodup]
  constructor
  · rintro ⟨hkeyword, hplace, hstop⟩
    exact ⟨_, hplace, hkeyword, rfl, hstop⟩
  · rintro ⟨place, hplace, hkeyword, rfl, hstop⟩
    exact ⟨hkeyword, hplace, hstop⟩

/-- The numbers of the complete names in an expression. -/
theorem mem_map_id_delimited_iff (h : d.Holds words)
    (hwords : ∀ word ∈ words, Text.IsNameText word) (expr : Text) (id : Nat) :
    id ∈ (d.delimited expr).map Occurrence.id ↔
      ∃ run ∈ Text.runs expr, words[id]? = some run := by
  simp only [List.mem_map, mem_delimited_iff h hwords]
  constructor
  · rintro ⟨found, ⟨hkeyword, hplace, -⟩, rfl⟩
    refine ⟨found.keyword, ?_, hkeyword⟩
    rw [← Text.map_snd_places 0 expr]
    exact List.mem_map_of_mem hplace
  · rintro ⟨run, hrun, hget⟩
    rw [← Text.map_snd_places 0 expr, List.mem_map] at hrun
    obtain ⟨⟨position, run⟩, hplace, rfl⟩ := hrun
    exact ⟨⟨id, run, position, position + Text.width run⟩, ⟨hget, hplace, rfl⟩, rfl⟩

end Dictionary

end OdeModel
