import OdeModel.Proofs.Dictionary.Edits
import Mathlib.Data.List.Nodup

/-!
# Keywords of a dictionary

A keyword is refused just when one with the same letters is there already, so the
dictionary of a list of keywords exists when they differ, and it holds them under
their places in the list.
-/

namespace OdeModel

namespace Dictionary

/-- A keyword that is compared like the given one is in the dictionary. -/
def Knows (d : Dictionary) (keyword : Text) : Prop :=
  ∃ known ∈ d.keywords.toList, d.matching.trail known = d.matching.trail keyword

namespace WellFormed

variable {d : Dictionary}

/-- A keyword has one number only. -/
theorem id_unique (wf : WellFormed d) {id id' : Nat} {keyword keyword' : Text}
    (h : d.keywords[id]? = some keyword) (h' : d.keywords[id']? = some keyword')
    (hsame : d.matching.trail keyword = d.matching.trail keyword') : id = id' := by
  obtain ⟨i, hi, hid⟩ := wf.node id h
  obtain ⟨i', hi', hid'⟩ := wf.node id' h'
  obtain ⟨word, hword, htrail⟩ := wf.keyword hi hid
  obtain ⟨word', hword', htrail'⟩ := wf.keyword hi' hid'
  rw [h] at hword
  rw [h'] at hword'
  cases hword
  cases hword'
  obtain rfl := wf.tree.injective hi hi' (by rw [htrail, htrail', hsame])
  rw [hid] at hid'
  exact Option.some.inj hid'

/-- The node at the end of the path of a keyword is taken by a known one. -/
theorem isSome_pathOf_iff (wf : WellFormed d) (keyword : Text) :
    (nodeAt (d.pathOf keyword).1 (d.pathOf keyword).2).keyword.isSome = true ↔
      d.Knows keyword := by
  obtain ⟨htree, hgrows, hlt, htrail⟩ :=
    addPath_spec wf.tree d.matching wf.tree.size_pos keyword
  change IsTree (d.pathOf keyword).1 at htree
  change Grows d.nodes (d.pathOf keyword).1 at hgrows
  change (d.pathOf keyword).2 < (d.pathOf keyword).1.size at hlt
  change trailAt (d.pathOf keyword).1 (d.pathOf keyword).2 = _ at htrail
  rw [wf.tree.trail_root, List.append_nil] at htrail
  rw [hgrows.keyword, Option.isSome_iff_exists]
  constructor
  · rintro ⟨id, hid⟩
    have hold : (d.pathOf keyword).2 < d.nodes.size := by
      by_contra hnew
      rw [nodeAt_of_size_le (Nat.le_of_not_lt hnew)] at hid
      simp [Node.root, Node.fresh] at hid
    obtain ⟨known, hget, hknown⟩ := wf.keyword hold hid
    refine ⟨known, ?_, ?_⟩
    · exact Array.mem_toList_iff.2 (Array.mem_of_getElem? hget)
    · rw [← hknown, ← hgrows.trail hold, htrail]
      rfl
  · rintro ⟨known, hmem, hsame⟩
    obtain ⟨id, hget⟩ := Array.mem_iff_getElem?.1 (Array.mem_toList_iff.1 hmem)
    obtain ⟨i, hi, hid⟩ := wf.node id hget
    obtain ⟨word, hword, hi_trail⟩ := wf.keyword hi hid
    rw [hget] at hword
    cases hword
    refine ⟨id, ?_⟩
    rw [← hid]
    congr 2
    apply htree.injective hlt (hi.trans_le hgrows.size_le)
    rw [htrail, hgrows.trail hi, hi_trail, hsame]
    rfl

end WellFormed

variable {d : Dictionary} {keyword : Text}

theorem add_of_knows (wf : WellFormed d) (hne : keyword ≠ []) (h : d.Knows keyword) :
    d.add keyword = .error ⟨keyword⟩ := by
  rw [add_eq_walked d hne]
  exact if_pos ((wf.isSome_pathOf_iff keyword).2 h)

theorem add_of_not_knows (wf : WellFormed d) (hne : keyword ≠ []) (h : ¬ d.Knows keyword) :
    d.add keyword = .ok (d.withKeyword keyword, some d.keywords.size) := by
  rw [add_eq_walked d hne]
  exact if_neg (mt (wf.isSome_pathOf_iff keyword).1 h)

theorem toList_keywords_withKeyword (d : Dictionary) (keyword : Text) :
    (d.withKeyword keyword).keywords.toList = d.keywords.toList ++ [keyword] := by
  simp [withKeyword]

/-- Keywords are all added, in their order, just when they differ among each other
and from those that are there. -/
theorem addAll_keywords (wf : WellFormed d) {keywords : List Text}
    (hne : ∀ keyword ∈ keywords, keyword ≠ []) :
    ((d.addAll keywords).2 = none ↔
      (keywords.map d.matching.trail).Nodup ∧ ∀ keyword ∈ keywords, ¬ d.Knows keyword) ∧
    ((d.addAll keywords).2 = none →
      (d.addAll keywords).1.keywords.toList = d.keywords.toList ++ keywords) := by
  induction keywords generalizing d with
  | nil => simp [addAll, relink]
  | cons keyword later ih =>
      have hkeyword := hne keyword List.mem_cons_self
      by_cases hknows : d.Knows keyword
      · rw [addAll, add_of_knows wf hkeyword hknows]
        simp [hknows]
      · have hadd := add_of_not_knows wf hkeyword hknows
        have hlater := fun word hword => hne word (List.mem_cons_of_mem _ hword)
        obtain ⟨hiff, hlist⟩ := ih (wf.add hadd) hlater
        rw [addAll, hadd]
        dsimp only
        constructor
        · rw [hiff]
          have hmatching : (d.withKeyword keyword).matching = d.matching := rfl
          have hknows' : ∀ word, (d.withKeyword keyword).Knows word ↔
              d.Knows word ∨ d.matching.trail keyword = d.matching.trail word := by
            intro word
            simp only [Knows, toList_keywords_withKeyword, hmatching, List.mem_append,
              List.mem_singleton, or_and_right, exists_or, exists_eq_left]
          rw [hmatching, List.map_cons, List.nodup_cons]
          simp only [hknows', List.forall_mem_cons, not_or, List.mem_map, not_exists, not_and]
          constructor
          · rintro ⟨hnodup, hfresh⟩
            exact ⟨⟨fun word hword heq => (hfresh word hword).2 heq.symm, hnodup⟩, hknows,
              fun word hword => (hfresh word hword).1⟩
          · rintro ⟨⟨hfirst, hnodup⟩, -, hfresh⟩
            exact ⟨hnodup, fun word hword => ⟨hfresh word hword,
              fun heq => hfirst word hword heq.symm⟩⟩
        · intro hnone
          rw [hlist hnone, toList_keywords_withKeyword, List.append_assoc]
          rfl

/-! ### Dictionaries of given keywords -/

/-- The dictionary finds just the given words, letter by letter, each under its
place in the list. -/
structure Holds (d : Dictionary) (words : List Text) : Prop where
  wellFormed : WellFormed d
  linked : d.Linked
  matching : d.matching = { }
  keywords : d.keywords.toList = words

theorem Holds.getElem? {words : List Text} (h : d.Holds words) (id : Nat) :
    d.keywords[id]? = words[id]? := by
  rw [← h.keywords, Array.getElem?_toList]

theorem trail_injective_of_sensitive : Function.Injective (Matching.trail { }) := by
  intro s t h
  have hfold : ∀ text : Text, text.map (Matching.fold { }) = text := by
    intro text
    exact (List.map_congr_left fun c _ => rfl).trans (List.map_id text)
  simpa [Matching.trail, hfold] using h

/-- The dictionary of some words exists when they differ, and holds them. -/
theorem ofKeywords_spec {words : List Text} (hne : ∀ word ∈ words, word ≠ []) :
    ((∃ d, ofKeywords { } words = .ok d) ↔ words.Nodup) ∧
      ∀ d, ofKeywords { } words = .ok d → d.Holds words := by
  obtain ⟨hiff, hlist⟩ := addAll_keywords (WellFormed.empty { }) hne
  obtain ⟨hwf, hmatching, -, hlinked⟩ := addAll_spec (WellFormed.empty { }) words
  have hnodup : (((empty { }).addAll words).2 = none ↔ words.Nodup) := by
    rw [hiff, show (empty { }).matching = { } from rfl,
      List.nodup_map_iff trail_injective_of_sensitive]
    simp [Knows, empty]
  unfold ofKeywords
  split
  next dictionary hadd =>
    rw [hadd] at hwf hmatching hlinked hlist hnodup
    refine ⟨⟨fun _ => hnodup.1 rfl, fun _ => ⟨dictionary, rfl⟩⟩, fun other hother => ?_⟩
    cases hother
    exact ⟨hwf, hlinked, hmatching, by simpa [empty] using hlist rfl⟩
  next error hadd =>
    rw [hadd] at hnodup
    simp only [reduceCtorEq, false_iff] at hnodup
    refine ⟨⟨fun hok => ?_, fun h => absurd h hnodup⟩, fun other hother => ?_⟩
    · obtain ⟨other, hother⟩ := hok
      contradiction
    · contradiction

end Dictionary

end OdeModel
