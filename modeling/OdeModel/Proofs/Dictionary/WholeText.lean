import OdeModel.Proofs.Dictionary.Keywords
import OdeModel.Proofs.Dictionary.Scan

/-!
# Looking up whole texts

Where only the whole text counts, a scan is a look-up. It needs no links: a node as
deep as the text is long has been reached by children alone, and it stands for the
text.
-/

namespace OdeModel

/-- Two texts are the same, up to the case of ASCII letters where it does not matter. -/
def Text.SameAs (caseSensitive : Bool) (s t : Text) : Prop :=
  if caseSensitive then s = t else s.map Char.toLower = t.map Char.toLower

instance (caseSensitive : Bool) (s t : Text) : Decidable (Text.SameAs caseSensitive s t) :=
  inferInstanceAs (Decidable (if caseSensitive then _ else _))

/-- Texts lead to the same node when they are the same. -/
theorem Matching.trail_eq_iff {matching : Matching} {s t : Text} :
    matching.trail s = matching.trail t ↔ Text.SameAs matching.caseSensitive s t := by
  have hfold : ∀ s : Text, s.map matching.fold =
      if matching.caseSensitive then s else s.map Char.toLower := by
    intro s
    unfold Matching.fold
    split
    · exact List.map_id s
    · rfl
  rw [Matching.trail, Matching.trail, List.reverse_inj, hfold, hfold, Text.SameAs]
  split <;> rfl

theorem Matching.width_eq_of_trail_eq {matching : Matching} {s t : Text}
    (h : matching.trail s = matching.trail t) : Text.width s = Text.width t := by
  rw [← matching.width_trail s, h, matching.width_trail]

namespace Dictionary

variable {d : Dictionary}

/-- A state of a scan after some text: an ending of it, and the text itself if there is
a node for that. -/
structure Follows (d : Dictionary) (s : Text) (i : Nat) : Prop where
  lt_size : i < d.nodes.size
  ending : trailAt d.nodes i <+: d.matching.trail s
  exact : ∀ j, j < d.nodes.size → trailAt d.nodes j = d.matching.trail s → i = j

theorem Follows.root (wf : WellFormed d) : d.Follows [] 0 where
  lt_size := wf.tree.size_pos
  ending := wf.tree.trail_root ▸ List.nil_prefix
  exact _ hj htrail := ((wf.tree.eq_zero_iff hj).2 htrail).symm

theorem Follows.step (wf : WellFormed d) {s : Text} {i : Nat} (h : d.Follows s i) (c : Char) :
    d.Follows (s ++ [c]) (d.step i (d.matching.fold c)) := by
  obtain ⟨hlt, hending⟩ := advance_ending wf.tree wf.sound (d.matching.fold c)
    ((nodeAt d.nodes i).depth + 1) h.lt_size
  refine ⟨hlt, ?_, fun j hj htrail => ?_⟩
  · rw [Matching.trail_concat]
    exact hending.trans (List.cons_prefix_cons.2 ⟨rfl, h.ending⟩)
  · -- the node one character shorter has been reached, and this one is its child
    rw [Matching.trail_concat] at htrail
    obtain ⟨k, hk, hktrail⟩ := wf.tree.exists_suffix hj
      (htrail ▸ List.suffix_cons (d.matching.fold c) (d.matching.trail s))
    obtain rfl := h.exact k hk hktrail
    have hchild : child? d.nodes i (d.matching.fold c) = some j :=
      (wf.tree.child?_eq_some_iff hk _ j).2 ⟨hj, htrail.trans (by rw [hktrail])⟩
    rw [Dictionary.step, advance, hchild]

/-- What is found where the whole text has been read: the keyword of the state, if
the state stands for the text. -/
theorem scanFrom_eq (wf : WellFormed d) (hwhole : d.matching.wholeText = true)
    (before rest : Text) {i : Nat} (h : d.Follows before i) (hrest : rest ≠ []) :
    ∃ j, d.Follows (before ++ rest) j ∧
      d.scanFrom (before ++ rest).length i (Text.width before) rest =
        d.found (before ++ rest).length (Text.width (before ++ rest)) j := by
  induction rest generalizing before i with
  | nil => exact absurd rfl hrest
  | cons c rest ih =>
      have hnext := h.step wf c
      have hwidth : Text.width before + c.utf8Size = Text.width (before ++ [c]) := by simp
      rw [scanFrom, hwidth]
      by_cases hend : rest = []
      · subst hend
        exact ⟨_, hnext, by rw [scanFrom, List.append_nil]⟩
      · have hsplit : before ++ c :: rest = before ++ [c] ++ rest := by simp
        rw [hsplit]
        obtain ⟨j, hj, hscan⟩ := ih (before ++ [c]) hnext hend
        refine ⟨j, hj, ?_⟩
        -- nothing is found before the end, since no state is as deep as the text is long
        have hshort : (nodeAt d.nodes (d.step i (d.matching.fold c))).depth ≠
            (before ++ [c] ++ rest).length := by
          have hle := hnext.ending.length_le
          have hpos := List.length_pos_iff.2 hend
          rw [Matching.trail, List.length_reverse, List.length_map] at hle
          rw [Node.depth, List.length_append]
          unfold trailAt at hle
          omega
        rw [found, if_pos hwhole, if_neg hshort, List.nil_append, hscan]

/-- A look-up finds the keyword that is compared like the text. -/
theorem mem_scan_wholeText_iff (wf : WellFormed d) (hwhole : d.matching.wholeText = true)
    (s : Text) (found : Occurrence) :
    found ∈ d.scan s ↔ d.keywords[found.id]? = some found.keyword ∧
      d.matching.trail found.keyword = d.matching.trail s ∧ found.start = 0 ∧
        found.stop = Text.width s := by
  by_cases hne : s = []
  · subst hne
    constructor
    · intro hmem
      exact absurd hmem List.not_mem_nil
    · rintro ⟨hkeyword, htrail, -⟩
      exact absurd ((Matching.trail_eq_nil_iff _ _).1 htrail) (wf.nonempty found.id hkeyword)
  · obtain ⟨j, hj, hscan⟩ := scanFrom_eq wf hwhole [] s (Follows.root wf) hne
    rw [List.nil_append] at hj hscan
    rw [show d.scan s = d.scanFrom s.length 0 (Text.width []) s from rfl, hscan, Dictionary.found,
      if_pos hwhole]
    have hlength : (d.matching.trail s).length = s.length := by simp [Matching.trail]
    constructor
    · intro hmem
      split at hmem
      next hdepth =>
        have htrail : trailAt d.nodes j = d.matching.trail s :=
          hj.ending.eq_of_length (by rw [hlength, ← hdepth]; rfl)
        obtain ⟨hid, hends⟩ := (wf.occurrenceAt?_eq_some_iff hj.lt_size hj.ending found).1
          (Option.mem_toList.1 hmem)
        obtain ⟨keyword, hget, hkeyword⟩ := wf.keyword hj.lt_size hid
        rw [hends.keyword] at hget
        cases hget
        have hsame : d.matching.trail found.keyword = d.matching.trail s := hkeyword ▸ htrail
        have hwidth := Matching.width_eq_of_trail_eq hsame
        have hstart := hends.start
        have hstop := hends.stop
        exact ⟨hends.keyword, hsame, by omega, hstop⟩
      next => contradiction
    · rintro ⟨hkeyword, hsame, hstart, hstop⟩
      obtain ⟨i, hi, hid⟩ := wf.node found.id hkeyword
      obtain ⟨keyword, hget, htrail⟩ := wf.keyword hi hid
      rw [hkeyword] at hget
      cases hget
      rw [hsame] at htrail
      obtain rfl := hj.exact i hi htrail
      have hdepth : (nodeAt d.nodes j).depth = s.length := by
        rw [← hlength, ← htrail]
        rfl
      have hwidth := Matching.width_eq_of_trail_eq hsame
      rw [if_pos hdepth, Option.mem_toList,
        wf.occurrenceAt?_eq_some_iff hi hj.ending]
      exact ⟨hid, hkeyword, hsame ▸ List.prefix_rfl, by omega, hstop⟩

/-- Where only the whole text counts, a dictionary contains the keywords it knows. -/
theorem containsMatch_iff_knows (wf : WellFormed d) (hwhole : d.matching.wholeText = true)
    (s : Text) : d.containsMatch s = true ↔ d.Knows s := by
  rw [containsMatch, Bool.not_eq_true', List.isEmpty_eq_false_iff_exists_mem]
  simp only [mem_scan_wholeText_iff wf hwhole]
  constructor
  · rintro ⟨found, hkeyword, hsame, -⟩
    exact ⟨found.keyword, Array.mem_toList_iff.2 (Array.mem_of_getElem? hkeyword), hsame⟩
  · rintro ⟨known, hmem, hsame⟩
    obtain ⟨id, hid⟩ := List.mem_iff_getElem?.1 hmem
    rw [Array.getElem?_toList] at hid
    exact ⟨⟨id, known, 0, Text.width s⟩, hid, hsame, rfl, rfl⟩

/-- What is found where only the whole text counts is at most one keyword. -/
theorem length_scan_wholeText_le (wf : WellFormed d) (hwhole : d.matching.wholeText = true)
    (s : Text) : (d.scan s).length ≤ 1 := by
  by_cases hne : s = []
  · subst hne
    exact Nat.zero_le 1
  · obtain ⟨j, -, hscan⟩ := scanFrom_eq wf hwhole [] s (Follows.root wf) hne
    rw [List.nil_append] at hscan
    rw [show d.scan s = d.scanFrom s.length 0 (Text.width []) s from rfl, hscan, Dictionary.found,
      if_pos hwhole]
    split
    next =>
      cases d.occurrenceAt? (Text.width s) j with
      | none => exact Nat.zero_le 1
      | some found => exact Nat.le_refl 1
    next => exact Nat.zero_le 1

/-- Where only the whole text counts, a scan answers with the one keyword that is the text,
whatever was done to the dictionary before and however old its links are. -/
theorem scan_wholeText_exact (caseSensitive : Bool) (edits : List Edit) (s : Text) :
    let d := (Edited.after ⟨caseSensitive, true⟩ edits).dictionary
    (∀ id keyword, d.keywords[id]? = some keyword → Text.SameAs caseSensitive keyword s →
      d.scan s = [⟨id, keyword, 0, Text.width s⟩]) ∧
    ((∀ keyword ∈ d.keywords, ¬ Text.SameAs caseSensitive keyword s) → d.scan s = []) ∧
    ∀ (id id' : Nat) (keyword keyword' : Text), d.keywords[id]? = some keyword →
      d.keywords[id']? = some keyword' → Text.SameAs caseSensitive keyword s →
        Text.SameAs caseSensitive keyword' s → id = id' := by
  intro d
  obtain ⟨hwf, hmatching, -⟩ := Edited.after_spec ⟨caseSensitive, true⟩ edits
  change WellFormed d at hwf
  change d.matching = _ at hmatching
  have hwhole : d.matching.wholeText = true := by rw [hmatching]
  have hsame : ∀ keyword : Text, d.matching.trail keyword = d.matching.trail s ↔
      Text.SameAs caseSensitive keyword s := by
    intro keyword
    rw [Matching.trail_eq_iff, hmatching]
  have hmem := mem_scan_wholeText_iff hwf hwhole s
  refine ⟨fun id keyword hkeyword hs => ?_, fun hnone => ?_, ?_⟩
  · have hfound : (⟨id, keyword, 0, Text.width s⟩ : Occurrence) ∈ d.scan s :=
      (hmem _).2 ⟨hkeyword, (hsame keyword).2 hs, rfl, rfl⟩
    obtain ⟨found, hscan⟩ := List.length_eq_one_iff.1
      (Nat.le_antisymm (length_scan_wholeText_le hwf hwhole s) (List.length_pos_of_mem hfound))
    rw [hscan, List.mem_singleton] at hfound
    rw [hscan, hfound]
  · refine List.eq_nil_iff_forall_not_mem.2 fun found hfound => ?_
    obtain ⟨hkeyword, htrail, -⟩ := (hmem found).1 hfound
    exact hnone _ (Array.mem_of_getElem? hkeyword) ((hsame _).1 htrail)
  · intro id id' keyword keyword' hkeyword hkeyword' hs hs'
    exact hwf.id_unique hkeyword hkeyword' (((hsame _).2 hs).trans ((hsame _).2 hs').symm)

/-- A keyword whose links were never computed, since the one added after it was refused, is
found in either case of its letters, although one keyword stands in it and another one ends it. -/
theorem scan_wholeText_exact_stale :
    (Edited.after ⟨false, true⟩
      [.insert "sin".toList, .addAll ["Asinh".toList, "SIN".toList, "x".toList],
        .add "nh".toList]).dictionary.keywords[1]? = some "Asinh".toList ∧
    Text.SameAs false "Asinh".toList "aSINh".toList ∧
    (Edited.after ⟨false, true⟩
      [.insert "sin".toList, .addAll ["Asinh".toList, "SIN".toList, "x".toList],
        .add "nh".toList]).dictionary.scan "aSINh".toList = [⟨1, "Asinh".toList, 0, 5⟩] := by
  have hkeyword : (Edited.after ⟨false, true⟩
      [.insert "sin".toList, .addAll ["Asinh".toList, "SIN".toList, "x".toList],
        .add "nh".toList]).dictionary.keywords[1]? = some "Asinh".toList := by
    decide +kernel
  have hsame : Text.SameAs false "Asinh".toList "aSINh".toList := by decide
  exact ⟨hkeyword, hsame, (scan_wholeText_exact false _ "aSINh".toList).1 1 _ hkeyword hsame⟩

end Dictionary

end OdeModel
