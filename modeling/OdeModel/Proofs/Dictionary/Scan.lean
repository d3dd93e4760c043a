import OdeModel.Dictionary.Scan
import OdeModel.Proofs.Dictionary.Edits

/-!
# Occurrences of keywords

After every character a scan stands at the longest ending of the text so far that
begins a keyword. The keywords that end there are those of this node and of the
nodes along the report links, so a dictionary with right links finds every
occurrence of its keywords, each once, in the order of their ends and starts.
-/

namespace OdeModel

namespace Text

@[simp] theorem width_reverse (s : Text) : width s.reverse = width s := by
  induction s with
  | nil => rfl
  | cons c s ih => simp [ih, Nat.add_comm]

theorem width_pos {s : Text} (h : s ≠ []) : 0 < width s := by
  cases s with
  | nil => contradiction
  | cons c s =>
      have := c.utf8Size_pos
      simp only [width_cons]
      omega

/-- A beginning of a text that is not all of it has fewer bytes. -/
theorem width_lt_of_prefix {s t : Text} (h : s <+: t) (hlen : s.length < t.length) :
    width s < width t := by
  obtain ⟨rest, rfl⟩ := h
  have hne : rest ≠ [] := by
    rintro rfl
    simp at hlen
  have := width_pos hne
  rw [width_append]
  omega

/-- A keyword stands in a text from byte position `start` on, character by
character as they are compared. -/
def OccursAt (matching : Matching) (keyword s : Text) (start : Nat) : Prop :=
  ∃ before found after, s = before ++ found ++ after ∧ width before = start ∧
    found.map matching.fold = keyword.map matching.fold

end Text

/-- The lower case of an ASCII letter has one byte as the letter has. -/
theorem utf8Size_toLower (c : Char) : c.toLower.utf8Size = c.utf8Size := by
  unfold Char.toLower
  split
  next h =>
    have hlarge : c.val.toNat ≤ 90 := h.2
    have hold : c.utf8Size = 1 := by
      rw [Char.utf8Size_eq_one_iff]
      exact UInt32.le_iff_toNat_le.2 (hlarge.trans (by decide))
    rw [hold, Char.utf8Size_eq_one_iff]
    apply UInt32.le_iff_toNat_le.2
    simp only [UInt32.toNat_add]
    have : ('a'.val - 'A'.val).toNat = 32 := rfl
    have : (127 : UInt32).toNat = 127 := rfl
    omega
  next => rfl

namespace Matching

@[simp] theorem utf8Size_fold (matching : Matching) (c : Char) :
    (matching.fold c).utf8Size = c.utf8Size := by
  unfold fold
  split
  · rfl
  · exact utf8Size_toLower c

@[simp] theorem width_map_fold (matching : Matching) (s : Text) :
    Text.width (s.map matching.fold) = Text.width s := by
  induction s with
  | nil => rfl
  | cons c s ih => simp [ih]

@[simp] theorem width_trail (matching : Matching) (s : Text) :
    Text.width (matching.trail s) = Text.width s := by
  simp [trail]

/-- A keyword is an ending of a text when the text ends with characters that are
compared as equal to it. -/
theorem trail_prefix_iff (matching : Matching) (keyword s : Text) :
    matching.trail keyword <+: matching.trail s ↔
      ∃ before found, s = before ++ found ∧
        found.map matching.fold = keyword.map matching.fold := by
  unfold trail
  rw [List.reverse_prefix]
  constructor
  · rintro ⟨before, h⟩
    obtain ⟨first, last, rfl, -, hlast⟩ := List.append_eq_map_iff.1 h
    exact ⟨first, last, rfl, hlast⟩
  · rintro ⟨before, found, rfl, h⟩
    exact ⟨before.map matching.fold, by rw [List.map_append, h]⟩

end Matching

namespace Dictionary

/-! ### The keywords that end at a node -/

theorem WellFormed.keyword_root {d : Dictionary} (wf : WellFormed d) :
    (nodeAt d.nodes 0).keyword = none := by
  cases h : (nodeAt d.nodes 0).keyword with
  | none => rfl
  | some id =>
      obtain ⟨keyword, hget, htrail⟩ := wf.keyword wf.tree.size_pos h
      rw [wf.tree.trail_root, eq_comm, Matching.trail_eq_nil_iff] at htrail
      exact absurd htrail (wf.nonempty id hget)

/-- The nodes that are looked at after a character: the one that is reached, and those
along the report links from there. -/
def visited (nodes : Array Node) (i : Nat) : List Nat :=
  i :: reports nodes (nodeAt nodes i).depth (nodeAt nodes i).report

theorem visited_root {nodes : Array Node} (tree : IsTree nodes) : visited nodes 0 = [0] := by
  have hdepth : (nodeAt nodes 0).depth = 0 := List.length_eq_zero_iff.2 tree.trail_root
  rw [visited, hdepth, reports]

theorem visited_of_ne {nodes : Array Node} {i : Nat} (h : i ≠ 0) :
    visited nodes i = reports nodes ((nodeAt nodes i).depth + 1) i := by
  rw [visited, reports, if_neg h]

/-- The report links lead to ever shorter endings of a node, as long as the links lead
to endings. -/
theorem reports_ending {nodes : Array Node} (tree : IsTree nodes) (sound : SoundLinks nodes)
    (fuel : Nat) {i : Nat} (hi : i < nodes.size) :
    (∀ j ∈ reports nodes fuel i, j < nodes.size ∧ trailAt nodes j <+: trailAt nodes i) ∧
    (reports nodes fuel i).Pairwise fun j k =>
      (trailAt nodes k).length < (trailAt nodes j).length := by
  induction fuel generalizing i with
  | zero => exact ⟨by simp [reports], List.Pairwise.nil⟩
  | succ fuel ih =>
      unfold reports
      split
      next => exact ⟨by simp, List.Pairwise.nil⟩
      next hnonzero =>
        have hreport := sound.report hi
        have hlt := length_lt_of_prefix_dropLast (tree.trailAt_ne_nil hi hnonzero) hreport
        obtain ⟨hinside, hpairwise⟩ := ih (sound.report_lt hi)
        refine ⟨fun j hj => ?_, List.pairwise_cons.2 ⟨fun j hj => ?_, hpairwise⟩⟩
        · rcases List.mem_cons.1 hj with rfl | hj
          · exact ⟨hi, List.prefix_rfl⟩
          · obtain ⟨hjlt, hending⟩ := hinside j hj
            exact ⟨hjlt, (hending.trans hreport).trans (List.dropLast_prefix _)⟩
        · exact (hinside j hj).2.length_le.trans_lt hlt

theorem visited_ending {nodes : Array Node} (tree : IsTree nodes) (sound : SoundLinks nodes)
    {i : Nat} (hi : i < nodes.size) :
    (∀ j ∈ visited nodes i, j < nodes.size ∧ trailAt nodes j <+: trailAt nodes i) ∧
    (visited nodes i).Pairwise fun j k =>
      (trailAt nodes k).length < (trailAt nodes j).length := by
  by_cases hzero : i = 0
  · subst hzero
    rw [visited_root tree]
    simp [tree.size_pos]
  · rw [visited_of_ne hzero]
    exact reports_ending tree sound _ hi

/-- The keywords that are endings of a node are all on the way along the report links,
when these are right. -/
theorem mem_reports {d : Dictionary} (wf : WellFormed d) (hlinked : d.Linked) {fuel i j : Nat}
    (hi : i < d.nodes.size) (hfuel : (trailAt d.nodes i).length ≤ fuel) (hj : j < d.nodes.size)
    (hsome : (nodeAt d.nodes j).keyword.isSome = true)
    (hending : trailAt d.nodes j <+: trailAt d.nodes i) : j ∈ reports d.nodes fuel i := by
  -- the root is no keyword, so a node that ends with one is not the root
  have hnonzero : i ≠ 0 := by
    rintro rfl
    rw [wf.tree.trail_root, List.prefix_nil] at hending
    rw [(wf.tree.eq_zero_iff hj).2 hending, wf.keyword_root] at hsome
    contradiction
  have hne := wf.tree.trailAt_ne_nil hi hnonzero
  induction fuel generalizing i with
  | zero => exact absurd (List.length_eq_zero_iff.1 (Nat.le_zero.1 hfuel)) hne
  | succ fuel ih =>
      rw [reports, if_neg hnonzero, List.mem_cons]
      by_cases hsame : trailAt d.nodes j = trailAt d.nodes i
      · exact Or.inl (wf.tree.injective hj hi hsame)
      · have hreport := (hlinked i hi).report
        have hlt := length_lt_of_prefix_dropLast hne hreport.ending
        have hproper := prefix_dropLast_of_ne hending hsame
        have hnext := List.prefix_of_prefix_length_le hproper hreport.ending
          (hreport.length_le j hj (Or.inr hsome) hproper)
        have hjne : trailAt d.nodes j ≠ [] := by
          intro hnil
          rw [(wf.tree.eq_zero_iff hj).2 hnil, wf.keyword_root] at hsome
          contradiction
        have hreportne : trailAt d.nodes (nodeAt d.nodes i).report ≠ [] := by
          intro hnil
          rw [hnil, List.prefix_nil] at hnext
          exact hjne hnext
        refine Or.inr (ih hreport.lt_size (by omega) hnext ?_ hreportne)
        exact fun hzero => hreportne ((wf.tree.eq_zero_iff hreport.lt_size).1 hzero)

/-- The nodes that are looked at after a character hold all keywords that are endings of
the text so far, when the links are right. -/
theorem mem_visited {d : Dictionary} (wf : WellFormed d) (hlinked : d.Linked) {trail : Text}
    {i j : Nat} (h : IsLongest d.nodes AnyNode trail i) (hj : j < d.nodes.size)
    (hsome : (nodeAt d.nodes j).keyword.isSome = true) (hending : trailAt d.nodes j <+: trail) :
    j ∈ visited d.nodes i := by
  have hbegins := List.prefix_of_prefix_length_le hending h.ending
    (h.length_le j hj trivial hending)
  have hmem := mem_reports wf hlinked h.lt_size (Nat.le_succ _) hj hsome hbegins
  by_cases hzero : i = 0
  · rw [hzero, reports, if_pos rfl] at hmem
    contradiction
  · rwa [visited_of_ne hzero]

/-- The occurrence is one of a keyword with its last character at the end of a
text. -/
structure EndsAt (d : Dictionary) (s : Text) (found : Occurrence) : Prop where
  keyword : d.keywords[found.id]? = some found.keyword
  ending : d.matching.trail found.keyword <+: d.matching.trail s
  start : found.start + Text.width found.keyword = found.stop
  stop : found.stop = Text.width s

theorem WellFormed.occurrenceAt?_eq_some_iff {d : Dictionary} (wf : WellFormed d) {s : Text}
    {j : Nat} (hj : j < d.nodes.size) (hending : trailAt d.nodes j <+: d.matching.trail s)
    (found : Occurrence) :
    d.occurrenceAt? (Text.width s) j = some found ↔
      (nodeAt d.nodes j).keyword = some found.id ∧ EndsAt d s found := by
  unfold occurrenceAt?
  simp only [Option.map_eq_some_iff]
  constructor
  · rintro ⟨id, hid, rfl⟩
    obtain ⟨keyword, hget, htrail⟩ := wf.keyword hj hid
    have hle : Text.width keyword ≤ Text.width s := by
      rw [htrail] at hending
      obtain ⟨rest, hrest⟩ := hending
      have := congrArg Text.width hrest
      simp only [Text.width_append, Matching.width_trail] at this
      omega
    have hwidth : Text.width (nodeAt d.nodes j).trail = Text.width keyword := by
      rw [show (nodeAt d.nodes j).trail = trailAt d.nodes j from rfl, htrail,
        Matching.width_trail]
    refine ⟨hid, ⟨?_, ?_, ?_, rfl⟩⟩
    · simp [hget]
    · simpa [hget, htrail] using hending
    · simp only [hget, Option.getD_some, hwidth]
      omega
  · rintro ⟨hid, hends⟩
    obtain ⟨keyword, hget, htrail⟩ := wf.keyword hj hid
    have hkeyword : keyword = found.keyword := by
      rw [hends.keyword] at hget
      exact (Option.some.inj hget).symm
    subst hkeyword
    refine ⟨found.id, hid, ?_⟩
    have hstart := hends.start
    have hstop := hends.stop
    have hwidth : Text.width (nodeAt d.nodes j).trail = Text.width found.keyword := by
      rw [show (nodeAt d.nodes j).trail = trailAt d.nodes j from rfl, htrail,
        Matching.width_trail]
    cases found
    simp only [Occurrence.mk.injEq, true_and] at *
    simp only [hget, hwidth, Option.getD_some]
    exact ⟨trivial, by omega, hstop.symm⟩

theorem found_eq {d : Dictionary} (hpart : d.matching.wholeText = false) (total stop i : Nat) :
    d.found total stop i = (visited d.nodes i).filterMap (d.occurrenceAt? stop) := by
  rw [found, hpart]
  rfl

/-- What is found after a character ends with it, the longer ones first, also where links
are old. -/
theorem found_ending {d : Dictionary} (wf : WellFormed d) (hpart : d.matching.wholeText = false)
    (total : Nat) {s : Text} {i : Nat} (hi : i < d.nodes.size)
    (hending : trailAt d.nodes i <+: d.matching.trail s) :
    (∀ found ∈ d.found total (Text.width s) i, EndsAt d s found) ∧
      (d.found total (Text.width s) i).Pairwise fun f g => f.start < g.start := by
  obtain ⟨hvisited, hsorted⟩ := visited_ending wf.tree wf.sound hi
  have hinside : ∀ j ∈ visited d.nodes i, j < d.nodes.size ∧
      trailAt d.nodes j <+: d.matching.trail s :=
    fun j hj => ⟨(hvisited j hj).1, (hvisited j hj).2.trans hending⟩
  rw [found_eq hpart]
  constructor
  · intro found hfound
    obtain ⟨j, hj, hsome⟩ := List.mem_filterMap.1 hfound
    obtain ⟨hjlt, hjending⟩ := hinside j hj
    exact ((wf.occurrenceAt?_eq_some_iff hjlt hjending found).1 hsome).2
  · have hmem := hsorted.imp_of_mem (S := fun j k =>
      (j < d.nodes.size ∧ trailAt d.nodes j <+: d.matching.trail s) ∧
      (k < d.nodes.size ∧ trailAt d.nodes k <+: d.matching.trail s) ∧
      (trailAt d.nodes k).length < (trailAt d.nodes j).length)
      fun hj hk hlt => ⟨hinside _ hj, hinside _ hk, hlt⟩
    refine List.Pairwise.filterMap _ ?_ hmem
    rintro j k ⟨⟨hj, hjending⟩, ⟨hk, hkending⟩, hlt⟩ f hf g hg
    obtain ⟨hfid, hf⟩ := (wf.occurrenceAt?_eq_some_iff hj hjending f).1 hf
    obtain ⟨hgid, hg⟩ := (wf.occurrenceAt?_eq_some_iff hk hkending g).1 hg
    have hwidth := Text.width_lt_of_prefix
      (List.prefix_of_prefix_length_le hkending hjending hlt.le) hlt
    obtain ⟨word, hget, hword⟩ := wf.keyword hj hfid
    obtain ⟨word', hget', hword'⟩ := wf.keyword hk hgid
    rw [hf.keyword] at hget
    rw [hg.keyword] at hget'
    cases hget
    cases hget'
    rw [hword, hword', Matching.width_trail, Matching.width_trail] at hwidth
    have := hf.start
    have := hg.start
    have := hf.stop
    have := hg.stop
    omega

/-- What is found after a character are the occurrences that end with it, when the links
are right. -/
theorem mem_found_iff {d : Dictionary} (wf : WellFormed d) (hlinked : d.Linked)
    (hpart : d.matching.wholeText = false) (total : Nat) {s : Text} {i : Nat}
    (h : IsLongest d.nodes AnyNode (d.matching.trail s) i) (found : Occurrence) :
    found ∈ d.found total (Text.width s) i ↔ EndsAt d s found := by
  constructor
  · exact (found_ending wf hpart total h.lt_size h.ending).1 found
  · intro hends
    obtain ⟨j, hj, hid⟩ := wf.node found.id hends.keyword
    obtain ⟨keyword, hget, htrail⟩ := wf.keyword hj hid
    rw [hends.keyword] at hget
    cases hget
    have hending : trailAt d.nodes j <+: d.matching.trail s := htrail ▸ hends.ending
    rw [found_eq hpart, List.mem_filterMap]
    exact ⟨j, mem_visited wf hlinked h hj (by simp [hid]) hending,
      (wf.occurrenceAt?_eq_some_iff hj hending found).2 ⟨hid, hends⟩⟩

/-- An occurrence comes before another: it ends earlier, or they end together and
it starts earlier. -/
def Occurrence.Before (f g : Occurrence) : Prop :=
  f.stop < g.stop ∨ f.stop = g.stop ∧ f.start < g.start

instance : Std.Antisymm Occurrence.Before where
  antisymm f g hfg hgf := by
    unfold Occurrence.Before at hfg hgf
    omega

instance : Std.Irrefl Occurrence.Before where
  irrefl f h := by
    unfold Occurrence.Before at h
    omega

/-- A scan that goes on after a text finds what ends in the rest, in the order of ends
and starts, also where links are old. -/
theorem scanFrom_ending {d : Dictionary} (wf : WellFormed d)
    (hpart : d.matching.wholeText = false) (total : Nat) (rest before : Text) {index : Nat}
    (hindex : index < d.nodes.size)
    (hending : trailAt d.nodes index <+: d.matching.trail before) :
    (∀ found ∈ d.scanFrom total index (Text.width before) rest,
      ∃ read after, rest = read ++ after ∧ read ≠ [] ∧ EndsAt d (before ++ read) found) ∧
    (d.scanFrom total index (Text.width before) rest).Pairwise Occurrence.Before := by
  induction rest generalizing before index with
  | nil => exact ⟨by simp [scanFrom], List.Pairwise.nil⟩
  | cons c rest ih =>
      -- the state stays an ending of the text read so far
      obtain ⟨hnext, hstate⟩ := advance_ending wf.tree wf.sound (d.matching.fold c)
        ((nodeAt d.nodes index).depth + 1) hindex
      have hstate := hstate.trans (List.cons_prefix_cons.2 ⟨rfl, hending⟩)
      rw [← Matching.trail_concat] at hstate
      have hwidth : Text.width before + c.utf8Size = Text.width (before ++ [c]) := by simp
      obtain ⟨hhere, hsorted⟩ := found_ending wf hpart total hnext hstate
      obtain ⟨hlater, hsorted'⟩ := ih _ hnext hstate
      simp only [scanFrom, hwidth]
      constructor
      · intro found hfound
        rcases List.mem_append.1 hfound with hfound | hfound
        · exact ⟨[c], rest, rfl, by simp, hhere found hfound⟩
        · obtain ⟨read, after, rfl, -, hends⟩ := hlater found hfound
          exact ⟨c :: read, after, rfl, by simp, by simpa using hends⟩
      · rw [List.pairwise_append]
        refine ⟨hsorted.imp_of_mem fun hf hg hlt => Or.inr ⟨?_, hlt⟩, hsorted', ?_⟩
        · exact (hhere _ hf).stop.trans (hhere _ hg).stop.symm
        · intro f hf g hg
          obtain ⟨read, after, -, hne, hends⟩ := hlater g hg
          have hpos := Text.width_pos hne
          refine Or.inl ?_
          rw [(hhere f hf).stop, hends.stop]
          simp only [Text.width_append]
          omega

/-- A scan that goes on after a text finds all that ends in the rest, when the links are
right. -/
theorem mem_scanFrom {d : Dictionary} (wf : WellFormed d) (hlinked : d.Linked)
    (hpart : d.matching.wholeText = false) (total : Nat) (read after before : Text)
    {index : Nat} (h : IsLongest d.nodes AnyNode (d.matching.trail before) index)
    (hread : read ≠ []) {found : Occurrence} (hends : EndsAt d (before ++ read) found) :
    found ∈ d.scanFrom total index (Text.width before) (read ++ after) := by
  induction read generalizing before index with
  | nil => exact absurd rfl hread
  | cons c read ih =>
      -- the state is the longest ending of the text read so far
      have hnext : IsLongest d.nodes AnyNode (d.matching.trail (before ++ [c]))
          (d.step index (d.matching.fold c)) := by
        rw [Matching.trail_concat]
        exact h.cons wf.tree (isLongest_advance wf.tree _ h.lt_size (Nat.lt_succ_self _)
          fun i hi _ => (hlinked i hi).shorter)
      have hwidth : Text.width before + c.utf8Size = Text.width (before ++ [c]) := by simp
      simp only [List.cons_append, scanFrom, hwidth, List.mem_append]
      by_cases hempty : read = []
      · exact Or.inl ((mem_found_iff wf hlinked hpart total hnext found).2 (hempty ▸ hends))
      · exact Or.inr (ih _ hnext hempty (by simpa using hends))

/-- The occurrences that a scan finds are those that end somewhere in the text. -/
theorem scan_spec {d : Dictionary} (wf : WellFormed d) (hlinked : d.Linked)
    (hpart : d.matching.wholeText = false) (s : Text) :
    (∀ found, found ∈ d.scan s ↔ d.keywords[found.id]? = some found.keyword ∧
      Text.OccursAt d.matching found.keyword s found.start ∧
      found.stop = found.start + Text.width found.keyword) ∧
    (d.scan s).Pairwise Occurrence.Before := by
  obtain ⟨hmem, hsorted⟩ := scanFrom_ending wf hpart s.length s [] wf.tree.size_pos
    (wf.tree.trail_root ▸ List.nil_prefix)
  refine ⟨fun found => ?_, hsorted⟩
  rw [show d.scan s = d.scanFrom s.length 0 (Text.width []) s from rfl]
  constructor
  · intro hfound
    obtain ⟨read, after, rfl, -, hends⟩ := hmem found hfound
    obtain ⟨before, part, rfl, hpart⟩ := (Matching.trail_prefix_iff _ _ _).1 hends.ending
    refine ⟨hends.keyword, ⟨before, part, after, rfl, ?_, hpart⟩, hends.start.symm⟩
    have hwidth : Text.width part = Text.width found.keyword := by
      rw [← d.matching.width_map_fold part, hpart, d.matching.width_map_fold]
    have hstart := hends.start
    rw [hends.stop, List.nil_append, Text.width_append, hwidth] at hstart
    omega
  · rintro ⟨hkeyword, ⟨before, part, after, rfl, hbefore, hsame⟩, hstop⟩
    have hwidth : Text.width part = Text.width found.keyword := by
      rw [← d.matching.width_map_fold part, hsame, d.matching.width_map_fold]
    refine mem_scanFrom wf hlinked hpart _ (before ++ part) after []
      (IsLongest.root wf.tree trivial) ?_ ⟨hkeyword, ?_, hstop.symm, ?_⟩
    · rintro hnil
      obtain ⟨-, rfl⟩ := List.append_eq_nil_iff.1 hnil
      rw [List.map_nil, eq_comm, List.map_eq_nil_iff] at hsame
      exact wf.nonempty found.id hkeyword hsame
    · exact (Matching.trail_prefix_iff _ _ _).2 ⟨before, part, rfl, hsame⟩
    · rw [hstop, List.nil_append, Text.width_append, hwidth, hbefore]

/-- A scan for parts of the text is exact: after any changes to the dictionary that
leave its links up to date, it finds just the occurrences of the keywords, each
once, ordered by their ends and then by their starts. -/
theorem scan_exact (matching : Matching) (edits : List Edit)
    (hpart : matching.wholeText = false)
    (hlinked : (Edited.after matching edits).linked = true) (s : Text) :
    (∀ found, found ∈ (Edited.after matching edits).dictionary.scan s ↔
      (Edited.after matching edits).dictionary.keywords[found.id]? = some found.keyword ∧
      Text.OccursAt matching found.keyword s found.start ∧
      found.stop = found.start + Text.width found.keyword) ∧
    (((Edited.after matching edits).dictionary.scan s).map fun found =>
      (found.id, found.start)).Nodup ∧
    ((Edited.after matching edits).dictionary.scan s).Pairwise Occurrence.Before := by
  obtain ⟨hwf, hmatching, hlinks⟩ := Edited.after_spec matching edits
  obtain ⟨hmem, hsorted⟩ := scan_spec hwf (hlinks hlinked) (by rw [hmatching]; exact hpart) s
  rw [hmatching] at hmem
  refine ⟨hmem, ?_, hsorted⟩
  rw [List.Nodup, List.pairwise_map]
  refine hsorted.imp_of_mem fun {f g} hf hg hbefore heq => ?_
  obtain ⟨hid, hstart⟩ := Prod.mk.inj heq
  obtain ⟨hfkeyword, -, hfstop⟩ := (hmem f).1 hf
  obtain ⟨hgkeyword, -, hgstop⟩ := (hmem g).1 hg
  rw [hid, hgkeyword] at hfkeyword
  have hwidth := congrArg Text.width (Option.some.inj hfkeyword)
  rcases hbefore with hlt | ⟨-, hlt⟩ <;> omega

/-- A keyword inside of a longer one is found after it was linked first, with the
letters of the text in either case. -/
theorem scan_exact_inside_longer :
    (Edited.after ⟨false, false⟩
      [.insert "bc".toList, .add "ABCD".toList, .insert "c".toList]).linked = true ∧
    ⟨0, "bc".toList, 3, 5⟩ ∈ (Edited.after ⟨false, false⟩
      [.insert "bc".toList, .add "ABCD".toList, .insert "c".toList]).dictionary.scan
        "µaBcd".toList := by
  have hlinked : (Edited.after ⟨false, false⟩
      [.insert "bc".toList, .add "ABCD".toList, .insert "c".toList]).linked = true := by
    decide
  refine ⟨hlinked, ((scan_exact ⟨false, false⟩ _ rfl hlinked "µaBcd".toList).1 _).2 ⟨?_, ?_, ?_⟩⟩
  · decide
  · exact ⟨"µa".toList, "Bc".toList, "d".toList, by decide, by decide, by decide⟩
  · decide

end Dictionary

end OdeModel
