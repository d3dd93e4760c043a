import OdeModel.Proofs.Dictionary.WholeText
import Mathlib.Data.List.Sort

/-!
# Scans with old links

Links are old when keywords have been added and no links computed since: new nodes have
both at the root, and nodes that end a keyword only now are passed by. Such links still
lead to proper endings, which are shorter. So every walk along them comes to its end, and
what a scan finds on the way is found with new links too; it may only find less.
-/

namespace OdeModel

namespace Dictionary

/-! ### Walks without a bound -/

/-- Following the `shorter` links from a node to one that can go on with `c`, for as long
as it takes, ends at the given node. -/
inductive Advances (nodes : Array Node) (c : Char) : (index next : Nat) → Prop
  | child {index next : Nat} (hindex : index < nodes.size)
      (hnext : child? nodes index c = some next) : Advances nodes c index next
  | root (hindex : 0 < nodes.size) (hnone : child? nodes 0 c = none) : Advances nodes c 0 0
  | shorter {index next : Nat} (hindex : index < nodes.size) (hnonzero : index ≠ 0)
      (hnone : child? nodes index c = none)
      (hlater : Advances nodes c (nodeAt nodes index).shorter next) : Advances nodes c index next

/-- Following the `report` links from a node, for as long as it takes, comes to the root
and passes the given nodes before. -/
inductive Passes (nodes : Array Node) : (index : Nat) → List Nat → Prop
  | root : Passes nodes 0 []
  | report {index : Nat} {later : List Nat} (hindex : index < nodes.size)
      (hnonzero : index ≠ 0) (hlater : Passes nodes (nodeAt nodes index).report later) :
      Passes nodes index (index :: later)

/-- Reading a text on from a node, with each walk as long as it takes, ends with the given
occurrences. Where only the whole text counts, no report links are followed. -/
inductive Reads (d : Dictionary) (total : Nat) : (index offset : Nat) → Text →
    List Occurrence → Prop
  | done (index offset : Nat) : Reads d total index offset [] []
  | whole {index offset next : Nat} {c : Char} {rest : Text} {later : List Occurrence}
      (hwhole : d.matching.wholeText = true)
      (hnext : Advances d.nodes (d.matching.fold c) index next)
      (hlater : Reads d total next (offset + c.utf8Size) rest later) :
      Reads d total index offset (c :: rest)
        ((if (nodeAt d.nodes next).depth = total then
          (d.occurrenceAt? (offset + c.utf8Size) next).toList else []) ++ later)
  | part {index offset next : Nat} {c : Char} {rest : Text} {passed : List Nat}
      {later : List Occurrence} (hpart : d.matching.wholeText = false)
      (hnext : Advances d.nodes (d.matching.fold c) index next)
      (hpassed : Passes d.nodes (nodeAt d.nodes next).report passed)
      (hlater : Reads d total next (offset + c.utf8Size) rest later) :
      Reads d total index offset (c :: rest)
        ((next :: passed).filterMap (d.occurrenceAt? (offset + c.utf8Size)) ++ later)

section

variable {nodes : Array Node}

/-- At each node there is one way to go on. -/
theorem Advances.unique {c : Char} {index next next' : Nat} (h : Advances nodes c index next)
    (h' : Advances nodes c index next') : next = next' := by
  induction h with
  | child hindex hnext =>
      cases h' with
      | child hindex' hnext' => exact Option.some.inj (hnext.symm.trans hnext')
      | root hindex' hnone => exact absurd (hnext.symm.trans hnone) (by simp)
      | shorter hindex' hnonzero hnone hlater => exact absurd (hnext.symm.trans hnone) (by simp)
  | root hindex hnone =>
      cases h' with
      | child hindex' hnext' => exact absurd (hnext'.symm.trans hnone) (by simp)
      | root hindex' hnone' => rfl
      | shorter hindex' hnonzero hnone' hlater => exact absurd rfl hnonzero
  | shorter hindex hnonzero hnone hlater ih =>
      cases h' with
      | child hindex' hnext' => exact absurd (hnext'.symm.trans hnone) (by simp)
      | root hindex' hnone' => exact absurd rfl hnonzero
      | shorter hindex' hnonzero' hnone' hlater' => exact ih hlater'

theorem Passes.unique {index : Nat} {passed passed' : List Nat} (h : Passes nodes index passed)
    (h' : Passes nodes index passed') : passed = passed' := by
  induction h generalizing passed' with
  | root =>
      cases h' with
      | root => rfl
      | report hindex hnonzero hlater => exact absurd rfl hnonzero
  | report hindex hnonzero hlater ih =>
      cases h' with
      | root => exact absurd rfl hnonzero
      | report hindex' hnonzero' hlater' => rw [ih hlater']

/-- The walk to a node that can go on ends, since each link leads to a shorter one. -/
theorem advances_advance (tree : IsTree nodes) (sound : SoundLinks nodes) (c : Char)
    {fuel index : Nat} (hindex : index < nodes.size)
    (hfuel : (trailAt nodes index).length < fuel) :
    Advances nodes c index (advance nodes c fuel index) := by
  induction fuel generalizing index with
  | zero => exact absurd hfuel (Nat.not_lt_zero _)
  | succ fuel ih =>
      unfold advance
      split
      next next hnext => exact .child hindex hnext
      next hnone =>
        split
        next hzero =>
          subst hzero
          exact .root hindex hnone
        next hnonzero =>
          have hlt := length_lt_of_prefix_dropLast (tree.trailAt_ne_nil hindex hnonzero)
            (sound.shorter hindex)
          exact .shorter hindex hnonzero hnone (ih (sound.shorter_lt hindex) (by omega))

/-- The walk along the report links ends, since each of them leads to a shorter node. -/
theorem passes_reports (tree : IsTree nodes) (sound : SoundLinks nodes) {fuel index : Nat}
    (hindex : index < nodes.size) (hfuel : (trailAt nodes index).length ≤ fuel) :
    Passes nodes index (reports nodes fuel index) := by
  induction fuel generalizing index with
  | zero =>
      have hnil := List.length_eq_zero_iff.1 (Nat.le_zero.1 hfuel)
      rw [(tree.eq_zero_iff hindex).2 hnil]
      exact .root
  | succ fuel ih =>
      unfold reports
      split
      next hzero =>
        subst hzero
        exact .root
      next hnonzero =>
        have hlt := length_lt_of_prefix_dropLast (tree.trailAt_ne_nil hindex hnonzero)
          (sound.report hindex)
        exact .report hindex hnonzero (ih (sound.report_lt hindex) (by omega))

end

variable {d : Dictionary}

/-- A text can be read in one way only. -/
theorem Reads.unique {total index offset : Nat} {s : Text} {all all' : List Occurrence}
    (h : Reads d total index offset s all) (h' : Reads d total index offset s all') :
    all = all' := by
  induction h generalizing all' with
  | done index offset =>
      cases h'
      rfl
  | whole hwhole hnext hlater ih =>
      cases h' with
      | whole hwhole' hnext' hlater' =>
          obtain rfl := hnext.unique hnext'
          rw [ih hlater']
      | part hpart hnext' hpassed hlater' => exact absurd (hwhole.symm.trans hpart) (by simp)
  | part hpart hnext hpassed hlater ih =>
      cases h' with
      | whole hwhole hnext' hlater' => exact absurd (hwhole.symm.trans hpart) (by simp)
      | part hpart' hnext' hpassed' hlater' =>
          obtain rfl := hnext.unique hnext'
          rw [hpassed.unique hpassed', ih hlater']

/-- Reading a text ends, and what it finds is what the bounded walks find. -/
theorem reads_scanFrom (wf : WellFormed d) (total : Nat) (rest : Text) {index : Nat}
    (offset : Nat) (hindex : index < d.nodes.size) :
    Reads d total index offset rest (d.scanFrom total index offset rest) := by
  induction rest generalizing index offset with
  | nil => exact .done index offset
  | cons c rest ih =>
      have hnext : Advances d.nodes (d.matching.fold c) index (d.step index (d.matching.fold c)) :=
        advances_advance wf.tree wf.sound _ hindex (Nat.lt_succ_self _)
      have hlt : d.step index (d.matching.fold c) < d.nodes.size :=
        (advance_ending wf.tree wf.sound _ _ hindex).1
      have hlater := ih (offset + c.utf8Size) hlt
      simp only [scanFrom]
      cases hmode : d.matching.wholeText with
      | true =>
          rw [found, if_pos hmode]
          exact .whole hmode hnext hlater
      | false =>
          rw [found_eq hmode, visited]
          have hlink := (wf.sound.report hlt).length_le
          refine .part hmode hnext ?_ hlater
          refine passes_reports wf.tree wf.sound (wf.sound.report_lt hlt) (hlink.trans ?_)
          rw [List.length_dropLast]
          exact Nat.sub_le _ _

/-! ### What is found -/

/-- What a scan finds is in the order of ends and starts. -/
theorem sorted_scan (wf : WellFormed d) (s : Text) : (d.scan s).Pairwise Occurrence.Before := by
  cases hmode : d.matching.wholeText with
  | true =>
      -- a list of at most one element
      have hone := length_scan_wholeText_le wf hmode s
      generalize d.scan s = all at hone
      match all with
      | [] => exact List.Pairwise.nil
      | [found] => exact List.pairwise_singleton _ found
  | false =>
      exact (scanFrom_ending wf hmode s.length s [] wf.tree.size_pos
        (wf.tree.trail_root ▸ List.nil_prefix)).2

/-- What a scan finds is found after computing the links, too. -/
theorem scan_subset_relink (wf : WellFormed d) (s : Text) : d.scan s ⊆ d.relink.scan s := by
  intro found hfound
  cases hmode : d.matching.wholeText with
  | true =>
      exact (mem_scan_wholeText_iff wf.relink hmode s found).2
        ((mem_scan_wholeText_iff wf hmode s found).1 hfound)
  | false =>
      obtain ⟨read, after, rfl, hread, hends⟩ :=
        (scanFrom_ending wf hmode s.length s [] wf.tree.size_pos
          (wf.tree.trail_root ▸ List.nil_prefix)).1 found hfound
      exact mem_scanFrom wf.relink wf.relink_spec.2.2 hmode _ read after []
        (IsLongest.root wf.relink.tree trivial) hread
        ⟨hends.keyword, hends.ending, hends.start, hends.stop⟩

/-- After any changes, with links computed or not, a scan comes to its end, and what it
finds is part of what it finds once the links are computed, in the same order, and nothing
is found twice. -/
theorem scan_sublist_relink (matching : Matching) (edits : List Edit) (s : Text) :
    let d := (Edited.after matching edits).dictionary
    (∀ all, Reads d s.length 0 0 s all ↔ all = d.scan s) ∧
      (d.scan s).Sublist (d.relink.scan s) ∧ (d.scan s).Nodup ∧ (d.relink.scan s).Nodup := by
  intro d
  have wf : WellFormed d := (Edited.after_spec matching edits).1
  have hreads : Reads d s.length 0 0 s (d.scan s) :=
    reads_scanFrom wf s.length s 0 wf.tree.size_pos
  have hsorted := sorted_scan wf s
  have hsorted' := sorted_scan wf.relink s
  refine ⟨fun all => ⟨fun h => h.unique hreads, fun h => h ▸ hreads⟩, ?_, hsorted.nodup,
    hsorted'.nodup⟩
  exact List.sublist_of_subperm_of_pairwise
    (List.subperm_of_subset hsorted.nodup (scan_subset_relink wf s)) hsorted hsorted'

/-- A keyword that was added without links is found at the start of a text, but not inside
of the beginning of another one, whose link still leads to the root. -/
example :
    let d := (Edited.after { } [.insert "abx".toList, .add "bc".toList]).dictionary
    (d.scan "bcabc".toList).map Occurrence.start = [0] ∧
      (d.relink.scan "bcabc".toList).map Occurrence.start = [0, 3] := by
  decide

end Dictionary

end OdeModel
