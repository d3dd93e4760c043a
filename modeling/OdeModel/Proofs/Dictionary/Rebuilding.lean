import OdeModel.Dictionary.Scan
import OdeModel.Proofs.Dictionary.Keywords
import OdeModel.Proofs.Steps
import Mathlib.Logic.Function.Iterate

/-!
# Rebuilding a dictionary

Adding a keyword looks at the tree alone and never at the links. So the tree of a
dictionary tells nothing about the changes behind it but the keywords and their
order, and since the tree fixes the links once they are all right, computing them
anew after any changes gives what the same keywords give in an empty dictionary.
-/

namespace OdeModel

namespace Dictionary

/-! ### Links that are fixed by the tree -/

theorem Relinks.symm {old new : Array Node} (h : Relinks old new) : Relinks new old where
  size_eq := h.size_eq.symm
  trail := fun i => (h.trail i).symm
  parent := fun i => (h.parent i).symm
  children := fun i => (h.children i).symm
  keyword := fun i => (h.keyword i).symm

/-- Two node lists with the same tree are the same when all their links are right. -/
theorem Relinks.eq {old new : Array Node} (h : Relinks old new) (tree : IsTree old)
    (hold : ∀ i, i < old.size → HasLinks old i) (hnew : ∀ i, i < new.size → HasLinks new i) :
    new = old := by
  have hnode : ∀ i, i < old.size → nodeAt new i = nodeAt old i := by
    intro i hi
    have hlinks := hnew i (h.size_eq ▸ hi)
    have htrail := h.trail i
    have hshorter := h.symm.isLongest (fun _ => Iff.rfl) hlinks.shorter
    have hreport := h.symm.isLongest h.symm.reported_iff hlinks.report
    rw [htrail] at hshorter hreport
    have hsame := hshorter.unique tree (hold i hi).shorter
    have hsame' := hreport.unique tree (hold i hi).report
    have hparent := h.parent i
    have hchildren := h.children i
    have hkeyword := h.keyword i
    unfold trailAt at htrail
    generalize nodeAt new i = node at *
    generalize nodeAt old i = node' at *
    cases node
    cases node'
    simp_all
  apply Array.ext h.size_eq
  intro i hi hi'
  simpa [nodeAt, hi, hi'] using hnode i hi'

/-- The node that `count + 1` links to the longest proper ending lead to. -/
def chainAt (nodes : Array Node) (index count : Nat) : Nat :=
  (fun i => (nodeAt nodes i).shorter)^[count + 1] index

theorem chainAt_succ (nodes : Array Node) (index count : Nat) :
    chainAt nodes index (count + 1) = chainAt nodes (nodeAt nodes index).shorter count := rfl

/-- When all links are right, the second link of a node leads to the first node on
the chain of the others where a keyword ends, or to the root. -/
theorem exists_chainAt_eq_report {nodes : Array Node} (tree : IsTree nodes)
    (hlinks : ∀ i, i < nodes.size → HasLinks nodes i) {index : Nat} (hindex : index < nodes.size) :
    ∃ count, chainAt nodes index count = (nodeAt nodes index).report ∧
      Reported nodes (chainAt nodes index count) ∧
      ∀ earlier, earlier < count → ¬ Reported nodes (chainAt nodes index earlier) := by
  -- the chain leads to ever shorter nodes, up to the root, which counts as reported
  induction hdepth : (trailAt nodes index).length using Nat.strong_induction_on generalizing index
    with
  | h depth ih =>
      have hshorter := (hlinks index hindex).shorter
      have hreport := (hlinks index hindex).report
      by_cases hhere : Reported nodes (nodeAt nodes index).shorter
      · refine ⟨0, hreport.unique tree ⟨hshorter.lt_size, hhere, hshorter.ending, ?_⟩ |>.symm,
          hhere, by simp⟩
        exact fun j hj _ hending => hshorter.length_le j hj trivial hending
      · have hnonzero : (nodeAt nodes index).shorter ≠ 0 := fun hzero => hhere (Or.inl hzero)
        have hne := tree.trailAt_ne_nil hshorter.lt_size hnonzero
        have hproper : trailAt nodes index ≠ [] := by
          intro hnil
          have hending := hshorter.ending
          rw [hnil, List.dropLast_nil, List.prefix_nil] at hending
          exact hne hending
        have hlt := length_lt_of_prefix_dropLast hproper hshorter.ending
        obtain ⟨count, hcount, hreported, hearlier⟩ :=
          ih _ (hdepth ▸ hlt) hshorter.lt_size rfl
        have hnext := (hlinks _ hshorter.lt_size).report
        have hsame : (nodeAt nodes index).report =
            (nodeAt nodes (nodeAt nodes index).shorter).report := by
          apply hreport.unique tree
          refine ⟨hnext.lt_size, hnext.holds,
            (hnext.ending.trans (List.dropLast_prefix _)).trans hshorter.ending, ?_⟩
          intro j hj hj' hending
          refine hnext.length_le j hj hj' (prefix_dropLast_of_ne ?_ ?_)
          · exact List.prefix_of_prefix_length_le hending hshorter.ending
              (hshorter.length_le j hj trivial hending)
          · intro heq
            exact hhere (tree.injective hj hshorter.lt_size heq ▸ hj')
        refine ⟨count + 1, ?_, ?_, ?_⟩
        · rw [chainAt_succ, hcount, hsame]
        · rwa [chainAt_succ]
        · intro earlier hlt'
          cases earlier with
          | zero => exact hhere
          | succ earlier =>
              rw [chainAt_succ]
              exact hearlier earlier (Nat.lt_of_succ_lt_succ hlt')

/-! ### Changes that look at the tree alone -/

/-- The dictionaries have the same keywords in the same tree. -/
structure Alike (d e : Dictionary) : Prop where
  matching : e.matching = d.matching
  keywords : e.keywords = d.keywords
  nodes : Relinks d.nodes e.nodes

namespace Relinks

variable {old new : Array Node}

theorem withChild (h : Relinks old new) (index : Nat) (c : Char) :
    Relinks (withChild old index c) (withChild new index c) := by
  constructor
  case size_eq => rw [size_withChild, size_withChild, h.size_eq]
  all_goals
    intro i
    simp only [trailAt, nodeAt_withChild, h.size_eq]
    have htrail := h.trail
    simp only [trailAt] at htrail
    repeat' split
    all_goals simp [htrail, h.parent, h.children, h.keyword, Node.fresh]

theorem addChild (h : Relinks old new) (index : Nat) (c : Char) :
    Relinks (addChild old index c).1 (addChild new index c).1 ∧
      (addChild new index c).2 = (addChild old index c).2 := by
  have hchild : child? new index c = child? old index c := by
    rw [child?, child?, h.children]
  unfold Dictionary.addChild
  rw [hchild]
  split
  · exact ⟨h, rfl⟩
  · exact ⟨h.withChild index c, h.size_eq⟩

theorem addPath (h : Relinks old new) (matching : Matching) (index : Nat) (s : Text) :
    Relinks (addPath matching old index s).1 (addPath matching new index s).1 ∧
      (addPath matching new index s).2 = (addPath matching old index s).2 := by
  induction s generalizing old new index with
  | nil => exact ⟨h, rfl⟩
  | cons c rest ih =>
      obtain ⟨hnodes, hnext⟩ := h.addChild index (matching.fold c)
      rw [addPath_cons, addPath_cons, hnext]
      exact ih hnodes _

end Relinks

namespace Alike

variable {d e : Dictionary}

theorem refl (d : Dictionary) : d.Alike d := ⟨rfl, rfl, Relinks.refl _⟩

theorem symm (h : d.Alike e) : e.Alike d := ⟨h.matching.symm, h.keywords.symm, h.nodes.symm⟩

theorem trans {f : Dictionary} (h : d.Alike e) (h' : e.Alike f) : d.Alike f :=
  ⟨h'.matching.trans h.matching, h'.keywords.trans h.keywords, h.nodes.trans h'.nodes⟩

theorem withKeyword (h : d.Alike e) (keyword : Text) :
    (d.withKeyword keyword).Alike (e.withKeyword keyword) := by
  obtain ⟨hnodes, hend⟩ := h.nodes.addPath d.matching 0 keyword
  have hpath : e.pathOf keyword = addPath d.matching e.nodes 0 keyword := by
    rw [pathOf, h.matching]
  change Relinks (d.pathOf keyword).1 _ at hnodes
  rw [← hpath] at hnodes hend
  change _ = (d.pathOf keyword).2 at hend
  refine ⟨h.matching, ?_, ?_⟩
  · simp [Dictionary.withKeyword, h.keywords]
  · constructor
    case size_eq => simpa [Dictionary.withKeyword] using hnodes.size_eq
    all_goals
      intro i
      have htrail := hnodes.trail
      simp only [trailAt] at htrail
      simp only [trailAt, nodeAt_withKeyword, hend, hnodes.size_eq, h.keywords]
      split <;> simp [htrail, hnodes.parent, hnodes.children, hnodes.keyword]

/-- Dictionaries with the same tree are the same when all their links are right. -/
theorem eq (h : d.Alike e) (wf : WellFormed d) (hd : d.Linked) (he : e.Linked) : e = d := by
  have hnodes := h.nodes.eq wf.tree hd he
  obtain ⟨hmatching, hkeywords, -⟩ := h
  cases d
  cases e
  simp only at hnodes hmatching hkeywords
  rw [hnodes, hmatching, hkeywords]

end Alike

theorem WellFormed.alike_relink {d : Dictionary} (wf : WellFormed d) : d.Alike d.relink :=
  ⟨rfl, rfl, wf.relink_spec.1⟩

/-! ### Adding the keywords again -/

/-- The dictionary with more keywords, added one after the other. -/
def withKeywords (d : Dictionary) (keywords : List Text) : Dictionary :=
  keywords.foldl withKeyword d

/-- The tree is the one that the keywords make of an empty dictionary. -/
def Replays (d : Dictionary) : Prop :=
  ((empty d.matching).withKeywords d.keywords.toList).Alike d

namespace Replays

variable {d : Dictionary}

theorem empty (matching : Matching) : (empty matching).Replays := Alike.refl _

theorem withKeyword (h : d.Replays) (keyword : Text) : (d.withKeyword keyword).Replays := by
  unfold Replays withKeywords
  rw [toList_keywords_withKeyword, List.foldl_append]
  exact Alike.withKeyword h keyword

theorem add (h : d.Replays) {d' : Dictionary} {keyword : Text} {id : Option Nat}
    (hadd : d.add keyword = .ok (d', id)) : d'.Replays := by
  rcases add_cases hadd with ⟨rfl, -⟩ | ⟨-, -, rfl, -⟩
  · exact h
  · exact h.withKeyword keyword

theorem relink (h : d.Replays) (wf : WellFormed d) : d.relink.Replays :=
  Alike.trans h wf.alike_relink

theorem addAll (h : d.Replays) (wf : WellFormed d) (keywords : List Text) :
    (d.addAll keywords).1.Replays := by
  induction keywords generalizing d with
  | nil => exact h.relink wf
  | cons keyword later ih =>
      unfold Dictionary.addAll
      split
      next added id hadd => exact ih (h.add hadd) (wf.add hadd)
      next => exact h

theorem insert (h : d.Replays) (wf : WellFormed d) {d' : Dictionary} {keyword : Text}
    {id : Option Nat} (hinsert : d.insert keyword = .ok (d', id)) : d'.Replays := by
  unfold Dictionary.insert at hinsert
  rw [bind_eq_ok_iff] at hinsert
  obtain ⟨⟨added, new⟩, hadd, hresult⟩ := hinsert
  cases hresult
  have hadded := h.add hadd
  split
  · exact hadded.relink (wf.add hadd)
  · exact hadded

theorem apply (h : d.Replays) (wf : WellFormed d) (edit : Edit) : (edit.apply d).Replays := by
  cases edit with
  | add keyword =>
      simp only [Edit.apply]
      split
      next hadd => exact h.add hadd
      next => exact h
  | insert keyword =>
      simp only [Edit.apply]
      split
      next hinsert => exact h.insert wf hinsert
      next => exact h
  | addAll keywords => exact h.addAll wf keywords
  | relink => exact h.relink wf

end Replays

theorem Edited.replays_after (matching : Matching) (edits : List Edit) :
    (Edited.after matching edits).dictionary.Replays := by
  have hrun : ∀ state : Edited, state.dictionary.Replays → WellFormed state.dictionary →
      (edits.foldl Edited.apply state).dictionary.Replays := by
    induction edits with
    | nil => exact fun state h _ => h
    | cons edit later ih =>
        exact fun state h wf => ih _ (h.apply wf edit) (edit.apply_spec wf).1
  exact hrun _ (Replays.empty matching) (WellFormed.empty matching)

theorem add_eq_withKeyword {d d' : Dictionary} {keyword : Text} {id : Option Nat}
    (hne : keyword ≠ []) (h : d.add keyword = .ok (d', id)) : d' = d.withKeyword keyword := by
  rw [add_eq_walked d hne] at h
  split at h <;> cases h
  rfl

/-- Keywords that are all new are added one after the other; then come the links. -/
theorem WellFormed.alike_addAll {d : Dictionary} (wf : WellFormed d) {keywords : List Text}
    (hne : ∀ keyword ∈ keywords, keyword ≠ []) (h : (d.addAll keywords).2 = none) :
    (d.withKeywords keywords).Alike (d.addAll keywords).1 := by
  induction keywords generalizing d with
  | nil => exact wf.alike_relink
  | cons keyword later ih =>
      unfold addAll at h ⊢
      cases hadd : d.add keyword with
      | error error => simp [hadd] at h
      | ok result =>
          obtain ⟨added, id⟩ := result
          obtain rfl := add_eq_withKeyword (hne keyword List.mem_cons_self) hadd
          rw [hadd] at h
          exact ih (wf.add hadd) (fun word hword => hne word (List.mem_cons_of_mem _ hword)) h

namespace WellFormed

variable {d : Dictionary}

theorem ne_nil_of_mem (wf : WellFormed d) {keyword : Text} (h : keyword ∈ d.keywords.toList) :
    keyword ≠ [] := by
  obtain ⟨id, hid⟩ := Array.mem_iff_getElem?.1 (Array.mem_toList_iff.1 h)
  exact wf.nonempty id hid

/-- The keywords of a dictionary are all new in an empty one. -/
theorem isNone_rebuilt (wf : WellFormed d) :
    ((Dictionary.empty d.matching).addAll d.keywords.toList).2 = none := by
  refine ((addAll_keywords (WellFormed.empty d.matching) fun keyword =>
    wf.ne_nil_of_mem).1).2 ⟨?_, by simp [Knows, Dictionary.empty]⟩
  rw [List.nodup_iff_injective_getElem]
  intro i j hij
  simp only [List.getElem_map, Array.getElem_toList] at hij
  exact Fin.ext (wf.id_unique (Array.getElem?_eq_getElem (by simpa using i.isLt))
    (Array.getElem?_eq_getElem (by simpa using j.isLt)) hij)

/-- Adding the keywords again gives the same tree with right links. -/
theorem rebuilt_spec (wf : WellFormed d) (h : d.Replays) :
    d.Alike d.rebuilt ∧ d.rebuilt.Linked := by
  have hnone := wf.isNone_rebuilt
  have hlinked := (addAll_spec (WellFormed.empty d.matching) d.keywords.toList).2.2.2
  rw [hnone] at hlinked
  exact ⟨Alike.trans (Alike.symm h) ((WellFormed.empty d.matching).alike_addAll
    (fun keyword => wf.ne_nil_of_mem) hnone), hlinked⟩

end WellFormed

/-- Computing the links after any changes repairs them and forgets the changes: the
first link of every node leads to its longest proper ending that is a node, the second
one to the first node on the chain of these where a keyword ends, or to the root; and
adding the same keywords to an empty dictionary gives the same nodes, links, keywords
and numbers, so every scan finds the same. -/
theorem relink_eq_rebuilt (matching : Matching) (edits : List Edit) :
    let d := (Edited.after matching edits).dictionary
    (∀ i, i < d.relink.nodes.size →
      IsLongest d.relink.nodes AnyNode (trailAt d.relink.nodes i).dropLast
        (nodeAt d.relink.nodes i).shorter ∧
      ∃ count, chainAt d.relink.nodes i count = (nodeAt d.relink.nodes i).report ∧
        Reported d.relink.nodes (chainAt d.relink.nodes i count) ∧
        ∀ earlier, earlier < count → ¬ Reported d.relink.nodes (chainAt d.relink.nodes i earlier)) ∧
    d.rebuilt = d.relink ∧ d.relink.rebuilt = d.relink ∧
    ∀ s, d.rebuilt.scan s = d.relink.scan s := by
  intro d
  obtain ⟨wf, -, -⟩ := Edited.after_spec matching edits
  have hlinked := wf.relink_spec.2.2
  obtain ⟨halike, hrebuilt⟩ := wf.rebuilt_spec (Edited.replays_after matching edits)
  have heq : d.rebuilt = d.relink :=
    Alike.eq (wf.alike_relink.symm.trans halike) wf.relink hlinked hrebuilt
  refine ⟨fun i hi => ⟨(hlinked i hi).shorter, ?_⟩, heq, heq, fun s => by rw [heq]⟩
  exact exists_chainAt_eq_report wf.relink.tree hlinked hi

end Dictionary

end OdeModel
