import OdeModel.Proofs.Dictionary.Links

/-!
# Dictionaries under changes

A dictionary is changed by adding keywords, with or without computing the links,
and by computing them. Whatever the order, its nodes stay a tree with sound links
that holds every keyword once; and while no keyword has been added since the links
were last computed, all links are right.
-/

namespace OdeModel

namespace Matching

/-- The trail of the node that stands for a text. -/
def trail (matching : Matching) (s : Text) : Text := (s.map matching.fold).reverse

@[simp] theorem trail_concat (matching : Matching) (s : Text) (c : Char) :
    matching.trail (s ++ [c]) = matching.fold c :: matching.trail s := by
  simp [trail]

theorem trail_eq_nil_iff (matching : Matching) (s : Text) : matching.trail s = [] ↔ s = [] := by
  simp [trail]

end Matching

namespace Dictionary

/-- Every keyword ends at the one node that stands for it, and no other keyword
ends there; no keyword is empty. -/
structure WellFormed (d : Dictionary) : Prop where
  tree : IsTree d.nodes
  sound : SoundLinks d.nodes
  keyword : ∀ {i id : Nat}, i < d.nodes.size → (nodeAt d.nodes i).keyword = some id →
    ∃ keyword, d.keywords[id]? = some keyword ∧ trailAt d.nodes i = d.matching.trail keyword
  node : ∀ (id : Nat) {keyword : Text}, d.keywords[id]? = some keyword →
    ∃ i, i < d.nodes.size ∧ (nodeAt d.nodes i).keyword = some id
  nonempty : ∀ (id : Nat) {keyword : Text}, d.keywords[id]? = some keyword → keyword ≠ []

/-- All links are right. -/
def Linked (d : Dictionary) : Prop := ∀ i, i < d.nodes.size → HasLinks d.nodes i

/-! ### Adding a keyword -/

/-- The nodes after adding the missing ones of a keyword, and its own node. -/
def pathOf (d : Dictionary) (keyword : Text) : Array Node × Nat :=
  addPath d.matching d.nodes 0 keyword

/-- The dictionary with a keyword that ends at the given node. -/
def withKeyword (d : Dictionary) (keyword : Text) : Dictionary :=
  { d with
    nodes := (d.pathOf keyword).1.modify (d.pathOf keyword).2 fun node =>
      { node with keyword := some d.keywords.size }
    keywords := d.keywords.push keyword }

/-- The dictionary at the end of the path of a keyword, before the keyword is entered or
refused: the nodes that were missing on the path have been added. -/
def walked (d : Dictionary) (keyword : Text) : Dictionary :=
  { d with nodes := (d.pathOf keyword).1 }

/-- Adding a keyword walks along its path and then decides. -/
theorem add_eq_walked (d : Dictionary) {keyword : Text} (hne : keyword ≠ []) :
    d.add keyword =
      if (nodeAt (d.walked keyword).nodes (d.pathOf keyword).2).keyword.isSome then
        .error ⟨keyword⟩
      else .ok (d.withKeyword keyword, some d.keywords.size) := by
  rw [add, if_neg (by simpa using hne)]
  rfl

/-- What adding a keyword can do. -/
theorem add_cases {d d' : Dictionary} {keyword : Text} {id : Option Nat}
    (h : d.add keyword = .ok (d', id)) :
    (d' = d ∧ id = none) ∨
      (keyword ≠ [] ∧ (nodeAt (d.pathOf keyword).1 (d.pathOf keyword).2).keyword = none ∧
        d' = d.withKeyword keyword ∧ id = some d.keywords.size) := by
  by_cases hne : keyword = []
  · subst hne
    cases h
    exact Or.inl ⟨rfl, rfl⟩
  · rw [add_eq_walked d hne] at h
    split at h
    · contradiction
    next hnew =>
      cases h
      exact Or.inr ⟨hne, Option.not_isSome_iff_eq_none.1 hnew, rfl, rfl⟩

theorem SoundLinks.grows {old new : Array Node} (hsound : SoundLinks old) (htree : IsTree new)
    (hgrows : Grows old new) : SoundLinks new := by
  have hlink : ∀ {link old_link i : Nat}, link = old_link → i < new.size →
      (i < old.size → old_link < old.size ∧ trailAt old old_link <+: (trailAt old i).dropLast) →
      (old.size ≤ i → old_link = 0) →
      link < new.size ∧ trailAt new link <+: (trailAt new i).dropLast := by
    rintro link _ i rfl hi hold hnew
    by_cases hlt : i < old.size
    · obtain ⟨hlink, hbegins⟩ := hold hlt
      rw [hgrows.trail hlink, hgrows.trail hlt]
      exact ⟨hlink.trans_le hgrows.size_le, hbegins⟩
    · rw [hnew (Nat.le_of_not_lt hlt), htree.trail_root]
      exact ⟨htree.size_pos, List.nil_prefix⟩
  have hshorter : ∀ {i}, i < new.size → _ := fun {i} hi =>
    hlink (hgrows.shorter i) hi (fun h => ⟨hsound.shorter_lt h, hsound.shorter h⟩)
      fun h => by rw [nodeAt_of_size_le h]; rfl
  have hreport : ∀ {i}, i < new.size → _ := fun {i} hi =>
    hlink (hgrows.report i) hi (fun h => ⟨hsound.report_lt h, hsound.report h⟩)
      fun h => by rw [nodeAt_of_size_le h]; rfl
  exact ⟨fun hi => (hshorter hi).1, fun hi => (hshorter hi).2, fun hi => (hreport hi).1,
    fun hi => (hreport hi).2⟩

/-- Marking a node as the end of a keyword changes nothing else. -/
theorem nodeAt_withKeyword (d : Dictionary) (keyword : Text) (i : Nat) :
    nodeAt (d.withKeyword keyword).nodes i =
      if i = (d.pathOf keyword).2 ∧ i < (d.pathOf keyword).1.size then
        { nodeAt (d.pathOf keyword).1 i with keyword := some d.keywords.size }
      else nodeAt (d.pathOf keyword).1 i := by
  rw [withKeyword, nodeAt_modify]

namespace WellFormed

variable {d : Dictionary}

theorem empty (matching : Matching) : WellFormed (empty matching) where
  tree := IsTree.empty
  sound := by
    have hzero : ∀ {i}, i < (Dictionary.empty matching).nodes.size → i = 0 := by
      intro i hi
      simpa [Dictionary.empty] using hi
    constructor <;> intro i hi <;> rw [hzero hi] <;>
      simp [Dictionary.empty, nodeAt, trailAt, Node.root, Node.fresh]
  keyword := by
    intro i id hi h
    obtain rfl : i = 0 := by simpa [Dictionary.empty] using hi
    simp [Dictionary.empty, nodeAt, Node.root, Node.fresh] at h
  node := by simp [Dictionary.empty]
  nonempty := by simp [Dictionary.empty]

theorem withKeyword (wf : WellFormed d) {keyword : Text} (hne : keyword ≠ [])
    (hnew : (nodeAt (d.pathOf keyword).1 (d.pathOf keyword).2).keyword = none) :
    WellFormed (d.withKeyword keyword) := by
  obtain ⟨htree, hgrows, hlt, htrail⟩ :=
    addPath_spec wf.tree d.matching wf.tree.size_pos keyword
  change IsTree (d.pathOf keyword).1 at htree
  change Grows d.nodes (d.pathOf keyword).1 at hgrows
  change (d.pathOf keyword).2 < (d.pathOf keyword).1.size at hlt
  change trailAt (d.pathOf keyword).1 (d.pathOf keyword).2 = _ at htrail
  rw [wf.tree.trail_root, List.append_nil] at htrail
  have hsize : (d.withKeyword keyword).nodes.size = (d.pathOf keyword).1.size := by
    simp [Dictionary.withKeyword]
  have htrails : ∀ i, trailAt (d.withKeyword keyword).nodes i = trailAt (d.pathOf keyword).1 i := by
    intro i
    rw [trailAt, nodeAt_withKeyword]
    split <;> rfl
  have hsound := wf.sound.grows htree hgrows
  have hother : ∀ {i}, i ≠ (d.pathOf keyword).2 →
      (nodeAt (d.withKeyword keyword).nodes i).keyword = (nodeAt d.nodes i).keyword := by
    intro i hi
    rw [nodeAt_withKeyword, if_neg fun h => hi h.1, hgrows.keyword]
  have hself : (nodeAt (d.withKeyword keyword).nodes (d.pathOf keyword).2).keyword =
      some d.keywords.size := by
    rw [nodeAt_withKeyword, if_pos ⟨rfl, hlt⟩]
  have hold : ∀ {i id}, (nodeAt d.nodes i).keyword = some id → i < d.nodes.size := by
    intro i id h
    by_contra hi
    rw [nodeAt_of_size_le (Nat.le_of_not_lt hi)] at h
    simp [Node.root, Node.fresh] at h
  constructor
  case tree =>
    apply htree.congr hsize htrails <;> intro i <;> rw [nodeAt_withKeyword] <;> split <;> rfl
  case sound =>
    have hshorter : ∀ i, (nodeAt (d.withKeyword keyword).nodes i).shorter =
        (nodeAt (d.pathOf keyword).1 i).shorter := by
      intro i
      rw [nodeAt_withKeyword]
      split <;> rfl
    have hreport : ∀ i, (nodeAt (d.withKeyword keyword).nodes i).report =
        (nodeAt (d.pathOf keyword).1 i).report := by
      intro i
      rw [nodeAt_withKeyword]
      split <;> rfl
    constructor <;> intro i hi <;> rw [hsize] at hi
    · rw [hshorter, hsize]
      exact hsound.shorter_lt hi
    · rw [hshorter, htrails, htrails]
      exact hsound.shorter hi
    · rw [hreport, hsize]
      exact hsound.report_lt hi
    · rw [hreport, htrails, htrails]
      exact hsound.report hi
  case keyword =>
    intro i id hi h
    by_cases hsame : i = (d.pathOf keyword).2
    · subst hsame
      rw [hself] at h
      cases h
      exact ⟨keyword, by simp [Dictionary.withKeyword], (htrails _).trans htrail⟩
    · rw [hother hsame] at h
      obtain ⟨old, hget, holdtrail⟩ := wf.keyword (hold h) h
      refine ⟨old, ?_, ?_⟩
      · have hid := (Array.getElem?_eq_some_iff.1 hget).1
        simp [Dictionary.withKeyword, Array.getElem?_push, hid.ne, hget]
      · rw [htrails, hgrows.trail (hold h), holdtrail]
        rfl
  case node =>
    intro id word hget
    by_cases hlast : id = d.keywords.size
    · exact ⟨_, hsize ▸ hlt, hlast ▸ hself⟩
    · have hget : d.keywords[id]? = some word := by
        simpa [Dictionary.withKeyword, Array.getElem?_push, hlast] using hget
      obtain ⟨i, hi, hkeyword⟩ := wf.node id hget
      refine ⟨i, hsize ▸ hi.trans_le hgrows.size_le, ?_⟩
      rw [hother, hkeyword]
      rintro rfl
      rw [hgrows.keyword, hkeyword] at hnew
      simp at hnew
  case nonempty =>
    intro id word hget
    by_cases hlast : id = d.keywords.size
    · simp only [Dictionary.withKeyword, hlast, Array.getElem?_push_size, Option.some.injEq] at hget
      exact hget ▸ hne
    · exact wf.nonempty id
        (by simpa [Dictionary.withKeyword, Array.getElem?_push, hlast] using hget)

theorem add (wf : WellFormed d) {d' : Dictionary} {keyword : Text} {id : Option Nat}
    (h : d.add keyword = .ok (d', id)) : WellFormed d' := by
  rcases add_cases h with ⟨rfl, -⟩ | ⟨hne, hnew, rfl, -⟩
  · exact wf
  · exact wf.withKeyword hne hnew

end WellFormed

/-! ### Computing the links -/

/-- Computing the links of a dictionary makes all of them right and changes
nothing else. -/
theorem WellFormed.relink_spec {d : Dictionary} (wf : WellFormed d) :
    Relinks d.nodes d.relink.nodes ∧ SoundLinks d.relink.nodes ∧ d.relink.Linked := by
  have hroot : IsLevel d.nodes 0 [0] := by
    intro i
    rw [List.mem_singleton]
    constructor
    · rintro rfl
      exact ⟨wf.tree.size_pos, by rw [wf.tree.trail_root, List.length_nil]⟩
    · rintro ⟨hi, hdepth⟩
      exact (wf.tree.eq_zero_iff hi).2 (List.length_eq_zero_iff.1 hdepth)
  have hstart : Linking d.nodes d.nodes 1 := by
    refine ⟨Relinks.refl _, wf.tree, wf.sound, ?_⟩
    intro i hi hdepth
    have hnil : trailAt d.nodes i = [] := List.length_eq_zero_iff.1 (by omega)
    obtain rfl := (wf.tree.eq_zero_iff hi).2 hnil
    have hshorter := wf.sound.shorter hi
    have hreport := wf.sound.report hi
    rw [hnil] at hshorter hreport
    rw [List.dropLast_nil, List.prefix_nil] at hshorter hreport
    constructor <;> rw [hnil, List.dropLast_nil]
    · exact IsLongest.of_eq (wf.sound.shorter_lt hi) trivial hshorter
    · refine IsLongest.of_eq (wf.sound.report_lt hi) (Or.inl ?_) hreport
      exact (wf.tree.eq_zero_iff (wf.sound.report_lt hi)).2 hreport
  obtain ⟨hrelinks, hsound, hlinked⟩ :=
    hstart.relinkLevels Nat.one_pos (isLevel_nextLevel wf.tree hroot) (Nat.lt_succ_self _)
  exact ⟨hrelinks, hsound, hlinked⟩

theorem WellFormed.relink {d : Dictionary} (wf : WellFormed d) : WellFormed d.relink := by
  obtain ⟨hrelinks, hsound, -⟩ := wf.relink_spec
  constructor
  case tree => exact hrelinks.isTree wf.tree
  case sound => exact hsound
  case keyword =>
    intro i id hi h
    rw [hrelinks.keyword] at h
    rw [hrelinks.trail]
    exact wf.keyword (hrelinks.size_eq ▸ hi) h
  case node =>
    intro id keyword hget
    obtain ⟨i, hi, h⟩ := wf.node id hget
    exact ⟨i, hrelinks.size_eq ▸ hi, (hrelinks.keyword i).trans h⟩
  case nonempty => exact fun id _ hget => wf.nonempty id hget

/-! ### Sequences of changes -/

/-- A change to a dictionary. -/
inductive Edit where
  /-- A keyword is added and the links stay as they are. -/
  | add (keyword : Text)
  /-- A keyword is added and the links are computed. -/
  | insert (keyword : Text)
  /-- Keywords are added up to the first one that is there already; the links are
  computed when there is none. -/
  | addAll (keywords : List Text)
  /-- The links are computed. -/
  | relink
  deriving Repr, DecidableEq

namespace Edit

/-- The dictionary after a change. A keyword that is there already is refused. -/
def apply (d : Dictionary) : Edit → Dictionary
  | add keyword =>
      match d.add keyword with
      | .ok (changed, _) => changed
      | .error _ => d
  | insert keyword =>
      match d.insert keyword with
      | .ok (changed, _) => changed
      | .error _ => d
  | addAll keywords => (d.addAll keywords).1
  | relink => d.relink

/-- The change ends with computing the links. -/
def relinks (d : Dictionary) : Edit → Bool
  | add _ => false
  | insert keyword =>
      match d.insert keyword with
      | .ok (_, id) => id.isSome
      | .error _ => false
  | addAll keywords => (d.addAll keywords).2.isNone
  | relink => true

end Edit

/-- A dictionary with some changes behind it. -/
structure Edited where
  /-- The dictionary. -/
  dictionary : Dictionary
  /-- No keyword has been added since the links were last computed. -/
  linked : Bool

namespace Edited

/-- One more change. -/
def apply (state : Edited) (edit : Edit) : Edited where
  dictionary := edit.apply state.dictionary
  linked := edit.relinks state.dictionary ||
    (state.linked &&
      (edit.apply state.dictionary).keywords.size == state.dictionary.keywords.size)

/-- The dictionary that a sequence of changes makes of the empty one. -/
def after (matching : Matching) (edits : List Edit) : Edited :=
  edits.foldl apply ⟨empty matching, true⟩

end Edited

/-- Either the dictionary is unchanged or it has more keywords than before. -/
theorem add_unchanged {d d' : Dictionary} {keyword : Text} {id : Option Nat}
    (h : d.add keyword = .ok (d', id)) :
    d.matching = d'.matching ∧ d.keywords.size ≤ d'.keywords.size ∧
      (d'.keywords.size = d.keywords.size → d' = d) := by
  rcases add_cases h with ⟨rfl, -⟩ | ⟨-, -, rfl, -⟩
  · exact ⟨rfl, Nat.le_refl _, fun _ => rfl⟩
  · simp [Dictionary.withKeyword]

/-- What adding several keywords keeps: a failure leaves the dictionary as it was
before or with more keywords, a success ends with computing the links. -/
theorem addAll_spec {d : Dictionary} (wf : WellFormed d) (keywords : List Text) :
    WellFormed (d.addAll keywords).1 ∧ (d.addAll keywords).1.matching = d.matching ∧
      d.keywords.size ≤ (d.addAll keywords).1.keywords.size ∧
      (if (d.addAll keywords).2.isNone then (d.addAll keywords).1.Linked
        else (d.addAll keywords).1.keywords.size = d.keywords.size →
          (d.addAll keywords).1 = d) := by
  induction keywords generalizing d with
  | nil => exact ⟨wf.relink, rfl, Nat.le_refl _, wf.relink_spec.2.2⟩
  | cons keyword later ih =>
      unfold addAll
      cases hadd : d.add keyword with
      | error error => exact ⟨wf, rfl, Nat.le_refl _, fun _ => rfl⟩
      | ok result =>
          obtain ⟨added, id⟩ := result
          obtain ⟨hmatching, hle, hsame⟩ := add_unchanged hadd
          obtain ⟨hwf, hmatching', hle', hend⟩ := ih (wf.add hadd)
          refine ⟨hwf, hmatching'.trans hmatching.symm, hle.trans hle', ?_⟩
          dsimp only
          split
          next hnone => simpa [hnone] using hend
          next hsome =>
            rw [if_neg hsome] at hend
            intro hsize
            rw [hend (by omega)]
            exact hsame (by omega)

/-- What one change keeps. -/
theorem Edit.apply_spec {d : Dictionary} (wf : WellFormed d) (edit : Edit) :
    WellFormed (edit.apply d) ∧ (edit.apply d).matching = d.matching ∧
      (edit.relinks d = true → (edit.apply d).Linked) ∧
      (edit.relinks d = false → (edit.apply d).keywords.size = d.keywords.size →
        edit.apply d = d) := by
  cases edit with
  | add keyword =>
      cases hadd : d.add keyword with
      | error error =>
          simp only [Edit.apply, Edit.relinks, hadd]
          exact ⟨wf, trivial, by simp, by simp⟩
      | ok result =>
          obtain ⟨hmatching, -, hsame⟩ := add_unchanged hadd
          simp only [Edit.apply, Edit.relinks, hadd]
          exact ⟨wf.add hadd, hmatching.symm, by simp, fun _ => hsame⟩
  | insert keyword =>
      cases hadd : d.add keyword with
      | error error =>
          have hinsert : d.insert keyword = .error error := by
            rw [Dictionary.insert, hadd]
            rfl
          simp only [Edit.apply, Edit.relinks, hinsert]
          exact ⟨wf, trivial, by simp, by simp⟩
      | ok result =>
          obtain ⟨added, id⟩ := result
          obtain ⟨hmatching, -, hsame⟩ := add_unchanged hadd
          have hwf := wf.add hadd
          have hinsert : d.insert keyword =
              .ok (if id.isSome then added.relink else added, id) := by
            rw [Dictionary.insert, hadd]
            rfl
          simp only [Edit.apply, Edit.relinks, hinsert]
          cases id with
          | none => exact ⟨hwf, hmatching.symm, by simp, fun _ => hsame⟩
          | some id =>
              exact ⟨hwf.relink, hmatching.symm, fun _ => hwf.relink_spec.2.2, by simp⟩
  | addAll keywords =>
      obtain ⟨hwf, hmatching, -, hend⟩ := addAll_spec wf keywords
      refine ⟨hwf, hmatching, fun h => ?_, fun h => ?_⟩
      · exact (if_pos (show (d.addAll keywords).2.isNone = true from h)).mp hend
      · exact (if_neg (show ¬ (d.addAll keywords).2.isNone = true by
          rw [show (d.addAll keywords).2.isNone = false from h]; simp)).mp hend
  | relink => exact ⟨wf.relink, rfl, fun _ => wf.relink_spec.2.2, by simp [Edit.relinks]⟩

/-- What every sequence of changes keeps. -/
theorem Edited.after_spec (matching : Matching) (edits : List Edit) :
    WellFormed (Edited.after matching edits).dictionary ∧
      (Edited.after matching edits).dictionary.matching = matching ∧
      ((Edited.after matching edits).linked = true →
        (Edited.after matching edits).dictionary.Linked) := by
  have hstep : ∀ (edits : List Edit) (state : Edited),
      (WellFormed state.dictionary ∧ state.dictionary.matching = matching ∧
        (state.linked = true → state.dictionary.Linked)) →
      WellFormed (edits.foldl Edited.apply state).dictionary ∧
        (edits.foldl Edited.apply state).dictionary.matching = matching ∧
        ((edits.foldl Edited.apply state).linked = true →
          (edits.foldl Edited.apply state).dictionary.Linked) := by
    intro edits
    induction edits with
    | nil => exact fun state h => h
    | cons edit rest ih =>
        rintro state ⟨hwf, hmatching, hlinked⟩
        obtain ⟨hwf', hmatching', hrelinks, hsame⟩ := edit.apply_spec hwf
        refine ih _ ⟨hwf', hmatching'.trans hmatching, ?_⟩
        intro h
        simp only [Edited.apply, Bool.or_eq_true, Bool.and_eq_true, beq_iff_eq] at h
        cases hends : edit.relinks state.dictionary with
        | true => exact hrelinks hends
        | false =>
            rw [hends] at h
            obtain ⟨hold, hsize⟩ := h.resolve_left (by simp)
            have heq := hsame hends hsize
            change (edit.apply state.dictionary).Linked
            rw [heq]
            exact hlinked hold
  refine hstep edits _ ⟨WellFormed.empty matching, rfl, fun _ => ?_⟩
  -- the links of the empty dictionary are those that computing them gives
  have hroot : IsTree (empty matching).nodes := (WellFormed.empty matching).tree
  intro i hi
  obtain rfl : i = 0 := by simpa [empty] using hi
  constructor
  · exact IsLongest.root hroot trivial
  · exact IsLongest.root hroot (Or.inl rfl)

end Dictionary

end OdeModel
