import OdeModel.Dictionary.Links
import Mathlib.Data.List.Infix

/-!
# The tree of a dictionary

Adding keywords only ever adds nodes: an existing node keeps its beginning and
its links. The nodes stay a tree in which every beginning has one node, and the
numbered nodes are the ends of the keywords, compared after folding.
-/

namespace OdeModel

namespace Dictionary

/-- The characters that lead to a node, the last one first. -/
def trailAt (nodes : Array Node) (index : Nat) : Text := (nodeAt nodes index).trail

/-! ### Reading a changed node list -/

theorem nodeAt_of_size_le {nodes : Array Node} {index : Nat} (h : nodes.size ≤ index) :
    nodeAt nodes index = Node.root := by
  simp [nodeAt, h]

theorem nodeAt_modify (nodes : Array Node) (changed : Nat) (f : Node → Node) (index : Nat) :
    nodeAt (nodes.modify changed f) index =
      if index = changed ∧ index < nodes.size then f (nodeAt nodes index)
      else nodeAt nodes index := by
  simp only [nodeAt, Array.getElem?_modify]
  by_cases heq : changed = index
  · subst heq
    by_cases hsize : changed < nodes.size <;> simp [hsize]
  · simp [heq, Ne.symm heq]

theorem nodeAt_push (nodes : Array Node) (node : Node) (index : Nat) :
    nodeAt (nodes.push node) index =
      if index = nodes.size then node else nodeAt nodes index := by
  by_cases heq : index = nodes.size
  · simp [nodeAt, heq]
  · simp [nodeAt, Array.getElem?_push, heq]

/-! ### Trees -/

/-- The nodes form a tree: the root is the empty beginning, no beginning has two
nodes, each other node is one character longer than its parent, and the children
of a node are the nodes one character longer. -/
structure IsTree (nodes : Array Node) : Prop where
  size_pos : 0 < nodes.size
  trail_root : trailAt nodes 0 = []
  injective : ∀ {i j}, i < nodes.size → j < nodes.size →
    trailAt nodes i = trailAt nodes j → i = j
  parent : ∀ {i}, i < nodes.size → i ≠ 0 →
    (nodeAt nodes i).parent < i ∧ ∃ c, trailAt nodes i = c :: trailAt nodes (nodeAt nodes i).parent
  mem_children : ∀ {i}, i < nodes.size → ∀ c j,
    (c, j) ∈ (nodeAt nodes i).children ↔ j < nodes.size ∧ trailAt nodes j = c :: trailAt nodes i

namespace IsTree

theorem empty : IsTree #[Node.root] where
  size_pos := by simp
  trail_root := rfl
  injective := by simp
  parent := by
    intro i hi hne
    simp at hi
    contradiction
  mem_children := by
    intro i hi c j
    simp at hi
    subst hi
    constructor
    · exact fun h => by simp [nodeAt, Node.root, Node.fresh] at h
    · rintro ⟨hj, htrail⟩
      simp only [List.size_toArray, List.length_singleton, Nat.lt_one_iff] at hj
      subst hj
      exact absurd htrail (by simp [trailAt, nodeAt, Node.root, Node.fresh])

variable {nodes : Array Node}

theorem eq_zero_iff (tree : IsTree nodes) {i : Nat} (hi : i < nodes.size) :
    i = 0 ↔ trailAt nodes i = [] := by
  constructor
  · rintro rfl
    exact tree.trail_root
  · intro h
    exact tree.injective hi tree.size_pos (h.trans tree.trail_root.symm)

theorem trailAt_ne_nil (tree : IsTree nodes) {i : Nat} (hi : i < nodes.size) (h : i ≠ 0) :
    trailAt nodes i ≠ [] :=
  fun hnil => h ((tree.eq_zero_iff hi).2 hnil)

/-- Looking a character up finds the node that is longer by it. -/
theorem child?_eq_some_iff (tree : IsTree nodes) {i : Nat} (hi : i < nodes.size) (c : Char)
    (j : Nat) :
    child? nodes i c = some j ↔ j < nodes.size ∧ trailAt nodes j = c :: trailAt nodes i := by
  rw [← tree.mem_children hi]
  have hunique : ∀ k, (c, k) ∈ (nodeAt nodes i).children → (c, j) ∈ (nodeAt nodes i).children →
      k = j := by
    intro k hk hj
    rw [tree.mem_children hi] at hk hj
    exact tree.injective hk.1 hj.1 (hk.2.trans hj.2.symm)
  unfold child?
  constructor
  · intro h
    obtain ⟨before, after, hsplit, -⟩ := List.lookup_eq_some_iff.1 h
    simp [hsplit]
  · intro h
    cases hlookup : (nodeAt nodes i).children.lookup c with
    | none => exact absurd h (by simpa using List.lookup_eq_none_iff.1 hlookup (c, j))
    | some k =>
        obtain ⟨before, after, hsplit, -⟩ := List.lookup_eq_some_iff.1 hlookup
        rw [hunique k (by simp [hsplit]) h]

theorem child?_eq_none_iff (tree : IsTree nodes) {i : Nat} (hi : i < nodes.size) (c : Char) :
    child? nodes i c = none ↔
      ∀ j, j < nodes.size → trailAt nodes j ≠ c :: trailAt nodes i := by
  simp only [Option.eq_none_iff_forall_ne_some, ne_eq, tree.child?_eq_some_iff hi, not_and]

/-- Every beginning of a beginning has a node. -/
theorem exists_suffix (tree : IsTree nodes) {i : Nat} (hi : i < nodes.size) {trail : Text}
    (h : trail <:+ trailAt nodes i) : ∃ j, j < nodes.size ∧ trailAt nodes j = trail := by
  -- a parent stands before its children
  induction i using Nat.strong_induction_on generalizing trail with
  | h i ih =>
      by_cases hzero : i = 0
      · rw [(tree.eq_zero_iff hi).1 hzero, List.suffix_nil] at h
        exact ⟨0, tree.size_pos, h ▸ tree.trail_root⟩
      · obtain ⟨hparent, c, htrail⟩ := tree.parent hi hzero
        rw [htrail, List.suffix_cons_iff] at h
        rcases h with rfl | h
        · exact ⟨i, hi, htrail⟩
        · exact ih _ hparent (hparent.trans hi) h

/-- A node is no deeper than its number. -/
theorem length_trailAt_le (tree : IsTree nodes) {i : Nat} (hi : i < nodes.size) :
    (trailAt nodes i).length ≤ i := by
  induction i using Nat.strong_induction_on with
  | h i ih =>
      by_cases hzero : i = 0
      · simp [(tree.eq_zero_iff hi).1 hzero]
      · obtain ⟨hparent, c, htrail⟩ := tree.parent hi hzero
        have := ih _ hparent (hparent.trans hi)
        simp only [htrail, List.length_cons]
        omega

/-- Only the trails, parents and children matter. -/
theorem congr {changed : Array Node} (tree : IsTree nodes) (hsize : changed.size = nodes.size)
    (htrail : ∀ i, trailAt changed i = trailAt nodes i)
    (hparent : ∀ i, (nodeAt changed i).parent = (nodeAt nodes i).parent)
    (hchildren : ∀ i, (nodeAt changed i).children = (nodeAt nodes i).children) :
    IsTree changed where
  size_pos := hsize ▸ tree.size_pos
  trail_root := (htrail 0).trans tree.trail_root
  injective := by
    intro i j hi hj h
    rw [htrail, htrail] at h
    exact tree.injective (hsize ▸ hi) (hsize ▸ hj) h
  parent := by
    intro i hi hne
    rw [hparent, htrail, htrail]
    exact tree.parent (hsize ▸ hi) hne
  mem_children := by
    intro i hi c j
    rw [hchildren, htrail, htrail, hsize]
    exact tree.mem_children (hsize ▸ hi) c j

end IsTree

/-! ### Growing -/

/-- Nodes are only added. The old ones keep their beginnings, keywords and links,
and the new ones have neither a keyword nor a link away from the root. -/
structure Grows (old new : Array Node) : Prop where
  size_le : old.size ≤ new.size
  trail : ∀ {i}, i < old.size → trailAt new i = trailAt old i
  keyword : ∀ i, (nodeAt new i).keyword = (nodeAt old i).keyword
  shorter : ∀ i, (nodeAt new i).shorter = (nodeAt old i).shorter
  report : ∀ i, (nodeAt new i).report = (nodeAt old i).report

namespace Grows

theorem refl (nodes : Array Node) : Grows nodes nodes :=
  ⟨Nat.le_refl _, fun _ => rfl, fun _ => rfl, fun _ => rfl, fun _ => rfl⟩

theorem trans {first second third : Array Node} (h : Grows first second)
    (h' : Grows second third) : Grows first third where
  size_le := h.size_le.trans h'.size_le
  trail := fun hi => (h'.trail (hi.trans_le h.size_le)).trans (h.trail hi)
  keyword := fun i => (h'.keyword i).trans (h.keyword i)
  shorter := fun i => (h'.shorter i).trans (h.shorter i)
  report := fun i => (h'.report i).trans (h.report i)

end Grows

/-- The node list with one more child below a node. -/
def withChild (nodes : Array Node) (index : Nat) (c : Char) : Array Node :=
  (nodes.modify index fun node =>
    { node with children := node.children ++ [(c, nodes.size)] }).push
      (Node.fresh (c :: trailAt nodes index) index)

theorem size_withChild (nodes : Array Node) (index : Nat) (c : Char) :
    (withChild nodes index c).size = nodes.size + 1 := by
  simp [withChild]

theorem nodeAt_withChild (nodes : Array Node) (index : Nat) (c : Char) (i : Nat) :
    nodeAt (withChild nodes index c) i =
      if i = nodes.size then Node.fresh (c :: trailAt nodes index) index
      else if i = index ∧ i < nodes.size then
        { nodeAt nodes i with children := (nodeAt nodes i).children ++ [(c, nodes.size)] }
      else nodeAt nodes i := by
  rw [withChild, nodeAt_push, Array.size_modify, nodeAt_modify]

theorem trailAt_withChild (nodes : Array Node) (index : Nat) (c : Char) (i : Nat) :
    trailAt (withChild nodes index c) i =
      if i = nodes.size then c :: trailAt nodes index else trailAt nodes i := by
  rw [trailAt, nodeAt_withChild]
  split
  · rfl
  · split <;> rfl

theorem grows_withChild (nodes : Array Node) (index : Nat) (c : Char) :
    Grows nodes (withChild nodes index c) where
  size_le := by simp [size_withChild]
  trail := by
    intro i hi
    rw [trailAt_withChild, if_neg hi.ne]
  keyword := by
    intro i
    rw [nodeAt_withChild]
    split
    next heq => simp [heq, nodeAt_of_size_le, Node.fresh, Node.root]
    next => split <;> rfl
  shorter := by
    intro i
    rw [nodeAt_withChild]
    split
    next heq => simp [heq, nodeAt_of_size_le, Node.fresh, Node.root]
    next => split <;> rfl
  report := by
    intro i
    rw [nodeAt_withChild]
    split
    next heq => simp [heq, nodeAt_of_size_le, Node.fresh, Node.root]
    next => split <;> rfl

/-- A new child keeps the tree a tree when the node had none for that character. -/
theorem IsTree.withChild {nodes : Array Node} (tree : IsTree nodes) {index : Nat}
    (hindex : index < nodes.size) {c : Char} (hnew : child? nodes index c = none) :
    IsTree (withChild nodes index c) := by
  have hfresh := (tree.child?_eq_none_iff hindex c).1 hnew
  constructor
  case size_pos => simp [size_withChild]
  case trail_root =>
    rw [trailAt_withChild, if_neg tree.size_pos.ne]
    exact tree.trail_root
  case injective =>
    intro i j hi hj h
    rw [size_withChild] at hi hj
    rw [trailAt_withChild, trailAt_withChild] at h
    split at h <;> split at h
    · omega
    · exact absurd h.symm (hfresh j (by omega))
    · exact absurd h (hfresh i (by omega))
    · exact tree.injective (by omega) (by omega) h
  case parent =>
    intro i hi hne
    rw [size_withChild] at hi
    by_cases hlast : i = nodes.size
    · have hnode : nodeAt (Dictionary.withChild nodes index c) i =
          Node.fresh (c :: trailAt nodes index) index := by
        rw [nodeAt_withChild, if_pos hlast]
      rw [trailAt_withChild, if_pos hlast, hnode]
      refine ⟨hlast ▸ hindex, c, ?_⟩
      rw [trailAt_withChild, if_neg (by simpa [Node.fresh] using hindex.ne)]
      rfl
    · have hparent : (nodeAt (Dictionary.withChild nodes index c) i).parent =
          (nodeAt nodes i).parent := by
        rw [nodeAt_withChild, if_neg hlast]
        split <;> rfl
      obtain ⟨hlt, d, htrail⟩ := tree.parent (show i < nodes.size by omega) hne
      rw [trailAt_withChild, if_neg hlast, hparent, trailAt_withChild, if_neg (by omega)]
      exact ⟨hlt, d, htrail⟩
  case mem_children =>
    intro i hi d j
    rw [size_withChild] at hi ⊢
    rw [nodeAt_withChild, trailAt_withChild, trailAt_withChild]
    by_cases hlast : i = nodes.size
    · -- below the new node there is nothing, so no node is longer than it by one
      have hnone : ∀ k, k < nodes.size → trailAt nodes k ≠ d :: c :: trailAt nodes index := by
        intro k hk htrail
        obtain ⟨m, hm, heq⟩ := tree.exists_suffix hk (htrail ▸ List.suffix_cons d _)
        exact hfresh m hm heq
      simp only [if_pos hlast, Node.fresh, List.not_mem_nil, false_iff, not_and]
      intro hj
      split
      · simp
      · exact hnone j (by omega)
    · have hi' : i < nodes.size := by omega
      have hold := tree.mem_children hi' d j
      rw [if_neg hlast, if_neg hlast]
      by_cases hchanged : i = index
      · subst hchanged
        rw [if_pos ⟨rfl, hi'⟩]
        simp only [List.mem_append, hold, List.mem_singleton, Prod.mk.injEq]
        by_cases hj : j = nodes.size
        · simp [hj, eq_comm]
        · rw [show j < nodes.size + 1 ↔ j < nodes.size by omega]
          simp [hj]
      · rw [if_neg (fun h => hchanged h.1), hold]
        by_cases hj : j = nodes.size
        · have hcons : ¬ trailAt nodes index = trailAt nodes i := fun h =>
            hchanged (tree.injective hindex hi' h).symm
          simp [hj, hcons]
        · rw [show j < nodes.size + 1 ↔ j < nodes.size by omega]
          simp [hj]

/-- Going one character further on leads to the node that is longer by it. -/
theorem addChild_spec {nodes : Array Node} (tree : IsTree nodes) {index : Nat}
    (hindex : index < nodes.size) (c : Char) :
    IsTree (addChild nodes index c).1 ∧ Grows nodes (addChild nodes index c).1 ∧
      (addChild nodes index c).2 < (addChild nodes index c).1.size ∧
      trailAt (addChild nodes index c).1 (addChild nodes index c).2 =
        c :: trailAt nodes index := by
  unfold addChild
  split
  next next hnext =>
    obtain ⟨hlt, htrail⟩ := (tree.child?_eq_some_iff hindex c next).1 hnext
    exact ⟨tree, Grows.refl nodes, hlt, htrail⟩
  next hnone =>
    change IsTree (withChild nodes index c) ∧ Grows nodes (withChild nodes index c) ∧
      nodes.size < (withChild nodes index c).size ∧
      trailAt (withChild nodes index c) nodes.size = c :: trailAt nodes index
    refine ⟨tree.withChild hindex hnone, grows_withChild nodes index c, ?_, ?_⟩
    · simp [size_withChild]
    · rw [trailAt_withChild, if_pos rfl]

theorem addPath_cons (matching : Matching) (nodes : Array Node) (index : Nat) (c : Char)
    (rest : Text) :
    addPath matching nodes index (c :: rest) =
      addPath matching (addChild nodes index (matching.fold c)).1
        (addChild nodes index (matching.fold c)).2 rest := rfl

/-- Going on along a text leads to the node that is longer by the folded text. -/
theorem addPath_spec {nodes : Array Node} (tree : IsTree nodes) (matching : Matching)
    {index : Nat} (hindex : index < nodes.size) (s : Text) :
    IsTree (addPath matching nodes index s).1 ∧ Grows nodes (addPath matching nodes index s).1 ∧
      (addPath matching nodes index s).2 < (addPath matching nodes index s).1.size ∧
      trailAt (addPath matching nodes index s).1 (addPath matching nodes index s).2 =
        (s.map matching.fold).reverse ++ trailAt nodes index := by
  induction s generalizing nodes index with
  | nil => exact ⟨tree, Grows.refl nodes, hindex, rfl⟩
  | cons c rest ih =>
      obtain ⟨htree, hgrows, hlt, htrail⟩ := addChild_spec tree hindex (matching.fold c)
      obtain ⟨htree', hgrows', hlt', htrail'⟩ := ih htree hlt
      rw [addPath_cons]
      refine ⟨htree', hgrows.trans hgrows', hlt', ?_⟩
      rw [htrail', htrail]
      simp

end Dictionary

end OdeModel
