import OdeModel.Proofs.Dictionary.Tree

/-!
# The links of a dictionary

Trails are written last character first, so an ending of a text is a beginning
of its trail, and a proper ending of a node is a beginning of its trail without
the last character. Both links of a node lead to the longest such ending, among
all nodes and among those where a keyword ends. Computing the links level by
level establishes this from links that are merely sound.
-/

namespace OdeModel

namespace Dictionary

/-- The node is the longest one with property `p` that is an ending of the text
with the given trail. -/
structure IsLongest (nodes : Array Node) (p : Nat → Prop) (trail : Text) (i : Nat) : Prop where
  lt_size : i < nodes.size
  holds : p i
  ending : trailAt nodes i <+: trail
  length_le : ∀ j, j < nodes.size → p j → trailAt nodes j <+: trail →
    (trailAt nodes j).length ≤ (trailAt nodes i).length

/-- Every node. -/
def AnyNode (_ : Nat) : Prop := True

/-- The root and the nodes where a keyword ends. -/
def Reported (nodes : Array Node) (i : Nat) : Prop :=
  i = 0 ∨ ((nodeAt nodes i).keyword).isSome = true

/-- Both links of a node lead where they should. -/
structure HasLinks (nodes : Array Node) (i : Nat) : Prop where
  shorter : IsLongest nodes AnyNode (trailAt nodes i).dropLast (nodeAt nodes i).shorter
  report : IsLongest nodes (Reported nodes) (trailAt nodes i).dropLast (nodeAt nodes i).report

/-- Both links of every node lead to proper endings of it, not necessarily to
the longest ones. -/
structure SoundLinks (nodes : Array Node) : Prop where
  shorter_lt : ∀ {i}, i < nodes.size → (nodeAt nodes i).shorter < nodes.size
  shorter : ∀ {i}, i < nodes.size →
    trailAt nodes (nodeAt nodes i).shorter <+: (trailAt nodes i).dropLast
  report_lt : ∀ {i}, i < nodes.size → (nodeAt nodes i).report < nodes.size
  report : ∀ {i}, i < nodes.size →
    trailAt nodes (nodeAt nodes i).report <+: (trailAt nodes i).dropLast

namespace IsLongest

variable {nodes : Array Node} {p : Nat → Prop} {trail : Text} {i : Nat}

theorem unique (tree : IsTree nodes) (h : IsLongest nodes p trail i) {j : Nat}
    (h' : IsLongest nodes p trail j) : i = j := by
  apply tree.injective h.lt_size h'.lt_size
  apply (List.prefix_of_prefix_length_le h.ending h'.ending _).eq_of_length
  · exact Nat.le_antisymm (h'.length_le i h.lt_size h.holds h.ending)
      (h.length_le j h'.lt_size h'.holds h'.ending)
  · exact h'.length_le i h.lt_size h.holds h.ending

/-- A node that is all of the text is the longest. -/
theorem of_eq (hi : i < nodes.size) (hp : p i) (h : trailAt nodes i = trail) :
    IsLongest nodes p trail i :=
  ⟨hi, hp, h ▸ List.prefix_rfl, fun _ _ _ hj => h ▸ hj.length_le⟩

/-- The root is the longest ending of the empty text. -/
theorem root (tree : IsTree nodes) (hp : p 0) : IsLongest nodes p [] 0 :=
  of_eq tree.size_pos hp tree.trail_root

theorem length_trailAt_le (h : IsLongest nodes p trail i) :
    (trailAt nodes i).length ≤ trail.length :=
  h.ending.length_le

/-- Reading one more character keeps the longest ending: it is the longest one
of the character and the longest ending so far. -/
theorem cons (tree : IsTree nodes) {c : Char} {next : Nat}
    (h : IsLongest nodes AnyNode trail i)
    (hnext : IsLongest nodes AnyNode (c :: trailAt nodes i) next) :
    IsLongest nodes AnyNode (c :: trail) next where
  lt_size := hnext.lt_size
  holds := trivial
  ending := hnext.ending.trans (List.cons_prefix_cons.2 ⟨rfl, h.ending⟩)
  length_le := by
    intro j hj _ hending
    rcases List.prefix_cons_iff.1 hending with hnil | ⟨shorter, hcons, hshorter⟩
    · simp [hnil]
    · obtain ⟨k, hk, htrail⟩ := tree.exists_suffix hj (hcons ▸ List.suffix_cons c shorter)
      have hle := h.length_le k hk trivial (htrail ▸ hshorter)
      have hinside : shorter <+: trailAt nodes i :=
        List.prefix_of_prefix_length_le hshorter h.ending (htrail ▸ hle)
      refine hnext.length_le j hj trivial ?_
      rw [hcons]
      exact List.cons_prefix_cons.2 ⟨rfl, hinside⟩

end IsLongest

/-! ### Following the links -/

variable {nodes : Array Node}

/-- A beginning of a list that is not all of it is one of the list without its
last element. -/
theorem prefix_dropLast_of_ne {s t : Text} (h : s <+: t) (hne : s ≠ t) : s <+: t.dropLast := by
  have hlen : s.length < t.length :=
    lt_of_le_of_ne h.length_le fun heq => hne (h.eq_of_length heq)
  refine List.prefix_of_prefix_length_le h (List.dropLast_prefix t) ?_
  rw [List.length_dropLast]
  omega

theorem length_lt_of_prefix_dropLast {s t : Text} (hne : t ≠ []) (h : s <+: t.dropLast) :
    s.length < t.length := by
  have hle := h.length_le
  have hpos := List.length_pos_iff.2 hne
  rw [List.length_dropLast] at hle
  omega

/-- Advancing leads to an ending of the text that is longer by the character, as long
as the links lead to endings. -/
theorem advance_ending (tree : IsTree nodes) (sound : SoundLinks nodes) (c : Char) (fuel : Nat)
    {index : Nat} (hindex : index < nodes.size) :
    advance nodes c fuel index < nodes.size ∧
      trailAt nodes (advance nodes c fuel index) <+: c :: trailAt nodes index := by
  have hroot : trailAt nodes 0 <+: c :: trailAt nodes index := tree.trail_root ▸ List.nil_prefix
  induction fuel generalizing index with
  | zero => exact ⟨tree.size_pos, hroot⟩
  | succ fuel ih =>
      unfold advance
      split
      next next hnext =>
        obtain ⟨hlt, htrail⟩ := (tree.child?_eq_some_iff hindex c next).1 hnext
        exact ⟨hlt, htrail ▸ List.prefix_rfl⟩
      next =>
        split
        next => exact ⟨tree.size_pos, hroot⟩
        next =>
          have hlt := sound.shorter_lt hindex
          obtain ⟨hsize, hending⟩ := ih hlt (tree.trail_root ▸ List.nil_prefix)
          refine ⟨hsize, hending.trans (List.cons_prefix_cons.2 ⟨rfl, ?_⟩)⟩
          exact (sound.shorter hindex).trans (List.dropLast_prefix _)

/-- Advancing leads to the longest ending of the text that is longer by the
character, when the links of the nodes up to this depth are right. -/
theorem isLongest_advance (tree : IsTree nodes) (c : Char) {fuel index : Nat}
    (hindex : index < nodes.size) (hfuel : (trailAt nodes index).length < fuel)
    (hlinks : ∀ i, i < nodes.size → (trailAt nodes i).length ≤ (trailAt nodes index).length →
      IsLongest nodes AnyNode (trailAt nodes i).dropLast (nodeAt nodes i).shorter) :
    IsLongest nodes AnyNode (c :: trailAt nodes index) (advance nodes c fuel index) := by
  induction fuel generalizing index with
  | zero => omega
  | succ fuel ih =>
      unfold advance
      split
      next next hnext =>
        obtain ⟨hlt, htrail⟩ := (tree.child?_eq_some_iff hindex c next).1 hnext
        exact IsLongest.of_eq hlt trivial htrail
      next hnone =>
        have hnochild := (tree.child?_eq_none_iff hindex c).1 hnone
        split
        next hzero =>
          subst hzero
          refine ⟨tree.size_pos, trivial, tree.trail_root ▸ List.nil_prefix, ?_⟩
          intro j hj _ hending
          rw [tree.trail_root] at hending ⊢
          have hne : trailAt nodes j ≠ [c] := by
            have := hnochild j hj
            rwa [tree.trail_root] at this
          have := (prefix_dropLast_of_ne hending hne).length_le
          simpa using this
        next hnonzero =>
          have hshorter := hlinks index hindex (Nat.le_refl _)
          have hpos := tree.trailAt_ne_nil hindex hnonzero
          have hlt := length_lt_of_prefix_dropLast hpos hshorter.ending
          have hnext := hshorter.cons tree (ih hshorter.lt_size (by omega)
            (fun i hi hle => hlinks i hi (hle.trans hlt.le)))
          refine ⟨hnext.lt_size, trivial, hnext.ending.trans ?_, ?_⟩
          · exact List.cons_prefix_cons.2 ⟨rfl, List.dropLast_prefix _⟩
          · intro j hj _ hending
            have hne : trailAt nodes j ≠ c :: trailAt nodes index := hnochild j hj
            have hproper := prefix_dropLast_of_ne hending hne
            rw [List.dropLast_cons_of_ne_nil hpos] at hproper
            exact hnext.length_le j hj trivial hproper

/-- The nearest keyword is the longest one that is an ending of the node, when
the links of the nodes up to this depth are right. -/
theorem isLongest_nearestKeyword (tree : IsTree nodes) {fuel index : Nat}
    (hindex : index < nodes.size) (hfuel : (trailAt nodes index).length < fuel)
    (hlinks : ∀ i, i < nodes.size → (trailAt nodes i).length ≤ (trailAt nodes index).length →
      IsLongest nodes AnyNode (trailAt nodes i).dropLast (nodeAt nodes i).shorter) :
    IsLongest nodes (Reported nodes) (trailAt nodes index) (nearestKeyword nodes fuel index) := by
  induction fuel generalizing index with
  | zero => omega
  | succ fuel ih =>
      unfold nearestKeyword
      split
      next hzero =>
        subst hzero
        exact IsLongest.of_eq tree.size_pos (Or.inl rfl) rfl
      next hnonzero =>
        split
        next hkeyword => exact IsLongest.of_eq hindex (Or.inr hkeyword) rfl
        next hkeyword =>
          have hshorter := hlinks index hindex (Nat.le_refl _)
          have hlt := length_lt_of_prefix_dropLast (tree.trailAt_ne_nil hindex hnonzero)
            hshorter.ending
          have hnear := ih hshorter.lt_size (by omega)
            (fun i hi hle => hlinks i hi (hle.trans hlt.le))
          refine ⟨hnear.lt_size, hnear.holds,
            (hnear.ending.trans hshorter.ending).trans (List.dropLast_prefix _), ?_⟩
          intro j hj hreported hending
          -- the node itself is no keyword, so what remains are its proper endings
          have hne : trailAt nodes j ≠ trailAt nodes index := by
            intro h
            have hsame := tree.injective hj hindex h
            subst hsame
            rcases hreported with hzero | hsome
            · exact hnonzero hzero
            · exact hkeyword hsome
          have hproper := prefix_dropLast_of_ne hending hne
          have hle := hshorter.length_le j hj trivial hproper
          exact hnear.length_le j hj hreported
            (List.prefix_of_prefix_length_le hproper hshorter.ending hle)

/-! ### Computing the links of one node -/

/-- Only links differ. -/
structure Relinks (old new : Array Node) : Prop where
  size_eq : new.size = old.size
  trail : ∀ i, trailAt new i = trailAt old i
  parent : ∀ i, (nodeAt new i).parent = (nodeAt old i).parent
  children : ∀ i, (nodeAt new i).children = (nodeAt old i).children
  keyword : ∀ i, (nodeAt new i).keyword = (nodeAt old i).keyword

namespace Relinks

variable {old new : Array Node}

theorem refl (nodes : Array Node) : Relinks nodes nodes :=
  ⟨rfl, fun _ => rfl, fun _ => rfl, fun _ => rfl, fun _ => rfl⟩

theorem trans {third : Array Node} (h : Relinks old new) (h' : Relinks new third) :
    Relinks old third where
  size_eq := h'.size_eq.trans h.size_eq
  trail := fun i => (h'.trail i).trans (h.trail i)
  parent := fun i => (h'.parent i).trans (h.parent i)
  children := fun i => (h'.children i).trans (h.children i)
  keyword := fun i => (h'.keyword i).trans (h.keyword i)

theorem isTree (h : Relinks old new) (tree : IsTree old) : IsTree new :=
  tree.congr h.size_eq h.trail h.parent h.children

/-- Which node is the longest ending does not depend on links. -/
theorem isLongest (h : Relinks old new) {p q : Nat → Prop} (hpq : ∀ i, q i ↔ p i)
    {trail : Text} {i : Nat} (hlongest : IsLongest old p trail i) : IsLongest new q trail i where
  lt_size := h.size_eq ▸ hlongest.lt_size
  holds := (hpq i).2 hlongest.holds
  ending := h.trail i ▸ hlongest.ending
  length_le := by
    intro j hj hq hending
    rw [h.trail] at hending ⊢
    rw [h.trail]
    exact hlongest.length_le j (h.size_eq ▸ hj) ((hpq j).1 hq) hending

theorem reported_iff (h : Relinks old new) (i : Nat) : Reported new i ↔ Reported old i := by
  rw [Reported, Reported, h.keyword]

/-- A node with the same links has right links again. -/
theorem hasLinks (h : Relinks old new) {i : Nat} (hlinks : HasLinks old i)
    (hshorter : (nodeAt new i).shorter = (nodeAt old i).shorter)
    (hreport : (nodeAt new i).report = (nodeAt old i).report) : HasLinks new i where
  shorter := by
    rw [h.trail, hshorter]
    exact h.isLongest (fun _ => Iff.rfl) hlinks.shorter
  report := by
    rw [h.trail, hreport]
    exact h.isLongest h.reported_iff hlinks.report

end Relinks

theorem relinks_relinkNode (nodes : Array Node) (index : Nat) :
    Relinks nodes (relinkNode nodes index) := by
  constructor
  case size_eq => simp [relinkNode]
  all_goals
    intro i
    simp only [relinkNode, trailAt, nodeAt_modify]
    split <;> rfl

theorem relinks_foldl_relinkNode (level : List Nat) (nodes : Array Node) :
    Relinks nodes (level.foldl relinkNode nodes) := by
  induction level generalizing nodes with
  | nil => exact Relinks.refl nodes
  | cons index rest ih => exact (relinks_relinkNode nodes index).trans (ih _)

theorem nodeAt_relinkNode_of_ne {index i : Nat} (h : i ≠ index) :
    nodeAt (relinkNode nodes index) i = nodeAt nodes i := by
  rw [relinkNode, nodeAt_modify, if_neg fun hi => h hi.1]

theorem nodeAt_relinkNode_self {index : Nat} (hindex : index < nodes.size) :
    nodeAt (relinkNode nodes index) index =
      { nodeAt nodes index with
        shorter := shorterOf nodes (nodeAt nodes index)
        report := nearestKeyword nodes (nodeAt nodes index).depth
          (shorterOf nodes (nodeAt nodes index)) } := by
  rw [relinkNode, nodeAt_modify, if_pos ⟨rfl, hindex⟩]

/-- All nodes above a level have right links. -/
def LinkedAbove (nodes : Array Node) (level : Nat) : Prop :=
  ∀ i, i < nodes.size → (trailAt nodes i).length < level → HasLinks nodes i

/-- The link of a node to its longest proper ending, once the nodes above have
theirs. A sound link that is just one character shorter is already the longest. -/
theorem isLongest_shorterOf (tree : IsTree nodes) (hsound : SoundLinks nodes) {index : Nat}
    (hindex : index < nodes.size)
    (habove : LinkedAbove nodes (trailAt nodes index).length) :
    IsLongest nodes AnyNode (trailAt nodes index).dropLast
      (shorterOf nodes (nodeAt nodes index)) := by
  have hold := hsound.shorter hindex
  unfold shorterOf
  split
  next hfar =>
    have hfar : (trailAt nodes (nodeAt nodes index).shorter).length + 1 <
        (trailAt nodes index).length := hfar
    have hnonzero : index ≠ 0 := by
      rintro rfl
      simp [tree.trail_root] at hfar
    obtain ⟨hparent, c, htrail⟩ := tree.parent hindex hnonzero
    have hparentlt := hparent.trans hindex
    have hlen : (trailAt nodes index).length =
        (trailAt nodes (nodeAt nodes index).parent).length + 1 := by simp [htrail]
    have hne : trailAt nodes (nodeAt nodes index).parent ≠ [] := by
      intro hnil
      simp only [hnil, List.length_nil] at hlen
      omega
    have hup := (habove _ hparentlt (by omega)).shorter
    have hlt := length_lt_of_prefix_dropLast hne hup.ending
    have hnext := hup.cons tree (isLongest_advance tree c hup.lt_size
      (show _ < (trailAt nodes index).length by omega)
      fun i hi hle => (habove i hi (by omega)).shorter)
    rw [← List.dropLast_cons_of_ne_nil hne, ← htrail] at hnext
    rw [show (nodeAt nodes index).trail = c :: trailAt nodes (nodeAt nodes index).parent
      from htrail]
    exact hnext
  next hnear =>
    have hnear : ¬ (trailAt nodes (nodeAt nodes index).shorter).length + 1 <
        (trailAt nodes index).length := hnear
    refine IsLongest.of_eq (hsound.shorter_lt hindex) trivial (hold.eq_of_length ?_)
    have hle := hold.length_le
    rw [List.length_dropLast] at hle ⊢
    omega

/-- Computing the links of a node makes them right, once the nodes above have
right ones. -/
theorem hasLinks_relinkNode_self (tree : IsTree nodes) (hsound : SoundLinks nodes)
    {index : Nat} (hindex : index < nodes.size) (hnonzero : index ≠ 0)
    (habove : LinkedAbove nodes (trailAt nodes index).length) :
    HasLinks (relinkNode nodes index) index := by
  have hrelinks := relinks_relinkNode nodes index
  have hshorter := isLongest_shorterOf tree hsound hindex habove
  have hlt := length_lt_of_prefix_dropLast (tree.trailAt_ne_nil hindex hnonzero) hshorter.ending
  have hnear := isLongest_nearestKeyword tree hshorter.lt_size
    (show _ < (nodeAt nodes index).depth from hlt)
    fun i hi hle => (habove i hi (by omega)).shorter
  constructor
  · rw [hrelinks.trail, nodeAt_relinkNode_self hindex]
    exact hrelinks.isLongest (fun _ => Iff.rfl) hshorter
  · rw [hrelinks.trail, nodeAt_relinkNode_self hindex]
    refine hrelinks.isLongest hrelinks.reported_iff ⟨hnear.lt_size, hnear.holds,
      hnear.ending.trans hshorter.ending, ?_⟩
    intro j hj hreported hending
    have hle := hshorter.length_le j hj trivial hending
    exact hnear.length_le j hj hreported
      (List.prefix_of_prefix_length_le hending hshorter.ending hle)

theorem HasLinks.relinkNode (tree : IsTree nodes) (hsound : SoundLinks nodes) {index : Nat}
    (hindex : index < nodes.size) (hnonzero : index ≠ 0)
    (habove : LinkedAbove nodes (trailAt nodes index).length) {i : Nat}
    (hlinks : HasLinks nodes i) : HasLinks (relinkNode nodes index) i := by
  by_cases hsame : i = index
  · subst hsame
    exact hasLinks_relinkNode_self tree hsound hindex hnonzero habove
  · apply (relinks_relinkNode nodes index).hasLinks hlinks <;>
      rw [nodeAt_relinkNode_of_ne hsame]

theorem SoundLinks.relinkNode (tree : IsTree nodes) (hsound : SoundLinks nodes) {index : Nat}
    (hindex : index < nodes.size) (hnonzero : index ≠ 0)
    (habove : LinkedAbove nodes (trailAt nodes index).length) :
    SoundLinks (relinkNode nodes index) := by
  have hrelinks := relinks_relinkNode nodes index
  have hself := hasLinks_relinkNode_self tree hsound hindex hnonzero habove
  have hcases : ∀ i, i < (Dictionary.relinkNode nodes index).size → i = index ∨
      (i < nodes.size ∧ nodeAt (Dictionary.relinkNode nodes index) i = nodeAt nodes i) := by
    intro i hi
    by_cases hsame : i = index
    · exact Or.inl hsame
    · exact Or.inr ⟨hrelinks.size_eq ▸ hi, nodeAt_relinkNode_of_ne hsame⟩
  constructor
  · intro i hi
    rcases hcases i hi with rfl | ⟨hi', hnode⟩
    · exact hself.shorter.lt_size
    · rw [hnode, hrelinks.size_eq]
      exact hsound.shorter_lt hi'
  · intro i hi
    rcases hcases i hi with rfl | ⟨hi', hnode⟩
    · exact hself.shorter.ending
    · rw [hnode, hrelinks.trail, hrelinks.trail]
      exact hsound.shorter hi'
  · intro i hi
    rcases hcases i hi with rfl | ⟨hi', hnode⟩
    · exact hself.report.lt_size
    · rw [hnode, hrelinks.size_eq]
      exact hsound.report_lt hi'
  · intro i hi
    rcases hcases i hi with rfl | ⟨hi', hnode⟩
    · exact hself.report.ending
    · rw [hnode, hrelinks.trail, hrelinks.trail]
      exact hsound.report hi'

/-! ### Level by level -/

/-- The nodes of a level are those with that many characters. -/
def IsLevel (nodes : Array Node) (depth : Nat) (level : List Nat) : Prop :=
  ∀ i, i ∈ level ↔ i < nodes.size ∧ (trailAt nodes i).length = depth

theorem isLevel_nextLevel (tree : IsTree nodes) {depth : Nat} {level : List Nat}
    (hlevel : IsLevel nodes depth level) : IsLevel nodes (depth + 1) (nextLevel nodes level) := by
  intro i
  simp only [nextLevel, List.mem_flatMap, List.mem_map, Prod.exists, exists_eq_right]
  constructor
  · rintro ⟨j, hj, c, hmem⟩
    obtain ⟨hjlt, hdepth⟩ := (hlevel j).1 hj
    obtain ⟨hi, htrail⟩ := (tree.mem_children hjlt c i).1 hmem
    exact ⟨hi, by simp [htrail, hdepth]⟩
  · rintro ⟨hi, hdepth⟩
    have hnonzero : i ≠ 0 := by
      rintro rfl
      simp [tree.trail_root] at hdepth
    obtain ⟨hparent, c, htrail⟩ := tree.parent hi hnonzero
    have hparentlt := hparent.trans hi
    refine ⟨_, (hlevel _).2 ⟨hparentlt, ?_⟩, c, (tree.mem_children hparentlt c i).2 ⟨hi, htrail⟩⟩
    simpa [htrail] using hdepth

theorem Relinks.isLevel {old new : Array Node} (h : Relinks old new) {depth : Nat}
    {level : List Nat} (hlevel : IsLevel old depth level) : IsLevel new depth level := by
  intro i
  rw [h.size_eq, h.trail]
  exact hlevel i

/-- What computing links keeps while the nodes above a level are done. -/
structure Linking (start nodes : Array Node) (depth : Nat) : Prop where
  relinks : Relinks start nodes
  tree : IsTree nodes
  sound : SoundLinks nodes
  above : LinkedAbove nodes depth

/-- One node of the level keeps what is done and finishes that node. -/
theorem Linking.relinkNode {start : Array Node} {depth : Nat} (h : Linking start nodes depth)
    {index : Nat} (hindex : index < nodes.size) (hdepth : (trailAt nodes index).length = depth)
    (hpos : 0 < depth) :
    Linking start (relinkNode nodes index) depth ∧
      (∀ i, HasLinks nodes i → HasLinks (relinkNode nodes index) i) ∧
      HasLinks (relinkNode nodes index) index := by
  subst hdepth
  have hnonzero : index ≠ 0 := by
    rintro rfl
    simp [h.tree.trail_root] at hpos
  have hrelinks := relinks_relinkNode nodes index
  refine ⟨⟨h.relinks.trans hrelinks, hrelinks.isTree h.tree,
    h.sound.relinkNode h.tree hindex hnonzero h.above, ?_⟩,
    fun i => HasLinks.relinkNode h.tree h.sound hindex hnonzero h.above,
    hasLinks_relinkNode_self h.tree h.sound hindex hnonzero h.above⟩
  intro i hi hlt
  rw [hrelinks.size_eq] at hi
  rw [hrelinks.trail] at hlt
  exact (h.above i hi hlt).relinkNode h.tree h.sound hindex hnonzero h.above

/-- All nodes of a level are finished by computing their links one by one. -/
theorem Linking.foldl_relinkNode {start : Array Node} {depth : Nat} {level : List Nat}
    (h : Linking start nodes depth) (hpos : 0 < depth)
    (hlevel : ∀ i ∈ level, i < nodes.size ∧ (trailAt nodes i).length = depth) :
    Linking start (level.foldl Dictionary.relinkNode nodes) depth ∧
      (∀ i, HasLinks nodes i → HasLinks (level.foldl Dictionary.relinkNode nodes) i) ∧
      ∀ i ∈ level, HasLinks (level.foldl Dictionary.relinkNode nodes) i := by
  induction level generalizing nodes with
  | nil => exact ⟨h, fun _ hi => hi, by simp⟩
  | cons index rest ih =>
      obtain ⟨hindex, hdepth⟩ := hlevel index List.mem_cons_self
      obtain ⟨hnext, hkeep, hself⟩ := h.relinkNode hindex hdepth hpos
      -- links change no trail, so the others are still on this level
      have hrelinks := relinks_relinkNode nodes index
      have hrest : ∀ i ∈ rest, i < (Dictionary.relinkNode nodes index).size ∧
          (trailAt (Dictionary.relinkNode nodes index) i).length = depth := by
        intro i hi
        rw [hrelinks.size_eq, hrelinks.trail]
        exact hlevel i (List.mem_cons_of_mem _ hi)
      obtain ⟨hlast, hkeep', hall⟩ := ih hnext hrest
      refine ⟨hlast, fun i hi => hkeep' i (hkeep i hi), ?_⟩
      intro i hi
      rcases List.mem_cons.1 hi with rfl | hi
      · exact hkeep' i hself
      · exact hall i hi

/-- Levels that follow each other down to the last one finish all nodes. -/
theorem Linking.relinkLevels {start : Array Node} {depth fuel : Nat} {level : List Nat}
    (h : Linking start nodes depth) (hpos : 0 < depth) (hlevel : IsLevel nodes depth level)
    (hfuel : nodes.size < fuel + depth) :
    Relinks start (relinkLevels fuel nodes level) ∧
      SoundLinks (Dictionary.relinkLevels fuel nodes level) ∧
      ∀ i, i < (Dictionary.relinkLevels fuel nodes level).size →
        HasLinks (Dictionary.relinkLevels fuel nodes level) i := by
  induction fuel generalizing nodes depth level with
  | zero =>
      refine ⟨h.relinks, h.sound, fun i hi => h.above i hi ?_⟩
      have : (trailAt nodes i).length ≤ i := h.tree.length_trailAt_le hi
      have : i < nodes.size := hi
      omega
  | succ fuel ih =>
      unfold Dictionary.relinkLevels
      split
      next hempty =>
        refine ⟨h.relinks, h.sound, fun i hi => h.above i hi ?_⟩
        -- a deeper node would have one of this level above it
        by_contra hdeep
        obtain ⟨j, hj, htrail⟩ := h.tree.exists_suffix hi
          (List.drop_suffix ((trailAt nodes i).length - depth) (trailAt nodes i))
        have hmem : j ∈ level := by
          refine (hlevel j).2 ⟨hj, ?_⟩
          rw [htrail, List.length_drop]
          omega
        rw [List.isEmpty_iff.1 hempty] at hmem
        exact List.not_mem_nil hmem
      next =>
        obtain ⟨hlinked, hkeep, hall⟩ :=
          h.foldl_relinkNode hpos fun i hi => (hlevel i).1 hi
        have hrelinks : Relinks nodes (level.foldl Dictionary.relinkNode nodes) :=
          relinks_foldl_relinkNode level nodes
        have hlevel' := hrelinks.isLevel hlevel
        refine ih ⟨hlinked.relinks, hlinked.tree, hlinked.sound, ?_⟩ (Nat.succ_pos _)
          (isLevel_nextLevel hlinked.tree hlevel') ?_
        · intro i hi hlt
          rcases Nat.lt_succ_iff_lt_or_eq.1 hlt with hlt | heq
          · exact hlinked.above i hi hlt
          · exact hall i ((hlevel' i).2 ⟨hi, heq⟩)
        · rw [hrelinks.size_eq]
          omega

end Dictionary

end OdeModel
