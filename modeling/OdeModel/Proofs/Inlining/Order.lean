import OdeModel.Inlining.Order
import OdeModel.Proofs.Steps
import Mathlib.Data.List.Infix
import Mathlib.Data.List.Perm.Subperm
import Mathlib.Logic.Relation

/-!
# The order of dependence is topological

The search lists every definition once, behind all that it refers to, and it fails
just when some definition refers to itself over others; it then names such a one.
-/

namespace OdeModel

namespace Dependency

/-- The first definition refers to the second one. -/
def Refers (references : Nat → List Nat) (index next : Nat) : Prop := next ∈ references index

/-- Every listed definition is new and stands behind all that it refers to, when
those in `done` stand before the list. -/
def InOrder (references : Nat → List Nat) : (done list : List Nat) → Prop
  | _, [] => True
  | done, index :: later =>
      index ∉ done ∧ (∀ next ∈ references index, next ∈ done) ∧
        InOrder references (done ++ [index]) later

variable {references : Nat → List Nat}

namespace InOrder

theorem append_iff {done first second : List Nat} :
    InOrder references done (first ++ second) ↔
      InOrder references done first ∧ InOrder references (done ++ first) second := by
  induction first generalizing done with
  | nil => simp [InOrder]
  | cons index first ih => simp [InOrder, ih, and_assoc]

theorem concat_iff {done : List Nat} {index : Nat} :
    InOrder references [] (done ++ [index]) ↔
      InOrder references [] done ∧ index ∉ done ∧ ∀ next ∈ references index, next ∈ done := by
  rw [append_iff]
  simp [InOrder]

theorem nodup_append {done list : List Nat} (hdone : done.Nodup)
    (h : InOrder references done list) : (done ++ list).Nodup := by
  induction list generalizing done with
  | nil => simpa using hdone
  | cons index later ih =>
      obtain ⟨hnew, -, hlater⟩ := h
      have hnodup : (done ++ [index]).Nodup := by
        rw [List.nodup_append]
        refine ⟨hdone, by simp, ?_⟩
        intro other hother last hlast heq
        rw [List.mem_singleton] at hlast
        exact hnew (hlast ▸ heq ▸ hother)
      simpa using ih hnodup hlater

theorem nodup {list : List Nat} (h : InOrder references [] list) : list.Nodup := by
  simpa using h.nodup_append List.nodup_nil

/-- What a listed definition refers to, directly or over others, stands before it. -/
theorem mem_of_transGen {before after : List Nat} {index next : Nat}
    (h : InOrder references [] (before ++ index :: after))
    (hrefers : Relation.TransGen (Refers references) index next) : next ∈ before := by
  induction hrefers using Relation.TransGen.head_induction_on generalizing before after with
  | single hnext => exact (append_iff.1 h).2.2.1 _ hnext
  | head hfirst _ ih =>
      have hmem := (append_iff.1 h).2.2.1 _ hfirst
      obtain ⟨start, stop, rfl⟩ := List.append_of_mem hmem
      rw [List.append_assoc, List.cons_append] at h
      exact List.mem_append_left _ (ih h)

/-- No definition in an order refers to itself over others. -/
theorem not_transGen_self {list : List Nat} (h : InOrder references [] list) {index : Nat}
    (hmem : index ∈ list) : ¬ Relation.TransGen (Refers references) index index := by
  intro hcycle
  obtain ⟨before, after, rfl⟩ := List.append_of_mem hmem
  have hbefore := h.mem_of_transGen hcycle
  have hnodup := h.nodup
  rw [List.nodup_append] at hnodup
  exact hnodup.2.2 index hbefore index List.mem_cons_self rfl

/-- What holds of a definition when it holds of all that it refers to holds of every
listed one. -/
theorem induction {p : Nat → Prop} {done list : List Nat} (h : InOrder references done list)
    (hdone : ∀ index ∈ done, p index)
    (step : ∀ index ∈ list, (∀ next ∈ references index, p next) → p index) :
    ∀ index ∈ list, p index := by
  induction list generalizing done with
  | nil => simp
  | cons index later ih =>
      obtain ⟨-, hrefs, hlater⟩ := h
      have hindex : p index :=
        step index List.mem_cons_self fun next hnext => hdone next (hrefs next hnext)
      rw [List.forall_mem_cons]
      refine ⟨hindex, ih hlater ?_ fun other hother => step other (List.mem_cons_of_mem _ hother)⟩
      intro other hother
      rcases List.mem_append.1 hother with hother | hother
      · exact hdone other hother
      · rw [List.mem_singleton.1 hother]
        exact hindex

/-- All that a listed definition refers to is listed. -/
theorem mem_of_refers {list : List Nat} (h : InOrder references [] list) {index next : Nat}
    (hmem : index ∈ list) (hnext : next ∈ references index) : next ∈ list := by
  obtain ⟨before, after, rfl⟩ := List.append_of_mem hmem
  exact List.mem_append_left _ ((append_iff.1 h).2.2.1 next hnext)

/-- What a step keeps for a new definition when all that it refers to is done is kept by the
steps for all listed definitions. -/
theorem foldlM {ε σ : Type} {step : σ → Nat → Except ε σ} {p : List Nat → σ → Prop}
    {done list : List Nat} (h : InOrder references done list)
    (hstep : ∀ index ∈ list, ∀ done state state', index ∉ done →
      (∀ next ∈ references index, next ∈ done) → p done state →
        step state index = .ok state' → p (done ++ [index]) state')
    {state state' : σ} (hp : p done state) (hstate : list.foldlM step state = .ok state') :
    p (done ++ list) state' := by
  induction list generalizing done state with
  | nil =>
      rw [List.foldlM_nil, pure_eq_ok_iff] at hstate
      simpa [← hstate] using hp
  | cons index later ih =>
      obtain ⟨hnew, hrefs, hlater⟩ := h
      rw [List.foldlM_cons, bind_eq_ok_iff] at hstate
      obtain ⟨middle, hfirst, hstate⟩ := hstate
      have hmiddle := hstep index List.mem_cons_self done state middle hnew hrefs hp hfirst
      have hrest := ih hlater (fun other hother => hstep other (List.mem_cons_of_mem _ hother))
        hmiddle hstate
      simpa using hrest

/-- The run over an order succeeds when each step does for a new definition all of whose
references are done, and keeps what such steps keep. -/
theorem exists_foldlM {ε σ : Type} {step : σ → Nat → Except ε σ} {p : List Nat → σ → Prop}
    {done list : List Nat} (h : InOrder references done list)
    (hstep : ∀ index ∈ list, ∀ done state, index ∉ done →
      (∀ next ∈ references index, next ∈ done) → p done state →
        ∃ state', step state index = .ok state' ∧ p (done ++ [index]) state')
    {state : σ} (hp : p done state) :
    ∃ state', list.foldlM step state = .ok state' ∧ p (done ++ list) state' := by
  induction list generalizing done state with
  | nil => exact ⟨state, rfl, by rwa [List.append_nil]⟩
  | cons index later ih =>
      obtain ⟨hnew, hrefs, hlater⟩ := h
      rw [List.forall_mem_cons] at hstep
      obtain ⟨next, hnext, hp'⟩ := hstep.1 done state hnew hrefs hp
      obtain ⟨state', hrest, hp''⟩ := ih hlater hstep.2 hp'
      refine ⟨state', ?_, by rwa [List.append_assoc] at hp''⟩
      rw [List.foldlM_cons, bind_eq_ok_iff]
      exact ⟨next, hnext, hrest⟩

end InOrder

/-! ### The search -/

/-- The finished definitions of a search: an order that holds none of the
unfinished ones. -/
structure Finished (references : Nat → List Nat) (count : Nat) (path done : List Nat) : Prop where
  inOrder : InOrder references [] done
  lt_count : ∀ index ∈ done, index < count
  disjoint : ∀ index ∈ path, index ∉ done

/-- What going to some definitions comes to: all of them are finished, after those
that were finished before, or there is one that refers to itself over others. -/
def Visited (references : Nat → List Nat) (count : Nat) (path done targets : List Nat) :
    Except Nat (List Nat) → Prop
  | .ok finished => done <+: finished ∧ (∀ target ∈ targets, target ∈ finished) ∧
      Finished references count path finished
  | .error culprit => culprit < count ∧ Relation.TransGen (Refers references) culprit culprit

/-- Going to several definitions one after the other. -/
theorem visited_foldlM {count : Nat} {path : List Nat}
    (goto : List Nat → Nat → Except Nat (List Nat)) (targets : List Nat)
    (hgoto : ∀ target ∈ targets, ∀ done, Finished references count path done →
      Visited references count path done [target] (goto done target))
    {done : List Nat} (hdone : Finished references count path done) :
    Visited references count path done targets (targets.foldlM goto done) := by
  induction targets generalizing done with
  | nil => exact ⟨List.prefix_rfl, by simp, hdone⟩
  | cons target later ih =>
      have hfirst := hgoto target List.mem_cons_self done hdone
      rw [List.foldlM_cons]
      cases hvisit : goto done target with
      | error culprit =>
          rw [hvisit] at hfirst
          exact hfirst
      | ok finished =>
          rw [hvisit] at hfirst
          obtain ⟨hstarts, hmem, hfinished⟩ := hfirst
          have hrest := ih (fun next hnext => hgoto next (List.mem_cons_of_mem _ hnext)) hfinished
          change Visited references count path done (target :: later) (later.foldlM goto finished)
          cases hlater : later.foldlM goto finished with
          | error culprit =>
              rw [hlater] at hrest
              exact hrest
          | ok all =>
              rw [hlater] at hrest
              obtain ⟨hstarts', hmem', hall⟩ := hrest
              refine ⟨hstarts.trans hstarts', ?_, hall⟩
              rw [List.forall_mem_cons]
              exact ⟨hstarts'.subset (hmem target (List.mem_singleton.2 rfl)), hmem'⟩

/-- The definitions that led to the one that is visited next: they differ, each
refers to it over those after it, and there is fuel left for all others. -/
structure LeadsTo (references : Nat → List Nat) (count fuel : Nat) (path : List Nat)
    (index : Nat) : Prop where
  nodup : path.Nodup
  lt_count : ∀ earlier ∈ path, earlier < count
  enough : count < fuel + path.length
  refers : ∀ earlier ∈ path, Relation.TransGen (Refers references) earlier index

theorem LeadsTo.cons {count fuel : Nat} {path : List Nat} {index next : Nat}
    (h : LeadsTo references count (fuel + 1) path index) (hindex : index < count)
    (hnew : index ∉ path) (hnext : next ∈ references index) :
    LeadsTo references count fuel (index :: path) next where
  nodup := List.nodup_cons.2 ⟨hnew, h.nodup⟩
  lt_count := List.forall_mem_cons.2 ⟨hindex, h.lt_count⟩
  enough := by
    have := h.enough
    simp only [List.length_cons]
    omega
  refers := by
    rw [List.forall_mem_cons]
    exact ⟨Relation.TransGen.single hnext, fun earlier hearlier =>
      (h.refers earlier hearlier).tail hnext⟩

theorem LeadsTo.length_le {count fuel : Nat} {path : List Nat} {index : Nat}
    (h : LeadsTo references count fuel path index) : path.length ≤ count := by
  have hsub : path ⊆ List.range count := fun earlier hearlier =>
    List.mem_range.2 (h.lt_count earlier hearlier)
  simpa using (h.nodup.subperm hsub).length_le

theorem visit_spec {count : Nat} (hvalid : ∀ index, ∀ next ∈ references index, next < count)
    {fuel : Nat} {path done : List Nat} {index : Nat} (hindex : index < count)
    (hleads : LeadsTo references count fuel path index)
    (hdone : Finished references count path done) :
    Visited references count path done [index] (visit references fuel path done index) := by
  induction fuel generalizing path done index with
  | zero =>
      -- the fuel outlasts the path
      have hfuel := hleads.enough
      have hlength := hleads.length_le
      omega
  | succ fuel ih =>
      unfold visit
      split
      next hmem => exact ⟨List.prefix_rfl, by simpa using hmem, hdone⟩
      next hmem =>
        split
        next hcycle => exact ⟨hindex, hleads.refers index (by simpa using hcycle)⟩
        next hnew =>
          have hmem : index ∉ done := by simpa using hmem
          have hnew : index ∉ path := by simpa using hnew
          have hunfinished : Finished references count (index :: path) done :=
            ⟨hdone.inOrder, hdone.lt_count, List.forall_mem_cons.2 ⟨hmem, hdone.disjoint⟩⟩
          have hall := visited_foldlM (visit references fuel (index :: path)) (references index)
            (fun next hnext done hdone =>
              ih (hvalid index next hnext) (hleads.cons hindex hnew hnext) hdone) hunfinished
          cases hvisit : (references index).foldlM
              (fun done next => visit references fuel (index :: path) done next) done with
          | error culprit =>
              rw [hvisit] at hall
              exact hall
          | ok finished =>
              rw [hvisit] at hall
              obtain ⟨hstarts, hrefs, hfinished⟩ := hall
              -- the definition itself comes behind all that it refers to
              obtain ⟨hself, hothers⟩ := List.forall_mem_cons.1 hfinished.disjoint
              refine ⟨hstarts.trans (List.prefix_append _ _), by simp, ?_, ?_, ?_⟩
              · exact InOrder.concat_iff.2 ⟨hfinished.inOrder, hself, hrefs⟩
              · intro other hother
                rcases List.mem_append.1 hother with hother | hother
                · exact hfinished.lt_count other hother
                · rw [List.mem_singleton.1 hother]
                  exact hindex
              · intro earlier hearlier hother
                rcases List.mem_append.1 hother with hother | hother
                · exact hothers earlier hearlier hother
                · rw [List.mem_singleton.1 hother] at hearlier
                  exact hnew hearlier

/-- The search over all definitions finds an order of them, or one that refers to
itself over others. -/
theorem order_spec {count : Nat} (hvalid : ∀ index, ∀ next ∈ references index, next < count) :
    match order references count with
    | .ok list => InOrder references [] list ∧ list.Perm (List.range count)
    | .error culprit =>
        culprit < count ∧ Relation.TransGen (Refers references) culprit culprit := by
  have hempty : Finished references count [] [] := ⟨trivial, by simp, by simp⟩
  have hall := visited_foldlM (visit references (count + 1) []) (List.range count)
    (fun index hindex done hdone =>
      visit_spec hvalid (List.mem_range.1 hindex) ⟨List.nodup_nil, by simp, by simp, by simp⟩
        hdone) hempty
  unfold order
  cases hvisit : (List.range count).foldlM (visit references (count + 1) []) [] with
  | error culprit =>
      rw [hvisit] at hall
      exact hall
  | ok list =>
      rw [hvisit] at hall
      obtain ⟨-, hmem, hfinished⟩ := hall
      refine ⟨hfinished.inOrder, ?_⟩
      rw [List.perm_ext_iff_of_nodup hfinished.inOrder.nodup List.nodup_range]
      exact fun index => ⟨fun h => List.mem_range.2 (hfinished.lt_count index h), hmem index⟩

/-! ### Definitions -/

/-- The definitions that a definition refers to, by their numbers. -/
def referencesOf (references : Text → List Nat) (definitions : List Definition) (index : Nat) :
    List Nat :=
  match definitions[index]? with
  | none => []
  | some definition => references definition.expr

/-- The error that tells of a definition on a cycle. -/
def circularReference (definitions : List Definition) (index : Nat) : ModelError :=
  let culprit := definitions[index]?.getD ⟨0, [], [], []⟩
  .located .circularReference ⟨culprit.line, culprit.name ++ '=' :: culprit.expr, 0⟩

theorem ofDefinitions_eq (references : Text → List Nat) (definitions : List Definition) :
    ofDefinitions references definitions =
      (order (referencesOf references definitions) definitions.length).mapError
        (circularReference definitions) := by
  unfold ofDefinitions
  change (match order (referencesOf references definitions) definitions.length with
    | .ok indices => _
    | .error index => _) = _
  split
  next indices horder =>
    rw [horder]
    rfl
  next index horder =>
    rw [horder]
    rfl

end Dependency

end OdeModel
