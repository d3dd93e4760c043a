import OdeModel.Proofs.Inlining.Order

/-!
# The search for an order comes to its end

The search goes on from definition to definition with a bound on its depth. Without a bound
it would do the same: every definition that it enters is new on its path, so no path is
longer than the list of definitions. The order of dependence is what this search finds.
-/

namespace OdeModel

namespace Dependency

/-- Going to some definitions one after the other, each as deep as it takes: `path` holds the
unfinished definitions, `done` the finished ones, and the outcome is all that are finished in
the end or the definition that the search came back to. -/
inductive Explores (references : Nat → List Nat) :
    (path done targets : List Nat) → (outcome : Except Nat (List Nat)) → Prop
  /-- There is nowhere left to go. -/
  | nil (path done : List Nat) : Explores references path done [] (.ok done)
  /-- A finished definition is passed by. -/
  | pass {path done later : List Nat} {index : Nat} {outcome : Except Nat (List Nat)}
      (hdone : index ∈ done) (rest : Explores references path done later outcome) :
      Explores references path done (index :: later) outcome
  /-- The search is back at an unfinished definition. -/
  | back {path done later : List Nat} {index : Nat} (hdone : index ∉ done) (hpath : index ∈ path) :
      Explores references path done (index :: later) (.error index)
  /-- The search breaks off behind a new definition. -/
  | broken {path done later : List Nat} {index culprit : Nat} (hdone : index ∉ done)
      (hpath : index ∉ path)
      (inner : Explores references (index :: path) done (references index) (.error culprit)) :
      Explores references path done (index :: later) (.error culprit)
  /-- A new definition is finished after all that it refers to. -/
  | finish {path done finished later : List Nat} {index : Nat} {outcome : Except Nat (List Nat)}
      (hdone : index ∉ done) (hpath : index ∉ path)
      (inner : Explores references (index :: path) done (references index) (.ok finished))
      (rest : Explores references path (finished ++ [index]) later outcome) :
      Explores references path done (index :: later) outcome

variable {references : Nat → List Nat}

/-- A search has one outcome. -/
theorem Explores.unique {path done targets : List Nat} {outcome outcome' : Except Nat (List Nat)}
    (h : Explores references path done targets outcome)
    (h' : Explores references path done targets outcome') : outcome = outcome' := by
  induction h generalizing outcome' with
  | nil path done =>
      cases h'
      rfl
  | pass hdone rest ih =>
      cases h' with
      | pass _ rest' => exact ih rest'
      | back hdone' | broken hdone' | finish hdone' => exact absurd hdone hdone'
  | back hdone hpath =>
      cases h' with
      | pass hdone' => exact absurd hdone' hdone
      | back => rfl
      | broken _ hpath' | finish _ hpath' => exact absurd hpath hpath'
  | broken hdone hpath inner ih =>
      cases h' with
      | pass hdone' => exact absurd hdone' hdone
      | back _ hpath' => exact absurd hpath' hpath
      | broken _ _ inner' => exact ih inner'
      | finish _ _ inner' => cases ih inner'
  | finish hdone hpath inner rest ihinner ihrest =>
      cases h' with
      | pass hdone' => exact absurd hdone' hdone
      | back _ hpath' => exact absurd hpath' hpath
      | broken _ _ inner' => cases ihinner inner'
      | finish _ _ inner' rest' =>
          cases ihinner inner'
          exact ihrest rest'

/-- Going to one definition and on from there is going to all of them. -/
theorem Explores.cons {goto : List Nat → Nat → Except Nat (List Nat)} {path done later : List Nat}
    {index : Nat} (hfirst : Explores references path done [index] (goto done index))
    (hlater : ∀ finished, Explores references path finished later (later.foldlM goto finished)) :
    Explores references path done (index :: later) ((index :: later).foldlM goto done) := by
  rw [List.foldlM_cons]
  generalize goto done index = outcome at hfirst
  cases hfirst with
  | pass hdone rest =>
      cases rest
      exact .pass hdone (hlater done)
  | back hdone hpath => exact .back hdone hpath
  | broken hdone hpath inner => exact .broken hdone hpath inner
  | finish hdone hpath inner rest =>
      cases rest
      exact .finish hdone hpath inner (hlater _)

/-- The bound on the depth is never reached. -/
theorem explores_foldlM {count : Nat} (hvalid : ∀ index, ∀ next ∈ references index, next < count)
    {fuel : Nat} {path targets : List Nat}
    (htargets : ∀ target ∈ targets, target < count ∧ LeadsTo references count fuel path target)
    (done : List Nat) :
    Explores references path done targets (targets.foldlM (visit references fuel path) done) := by
  -- each definition that is entered takes one unit of fuel and makes the path longer
  induction fuel generalizing path targets done with
  | zero =>
      cases targets with
      | nil => exact .nil path done
      | cons target later =>
          obtain ⟨-, hleads⟩ := htargets target List.mem_cons_self
          have henough := hleads.enough
          have hlength := hleads.length_le
          omega
  | succ fuel ih =>
      induction targets generalizing done with
      | nil => exact .nil path done
      | cons index later ihlater =>
          obtain ⟨⟨hindex, hleads⟩, hlater⟩ := List.forall_mem_cons.1 htargets
          refine Explores.cons ?_ (ihlater hlater)
          unfold visit
          split
          next hmem =>
            exact .pass (by simpa using hmem) (.nil path done)
          next hmem =>
            have hmem : index ∉ done := by simpa using hmem
            split
            next hcycle => exact .back hmem (by simpa using hcycle)
            next hnew =>
              have hnew : index ∉ path := by simpa using hnew
              have hinner := @ih (index :: path) (references index)
                (fun next hnext =>
                  ⟨hvalid index next hnext, hleads.cons hindex hnew hnext⟩) done
              cases hvisit : (references index).foldlM
                  (fun done next => visit references fuel (index :: path) done next) done with
              | error culprit =>
                  rw [hvisit] at hinner
                  exact .broken hmem hnew hinner
              | ok finished =>
                  rw [hvisit] at hinner
                  exact .finish hmem hnew hinner (.nil path _)

/-- The search over all definitions comes to its end, with the order or the error. -/
theorem explores_iff_eq_order {count : Nat}
    (hvalid : ∀ index, ∀ next ∈ references index, next < count) {outcome : Except Nat (List Nat)} :
    Explores references [] [] (List.range count) outcome ↔ outcome = order references count := by
  have hends : Explores references [] [] (List.range count) (order references count) :=
    explores_foldlM hvalid (fun index hindex =>
      ⟨List.mem_range.1 hindex, List.nodup_nil, by simp, by simp, by simp⟩) []
  constructor
  · exact fun h => h.unique hends
  · rintro rfl
    exact hends

/-- There is an order just when no definition refers to itself over others. -/
theorem exists_order_iff {count : Nat}
    (hvalid : ∀ index, ∀ next ∈ references index, next < count) :
    (∃ list, order references count = .ok list) ↔
      ¬ ∃ index, Relation.TransGen (Refers references) index index := by
  have hspec := order_spec hvalid
  cases horder : order references count with
  | ok list =>
      rw [horder] at hspec
      obtain ⟨hinorder, hperm⟩ := hspec
      refine iff_of_true ⟨list, rfl⟩ ?_
      rintro ⟨index, hcycle⟩
      -- whatever lies on a cycle is referred to, so it is listed
      obtain ⟨last, -, hlast⟩ := Relation.TransGen.tail'_iff.1 hcycle
      have hmem := hperm.mem_iff.2 (List.mem_range.2 (hvalid last index hlast))
      exact hinorder.not_transGen_self hmem hcycle
  | error culprit =>
      rw [horder] at hspec
      exact iff_of_false (by simp) (not_not.2 ⟨culprit, hspec.2⟩)

/-- Looking for an order of definitions comes to its end, whatever valid numbers their
expressions refer to. It succeeds just when no definition refers to itself over others; then
every definition is listed once, behind all that it refers to. Otherwise the error tells of a
definition that does refer to itself. -/
theorem ofDefinitions_topological {references : Text → List Nat} {definitions : List Definition}
    (hvalid : ∀ definition ∈ definitions, ∀ next ∈ references definition.expr,
      next < definitions.length) :
    (∃ outcome, ofDefinitions references definitions =
        outcome.mapError (circularReference definitions) ∧
      ∀ other, Explores (referencesOf references definitions) [] []
        (List.range definitions.length) other ↔ other = outcome) ∧
    ((∃ list, ofDefinitions references definitions = .ok list) ↔
      ¬ ∃ index, Relation.TransGen (Refers (referencesOf references definitions)) index index) ∧
    (∀ list, ofDefinitions references definitions = .ok list →
      list.Perm (List.range definitions.length) ∧
        ∀ before index after, list = before ++ index :: after →
          ∀ next ∈ referencesOf references definitions index, next ∈ before) ∧
    ∀ error, ofDefinitions references definitions = .error error →
      ∃ index culprit, definitions[index]? = some culprit ∧
        Relation.TransGen (Refers (referencesOf references definitions)) index index ∧
        error = .located .circularReference
          ⟨culprit.line, culprit.name ++ '=' :: culprit.expr, 0⟩ := by
  have hnumbers : ∀ index, ∀ next ∈ referencesOf references definitions index,
      next < definitions.length := by
    intro index next hnext
    unfold referencesOf at hnext
    split at hnext
    next => exact absurd hnext List.not_mem_nil
    next definition hget => exact hvalid definition (List.mem_of_getElem? hget) next hnext
  have hspec := order_spec hnumbers
  refine ⟨⟨_, ofDefinitions_eq references definitions, fun _ => explores_iff_eq_order hnumbers⟩,
    ?_, fun list hlist => ?_, fun error herror => ?_⟩
  · rw [← exists_order_iff hnumbers]
    simp only [ofDefinitions_eq, mapError_eq_ok_iff]
  · rw [ofDefinitions_eq, mapError_eq_ok_iff] at hlist
    rw [hlist] at hspec
    obtain ⟨hinorder, hperm⟩ := hspec
    refine ⟨hperm, ?_⟩
    rintro before index after rfl
    exact (InOrder.append_iff.1 hinorder).2.2.1
  · rw [ofDefinitions_eq, mapError_eq_error_iff] at herror
    obtain ⟨index, horder, rfl⟩ := herror
    rw [horder] at hspec
    obtain ⟨hindex, hcycle⟩ := hspec
    have hget := List.getElem?_eq_getElem hindex
    exact ⟨index, definitions[index], hget, hcycle, by rw [circularReference, hget]; rfl⟩

/-- Definitions that refer to each other by the digits in their expressions. -/
def numbered : List Definition :=
  [⟨1, ['a'], "2+1".toList, []⟩, ⟨2, ['b'], ['2'], []⟩, ⟨3, ['c'], [], []⟩]

/-- The digits of an expression. -/
def numbersIn (expr : Text) : List Nat :=
  (expr.filter Char.isDigit).map fun c => c.toNat - '0'.toNat

theorem ofDefinitions_topological_digits :
    (∀ definition ∈ numbered, ∀ next ∈ numbersIn definition.expr, next < numbered.length) ∧
    ofDefinitions numbersIn numbered = .ok [2, 1, 0] ∧ [2, 1, 0].Perm (List.range 3) ∧
    ¬ ∃ index, Relation.TransGen (Refers (referencesOf numbersIn numbered)) index index := by
  have hvalid : ∀ definition ∈ numbered, ∀ next ∈ numbersIn definition.expr,
      next < numbered.length := by decide
  have hresult : ofDefinitions numbersIn numbered = .ok [2, 1, 0] := by rfl
  obtain ⟨-, hexists, hordered, -⟩ := ofDefinitions_topological hvalid
  exact ⟨hvalid, hresult, (hordered _ hresult).1, hexists.1 ⟨_, hresult⟩⟩

end Dependency

end OdeModel
