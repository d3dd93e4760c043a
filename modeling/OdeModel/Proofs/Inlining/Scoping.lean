import OdeModel.Proofs.Arithmetic.Phrase
import Mathlib.Logic.Relation

/-!
# What calls mean

The body of a function reads its formal arguments, and all other names either from
the names of the model or from the formal arguments of the functions that called it.
Both are the same when no name of a called function is a formal argument of a caller.
-/

namespace OdeModel

/-- A function of a model whose body is an expression. -/
structure Formula where
  /-- The name of the function. -/
  name : Text
  /-- The formal arguments. -/
  formals : List Text
  /-- The body. -/
  body : Phrase .sum

namespace Formula

/-- The names when the formal arguments have the given values. -/
def bind (formals : List Text) (values : List (Option Value)) (names : Text → Option Value) :
    Text → Option Value := fun name =>
  match formals.idxOf? name with
  | none => names name
  | some i => values[i]?.getD none

/-- The names outside of the formal arguments are all that is left of the old ones. -/
theorem bind_congr {formals : List Text} (values : List (Option Value))
    {names names' : Text → Option Value} {name : Text}
    (h : name ∉ formals → names name = names' name) :
    bind formals values names name = bind formals values names' name := by
  unfold bind
  cases hindex : formals.idxOf? name with
  | none => exact h (List.idxOf?_eq_none_iff.1 hindex)
  | some i => rfl

theorem bind_of_not_mem {formals : List Text} {name : Text} (h : name ∉ formals)
    (values : List (Option Value)) (names : Text → Option Value) :
    bind formals values names name = names name := by
  rw [bind, List.idxOf?_eq_none_iff.2 h]

/-- A function calls another one in its body. -/
def Calls (formulas : List Formula) (caller callee : Formula) : Prop :=
  caller ∈ formulas ∧ callee ∈ formulas ∧ callee.name ∈ caller.body.callees

/-- The meaning of calls when the body of a function reads the names of the model. -/
structure Lexical (formulas : List Formula) (names : Text → Option Value)
    (functions : Text → List (Option Value) → Option Value) : Prop where
  defined : ∀ formula ∈ formulas, ∀ values,
    functions formula.name values =
      formula.body.value (bind formula.formals values names) functions
  other : ∀ name, name ∉ formulas.map Formula.name → functions name = Phrase.builtin name

/-- The meaning of calls when the body of a function reads the names that its caller
reads. -/
structure Dynamic (formulas : List Formula)
    (functions : (Text → Option Value) → Text → List (Option Value) → Option Value) : Prop where
  defined : ∀ formula ∈ formulas, ∀ names values,
    functions names formula.name values =
      formula.body.value (bind formula.formals values names)
        (functions (bind formula.formals values names))
  other : ∀ names name, name ∉ formulas.map Formula.name →
    functions names name = Phrase.builtin name

/-- No name in the body of a function is a formal argument of another function that
calls it, directly or over others, unless it is one of its own formal arguments. -/
def CaptureFree (formulas : List Formula) : Prop :=
  ∀ caller callee, Relation.TransGen (Calls formulas) caller callee →
    ∀ name ∈ callee.body.freeNames, name ∈ caller.formals → name ∈ callee.formals

/-- No function that is called in the body of a function, or of another one that it
calls directly or over others, has the name of one of its formal arguments. Functions
of the model may, for their calls are replaced. -/
def FormalsUncalled (formulas : List Formula) : Prop :=
  ∀ caller ∈ formulas, ∀ callee, Relation.ReflTransGen (Calls formulas) caller callee →
    ∀ function ∈ callee.body.callees, function ∉ formulas.map Formula.name →
      function ∉ caller.formals

/-- What holds of a function when it holds of all that it calls holds of every one. -/
def Founded (formulas : List Formula) : Prop :=
  ∀ p : Formula → Prop, (∀ formula ∈ formulas,
    (∀ callee, Calls formulas formula callee → p callee) → p formula) →
      ∀ formula ∈ formulas, p formula

section Meaning

variable {formulas : List Formula} {names : Text → Option Value}

/-- There is at most one lexical meaning. -/
theorem Lexical.unique (hfounded : Founded formulas)
    {functions functions' : Text → List (Option Value) → Option Value}
    (h : Lexical formulas names functions) (h' : Lexical formulas names functions') :
    functions = functions' := by
  have hsame : ∀ formula ∈ formulas, functions formula.name = functions' formula.name := by
    apply hfounded fun formula => functions formula.name = functions' formula.name
    intro formula hmem ih
    funext values
    rw [h.defined formula hmem, h'.defined formula hmem]
    apply formula.body.value_congr fun _ _ => rfl
    intro callee hcallee
    by_cases hdefined : callee ∈ formulas.map Formula.name
    · obtain ⟨other, hother, rfl⟩ := List.mem_map.1 hdefined
      exact ih other ⟨hmem, hother, hcallee⟩
    · rw [h.other callee hdefined, h'.other callee hdefined]
  funext name
  by_cases hdefined : name ∈ formulas.map Formula.name
  · obtain ⟨formula, hmem, rfl⟩ := List.mem_map.1 hdefined
    exact hsame formula hmem
  · rw [h.other name hdefined, h'.other name hdefined]

/-- The names agree on all that a function and those it calls read. -/
def AgreeFor (formulas : List Formula) (formula : Formula) (names names' : Text → Option Value) :
    Prop :=
  ∀ callee, Relation.ReflTransGen (Calls formulas) formula callee →
    ∀ name ∈ callee.body.freeNames, name ∉ callee.formals → names name = names' name

theorem AgreeFor.refl (formula : Formula) (names : Text → Option Value) :
    AgreeFor formulas formula names names :=
  fun _ _ _ _ _ => rfl

theorem AgreeFor.bind (hcapture : CaptureFree formulas) {caller callee : Formula}
    (hcalls : Calls formulas caller callee) (values : List (Option Value))
    {names names' : Text → Option Value} (h : AgreeFor formulas caller names names') :
    AgreeFor formulas callee (bind caller.formals values names) names' := by
  intro last hlast name hname hformal
  have hreach : Relation.TransGen (Calls formulas) caller last :=
    Relation.TransGen.head' hcalls hlast
  rw [bind_of_not_mem fun hcaptured => hformal (hcapture caller last hreach name hname hcaptured)]
  exact h last hreach.to_reflTransGen name hname hformal

variable {functions : (Text → Option Value) → Text → List (Option Value) → Option Value}

/-- Functions that read the same names mean the same. -/
theorem Dynamic.congr (h : Dynamic formulas functions) (hfounded : Founded formulas)
    (hcapture : CaptureFree formulas) :
    ∀ formula ∈ formulas, ∀ names names', AgreeFor formulas formula names names' →
      functions names formula.name = functions names' formula.name := by
  apply hfounded fun formula => ∀ names names', AgreeFor formulas formula names names' →
    functions names formula.name = functions names' formula.name
  intro formula hmem ih names names' hagree
  funext values
  rw [h.defined formula hmem, h.defined formula hmem]
  apply formula.body.value_congr
  · intro name hname
    exact bind_congr values (hagree formula Relation.ReflTransGen.refl name hname)
  · intro callee hcallee
    by_cases hdefined : callee ∈ formulas.map Formula.name
    · obtain ⟨other, hother, rfl⟩ := List.mem_map.1 hdefined
      have hcalls : Calls formulas formula other := ⟨hmem, hother, hcallee⟩
      -- both sides read what `names'` gives, for nothing of it is captured
      have hleft := ih other hcalls _ _ (hagree.bind hcapture hcalls values)
      have hright :=
        ih other hcalls _ _ ((AgreeFor.refl formula names').bind hcapture hcalls values)
      exact hleft.trans hright.symm
    · rw [h.other _ callee hdefined, h.other _ callee hdefined]

/-- Without captures the meaning is lexical. -/
theorem Dynamic.lexical (h : Dynamic formulas functions) (hfounded : Founded formulas)
    (hcapture : CaptureFree formulas) (names : Text → Option Value) :
    Lexical formulas names (functions names) where
  defined := by
    intro formula hmem values
    rw [h.defined formula hmem]
    apply formula.body.value_congr fun _ _ => rfl
    intro callee hcallee
    by_cases hdefined : callee ∈ formulas.map Formula.name
    · obtain ⟨other, hother, rfl⟩ := List.mem_map.1 hdefined
      have hcalls : Calls formulas formula other := ⟨hmem, hother, hcallee⟩
      exact h.congr hfounded hcapture other hother _ _
        ((AgreeFor.refl formula names).bind hcapture hcalls values)
    · rw [h.other _ callee hdefined, h.other _ callee hdefined]
  other := h.other names

end Meaning

end Formula

end OdeModel
