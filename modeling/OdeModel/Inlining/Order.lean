import OdeModel.Error
import OdeModel.SymbolTable.Basic

/-!
# Order of dependence

Definitions are put into an order in which each comes after those it refers to.
The search goes depth first; it fails when it comes back to a definition that
it has not finished.
-/

namespace OdeModel

namespace Dependency

/-- Goes to a definition: `path` holds the unfinished definitions that led
here, `done` the finished ones in order. Every step makes the path longer by a
definition that was not on it, so `fuel` above their number is enough. -/
def visit (references : Nat → List Nat) :
    (fuel : Nat) → (path done : List Nat) → (index : Nat) → Except Nat (List Nat)
  | 0, _, done, _ => .ok done
  | fuel + 1, path, done, index =>
      if done.contains index then .ok done
      else if path.contains index then .error index
      else do
        let done ← (references index).foldlM
          (fun done next => visit references fuel (index :: path) done next) done
        return done ++ [index]

/-- An order of the numbers below `count` in which each comes after its
references; the error is a number that refers to itself over others. -/
def order (references : Nat → List Nat) (count : Nat) : Except Nat (List Nat) :=
  (List.range count).foldlM (visit references (count + 1) []) []

/-- The order of some definitions; `references` gives the numbers that an
expression refers to. -/
def ofDefinitions (references : Text → List Nat) (definitions : List Definition) :
    Except ModelError (List Nat) :=
  let referencesOf := fun index =>
    match definitions[index]? with
    | none => []
    | some definition => references definition.expr
  match order referencesOf definitions.length with
  | .ok indices => .ok indices
  | .error index =>
      let culprit := definitions[index]?.getD ⟨0, [], [], []⟩
      .error (.located .circularReference
        ⟨culprit.line, culprit.name ++ '=' :: culprit.expr, 0⟩)

end Dependency

end OdeModel
