import OdeModel.Inlining.Calls
import OdeModel.Statement.Extraction
import OdeModel.SymbolTable.Json
import OdeModel.SymbolTable.Summary
import OdeModel.Validation

/-!
# Models

A model is the symbol table of a model file with all constants and calls of
functions inlined, together with the names it defines.
-/

namespace OdeModel

/-- How a draft becomes a model. -/
structure Expansion where
  /-- Names in the expanded expressions are checked. -/
  validate : Bool := true
  /-- Compound expressions get parentheses where they are put into others.
  Without them `!c=1+2` turns `c*x` into `1+2*x`. -/
  parenthesize : Bool := true

/-- An expanded model. -/
structure Model where
  /-- The definitions. -/
  symbols : SymbolTable
  /-- The defined names. -/
  scope : Scope

namespace Model

/-- Checks that the expressions of the model use only known names. -/
def check (model : Model) : Except ModelError Unit := model.scope.check model.symbols

/-- Expands a draft. -/
def ofDraft (expansion : Expansion) (draft : Draft) : Except ModelError Model := do
  let symbols ← draft.symbols.expand draft.scope expansion.parenthesize
  let model : Model := ⟨symbols, draft.scope⟩
  if expansion.validate then model.check
  return model

/-- The definition of a name. -/
def definition? (model : Model) (name : Text) : Option (Category × Definition) :=
  model.symbols.find? name

/-- The expression of a name. -/
def expression? (model : Model) (name : Text) : Option Text :=
  (model.definition? name).map fun (_, definition) => definition.expr

/-- The listing of the definitions. -/
def summary (model : Model) : Text := model.symbols.summary

/-- The definitions in JSON. -/
def json (model : Model) : Text := model.symbols.json

end Model

end OdeModel
