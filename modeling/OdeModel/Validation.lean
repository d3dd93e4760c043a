import OdeModel.Scope
import OdeModel.SymbolTable.Basic
import OdeModel.Text.Operand

/-!
# Check of the names in use

Expressions that are integrated, and the entries of markov processes, may use
only names that are defined or built in.
-/

namespace OdeModel

namespace Scope

/-- Checks the names in an expression, which belongs to the given line. -/
def checkExpr (scope : Scope) (line : Nat) (expr : Text) : Except ModelError Unit :=
  match (Text.operands expr).find? fun operand =>
      !operand.isNumber && !scope.isKnown operand.text with
  | some unknown => .error (.located .unknownName ⟨line, expr, unknown.offset⟩)
  | none => .ok ()

/-- Checks the names in a symbol table. -/
def check (scope : Scope) (table : SymbolTable) : Except ModelError Unit := do
  Category.integrated.forM fun category =>
    (table.get category).forM fun definition =>
      scope.checkExpr definition.line definition.expr
  (table.get .markovs).forM fun definition =>
    definition.args.forM (scope.checkExpr definition.line)

end Scope

end OdeModel
